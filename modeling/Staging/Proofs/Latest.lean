import Staging.Proofs.Schedule

namespace Staging

/-- A measure of the nodes of a body that dependences and reads bound from below, and that is no
higher anywhere than they force it to be. -/
structure Region.Latest (r : Region) (reach : NodeId → Nat) : Prop where
  scheduled : ∀ n ∈ r.body, r.isDataflow n = true → 1 ≤ reach n
  drops : ∀ p carrier c, r.Feeds p carrier c → reach c < reach p
  reads : ∀ x ∈ r.body, ∀ y ∈ r.body, r.ReadsFrom x y → reach x ≤ reach y
  tight : ∀ n ∈ r.body, reach n ≤ (r.isDataflow n).toNat ∨
    (∃ carrier c, r.Feeds n carrier c ∧ reach n = reach c + 1) ∨
    ∃ x ∈ r.body, r.ReadsFrom x n ∧ reach n = reach x

section Latest

variable {r : Region} {reach reach' : NodeId → Nat}

theorem Region.Latest.le (h : r.Latest reach) (h' : r.Latest reach') (ordered : r.Ordered)
    (forward : ∀ p carrier c, r.Feeds p carrier c → Before r.body p c) {n : NodeId}
    (hn : n ∈ r.body) : reach n ≤ reach' n := by
  -- What forces the measure of a node up stands behind it, so the induction goes up the body.
  have main : ∀ behind earlier, r.body = earlier ++ behind →
      ∀ n ∈ behind, reach n ≤ reach' n := by
    intro behind
    induction behind with
    | nil => simp
    | cons m behind ih =>
      intro earlier hb n hn
      have later := ih (earlier ++ [m]) (by simpa using hb)
      rcases List.mem_cons.mp hn with rfl | hn
      · have here : n ∈ r.body := hb ▸ by simp
        rcases h.tight n here with low | ⟨carrier, c, feeds, he⟩ | ⟨x, hx, reads, he⟩
        · refine low.trans ?_
          cases flow : r.isDataflow n with
          | true => exact h'.scheduled n here flow
          | false => exact Nat.zero_le _
        · have := later c ((forward n carrier c feeds).mem_behind ordered.bodyNodup hb)
          have := h'.drops n carrier c feeds
          omega
        · have := later x
            ((ordered.before x hx n here reads).mem_behind ordered.bodyNodup hb)
          have := h'.reads x hx n here reads
          omega
      · exact later n hn
  exact main r.body [] rfl n hn

theorem Region.Latest.unique (h : r.Latest reach) (h' : r.Latest reach') (ordered : r.Ordered)
    (forward : ∀ p carrier c, r.Feeds p carrier c → Before r.body p c) {n : NodeId}
    (hn : n ∈ r.body) : reach n = reach' n :=
  Nat.le_antisymm (h.le h' ordered forward hn) (h'.le h ordered forward hn)

end Latest

section Ascent

variable {r : Region} {g : DepGraph} {backward : Nat} {behind : List NodeId} {a a' : Ascent}
  {n : NodeId}

theorem Ascent.reach_of_step {uses : Uses} (h : Ascent.step r g uses backward a n = .ok a')
    {x : NodeId} (ne : x ≠ n) : a'.reach x = a.reach x := by
  rcases step_cases h with ⟨-, deepest, -, rfl⟩ | ⟨-, rfl⟩
  · simp [reach, Levels.get?, Levels.set, Table.get?_put, ne]
  · simp [reach, Table.get?_put, ne]

theorem Ascent.Settled.floor_attained (h : a.Settled r g behind) (forest : r.Forest) :
    a.floor r r.uses n = 0 ∨ ∃ x ∈ behind, r.ReadsFrom x n ∧ a.floor r r.uses n = a.reach x := by
  refine (Nat.eq_zero_or_pos _).imp_right fun pos => ?_
  unfold floor at pos ⊢
  obtain ⟨x, hx, he⟩ := List.mem_map.mp (maxOf_mem.resolve_left (Nat.ne_of_gt pos))
  obtain ⟨v, hv, hx⟩ := List.mem_flatMap.mp (List.mem_filter.mp hx).1
  rw [← he] at pos ⊢
  obtain ⟨_, _, _, behind⟩ := h.reach_pos pos
  exact ⟨x, behind, ⟨v, (forest.mem_topUsersOf.mp hx).2, hv⟩, rfl⟩

/-- Each node behind which a walk up the body has come reaches no deeper than it has to. -/
def Ascent.Tight (r : Region) (g : DepGraph) (behind : List NodeId) (a : Ascent) : Prop :=
  ∀ n ∈ behind, a.reach n ≤ (r.isDataflow n).toNat ∨
    (∃ e ∈ g.from n, e.consumer ∈ behind ∧ a.reach n = a.reach e.consumer + 1) ∨
    ∃ x ∈ behind, r.ReadsFrom x n ∧ a.reach n = a.reach x

theorem Ascent.Settled.reach_eq (h : a.Settled r g behind) {l : Nat}
    (hl : a.levels.get? n = some l) : n ∈ behind ∧ a.reach n = l :=
  ⟨((h.leveled n).mp (by simp [hl])).1, by simp [reach, hl]⟩

/-- Where a node is placed, a consumer or a reader of it makes it be. -/
theorem Ascent.Settled.tight_step (h : a.Settled r g behind) (forest : r.Forest)
    (hstep : Ascent.step r g r.uses backward a n = .ok a') (new : n ∉ behind) :
    a'.reach n ≤ (r.isDataflow n).toNat ∨
      (∃ e ∈ g.from n, e.consumer ∈ behind ∧ a'.reach n = a.reach e.consumer + 1) ∨
      ∃ x ∈ behind, r.ReadsFrom x n ∧ a'.reach n = a.reach x := by
  have floor := h.floor_attained (n := n) forest
  rcases step_cases hstep with ⟨flow, deepest, hdeep, rfl⟩ | ⟨-, rfl⟩
  · have own : Ascent.reach { a with
        levels := a.levels.set n (Nat.max (deepest + 1) (a.floor r r.uses n)) } n =
        Nat.max (deepest + 1) (a.floor r r.uses n) := by
      simp [reach, Levels.get?, Levels.set, Table.get?_put]
    rw [own, flow]
    rcases max_choice (deepest + 1) (a.floor r r.uses n) with he | he
    · rw [show Nat.max (deepest + 1) (a.floor r r.uses n) = deepest + 1 from he]
      rcases (Ascent.deepest_spec hdeep).2 with rfl | ⟨e, hmem, hl⟩
      · exact Or.inl le_rfl
      · obtain ⟨hb, hr⟩ := h.reach_eq hl
        exact Or.inr (Or.inl ⟨e, hmem, hb, by rw [hr]⟩)
    · rw [show Nat.max (deepest + 1) (a.floor r r.uses n) = a.floor r r.uses n from he]
      rcases floor with zero | attained
      · exact Or.inl (by omega)
      · exact Or.inr (Or.inr attained)
  · have unleveled : a.levels.get? n = none := by
      simpa [new] using (h.leveled n).not
    have own : Ascent.reach { a with floors := a.floors.put n (a.floor r r.uses n) } n =
        a.floor r r.uses n := by
      simp [reach, Table.get?_put, unleveled]
    rw [own]
    rcases floor with zero | attained
    · exact Or.inl (by omega)
    · exact Or.inr (Or.inr attained)

theorem Ascent.Tight.step (t : a.Tight r g behind) (h : a.Settled r g behind) (forest : r.Forest)
    (hstep : Ascent.step r g r.uses backward a n = .ok a') (new : n ∉ behind) :
    a'.Tight r g (n :: behind) := by
  have old : ∀ x ∈ behind, a'.reach x = a.reach x := by
    intro x hx
    refine Ascent.reach_of_step hstep ?_
    rintro rfl
    exact new hx
  intro m hm
  have found : a'.reach m ≤ (r.isDataflow m).toNat ∨
      (∃ e ∈ g.from m, e.consumer ∈ behind ∧ a'.reach m = a.reach e.consumer + 1) ∨
      ∃ x ∈ behind, r.ReadsFrom x m ∧ a'.reach m = a.reach x := by
    rcases List.mem_cons.mp hm with rfl | hm
    · exact h.tight_step forest hstep new
    · rw [old m hm]
      exact t m hm
  rcases found with low | ⟨e, he, hb, heq⟩ | ⟨x, hx, reads, heq⟩
  · exact Or.inl low
  · exact Or.inr (Or.inl ⟨e, he, List.mem_cons_of_mem _ hb, by rw [old _ hb, heq]⟩)
  · exact Or.inr (Or.inr ⟨x, List.mem_cons_of_mem _ hx, reads, by rw [old x hx, heq]⟩)

theorem Ascent.tight_of_foldlM (ordered : r.Ordered) {earlier : List NodeId}
    (hb : r.body = earlier ++ behind)
    (h : behind.reverse.foldlM (Ascent.step r g r.uses backward) .start = .ok a) :
    a.Tight r g behind := by
  refine foldlM_induction (P := fun behind a => ∀ earlier, r.body = earlier ++ behind →
    a.Tight r g behind) (fun _ _ => by simp [Tight]) ?_ h earlier hb
  intro n behind low a hfold before hstep earlier hb
  have hb' : r.body = (earlier ++ [n]) ++ behind := by simpa using hb
  have new : n ∉ behind := fun hn =>
    (before_iff_append.mpr ⟨earlier, behind, hb, hn⟩).ne ordered.bodyNodup rfl
  exact (before _ hb').step (settled_of_foldlM ordered hb' hfold) ordered.toForest hstep new

theorem Region.Ordered.exists_ascent (ordered : r.Ordered) {levels : Levels}
    (h : r.levels g = .ok levels) :
    ∃ a : Ascent, a.levels = levels ∧ a.Settled r g r.body ∧ a.Tight r g r.body := by
  have whole : r.body = [] ++ r.body := rfl
  obtain ⟨a, hfold, found⟩ := foldlM_of_levels h
  exact ⟨a, found, Ascent.settled_of_foldlM ordered whole hfold,
    Ascent.tight_of_foldlM ordered whole hfold⟩

/-- The levels that are found are as low as they can be. -/
theorem Region.WellFormed.latest_of_levels (wf : r.WellFormed) {levels : Levels}
    (h : r.levels r.deps = .ok levels) :
    ∃ reach, r.Latest reach ∧ ∀ n l, levels.get? n = some l → reach n = l := by
  obtain ⟨a, rfl, settled, tight⟩ := wf.ordered.exists_ascent h
  have leveled : ∀ n ∈ r.body, r.isDataflow n = true → ∃ l, a.levels.get? n = some l :=
    fun n hn flow => Option.isSome_iff_exists.mp ((settled.leveled n).mpr ⟨hn, flow⟩)
  refine ⟨a.reach, ⟨fun n hn flow => ?_, fun p carrier c feeds => ?_, settled.reads,
    fun n hn => ?_⟩, fun n l hl => (settled.reach_eq hl).2⟩
  · obtain ⟨l, hl⟩ := leveled n hn flow
    rw [(settled.reach_eq hl).2]
    exact settled.positive n l hl
  · obtain ⟨l, hl⟩ := leveled p feeds.mem_left feeds.isDataflow_left
    obtain ⟨lower, hlower, hlt, _⟩ := settled.edges p l hl ⟨carrier, c⟩ (wf.mem_from.mpr feeds)
    rwa [(settled.reach_eq hl).2, (settled.reach_eq hlower).2]
  · refine (tight n hn).imp_right (Or.imp_left ?_)
    rintro ⟨e, he, _, heq⟩
    exact ⟨e.carrier, e.consumer, wf.mem_from.mp he, heq⟩

theorem Ascent.exists_deepest {edges : List Edge}
    (leveled : ∀ e ∈ edges, (a.levels.get? e.consumer).isSome = true) :
    ∃ deepest, a.deepest edges = .ok deepest := by
  induction edges with
  | nil => exact ⟨0, rfl⟩
  | cons e edges ih =>
    obtain ⟨l, hl⟩ := Option.isSome_iff_exists.mp (leveled e (by simp))
    obtain ⟨depth, hdeep⟩ := ih fun e' he' => leveled e' (List.mem_cons_of_mem _ he')
    exact ⟨Nat.max l depth, by simp [deepest, hl, hdeep, Except.map]⟩

/-- Levels are found wherever the edges of the scheduled nodes lead to later ones. -/
theorem Region.Ordered.exists_levels (ordered : r.Ordered)
    (forward : ∀ p, ∀ e ∈ g.from p, r.isDataflow e.consumer = true ∧ Before r.body p e.consumer) :
    ∃ levels, r.levels g = .ok levels := by
  have main : ∀ behind earlier, r.body = earlier ++ behind → ∃ a, behind.reverse.foldlM
      (Ascent.step r g r.uses (g.backward r.uses).length) .start = .ok a := by
    intro behind
    induction behind with
    | nil => exact fun _ _ => ⟨_, rfl⟩
    | cons n behind ih =>
      intro earlier hb
      have hb' : r.body = (earlier ++ [n]) ++ behind := by simpa using hb
      obtain ⟨low, hfold⟩ := ih _ hb'
      have settled := Ascent.settled_of_foldlM ordered hb' hfold
      rw [Ascent.foldlM_cons_reverse, hfold]
      by_cases flow : r.isDataflow n = true
      · have leveled : ∀ e ∈ g.from n, (low.levels.get? e.consumer).isSome = true := by
          intro e he
          obtain ⟨scheduled, later⟩ := forward n e he
          exact (settled.leveled e.consumer).mpr
            ⟨later.mem_behind ordered.bodyNodup hb, scheduled⟩
        obtain ⟨deepest, hdeep⟩ := Ascent.exists_deepest leveled
        exact ⟨_, by simp [bind, Except.bind, Ascent.step, flow, hdeep]; rfl⟩
      · exact ⟨_, by simp [bind, Except.bind, Ascent.step, flow]; rfl⟩
  obtain ⟨a, hfold⟩ := main r.body [] rfl
  exact ⟨a.levels, by simp [Region.levels, hfold, Except.map]⟩

end Ascent

end Staging
