import Staging.Proofs.Absorbing
import Staging.Proofs.Latest
import Staging.Proofs.SingleWriter

namespace Staging

theorem getLast?_or_infix {α : Type} {l : List α} {a : α} (h : a ∈ l) :
    l.getLast? = some a ∨ ∃ b, [a, b] <:+: l := by
  obtain ⟨x, y, rfl⟩ := List.append_of_mem h
  cases y with
  | nil => exact Or.inl (by simp)
  | cons b y => exact Or.inr ⟨b, x, y, by simp⟩

section Replanned

variable {r out : Region} {o : Options} {plan : Plan} {built : List BuiltChain} {s : Forwarding}
  {b : BuiltChain} {reach : NodeId → Nat} {p c : NodeId} {carrier : Carrier}

theorem Region.Threaded.copies_of_built (h : r.Threaded o plan built s) (hb : b ∈ built) :
    o.insertCopy = true := by
  by_contra merging
  rw [h.built_eq_nil (by simpa using merging)] at hb
  simp at hb

/-- Where stages are merged, the dependences are those of before. -/
theorem Region.Threaded.relinked_merged (h : r.Threaded o plan built s) (sw : r.SingleWriter)
    (merging : o.insertCopy = false) :
    r.Relinked plan.levels.get? built p c ↔ ∃ carrier, r.Feeds p carrier c := by
  have none : ∀ b, b ∉ built := fun b => by simp [h.built_eq_nil merging]
  constructor
  · intro relinked
    cases relinked with
    | kept feeds => exact ⟨_, feeds⟩
    | overtaken awaits earlier =>
      exact absurd awaits (sw.no_awaits earlier.mem_right earlier.mem_left)
    | stored hb => exact absurd hb (none _)
    | computed hb => exact absurd hb (none _)
    | handed hb => exact absurd hb (none _)
    | delivered hb => exact absurd hb (none _)
  · rintro ⟨carrier, feeds⟩
    rw [h.built_eq_nil merging]
    exact .kept feeds rfl fun _ => rfl

/-- Whatever the mode, every dependence goes down once the plan is carried out. -/
theorem Region.Threaded.relinked_falls (h : r.Threaded o plan built s) (sw : r.SingleWriter)
    (relinked : r.Relinked plan.levels.get? built p c) : ∃ upper lower,
      s.region.level? p = some upper ∧ s.region.level? c = some lower ∧ lower < upper := by
  cases mode : o.insertCopy with
  | true =>
    obtain ⟨lower, hu, hl⟩ := h.single_drops sw mode relinked
    exact ⟨_, lower, hu, hl, Nat.lt_succ_self _⟩
  | false =>
    obtain ⟨carrier, feeds⟩ := (h.relinked_merged sw mode).mp relinked
    obtain ⟨upper, lower, hu, hl, hlt, _⟩ := h.sound.drops _ _ _ feeds
    exact ⟨upper, lower, (h.level_old (h.wf.bodyKnown _ feeds.mem_left)).trans hu,
      (h.level_old (h.wf.bodyKnown _ feeds.mem_right)).trans hl, hlt⟩

theorem Region.Legalized.feeds_falls (h : r.Legalized o plan built s out) (sw : r.SingleWriter)
    (feeds : out.Feeds p carrier c) : ∃ upper lower, s.region.level? p = some upper ∧
      s.region.level? c = some lower ∧ lower < upper ∧ Before out.body p c := by
  obtain ⟨upper, lower, hu, hl, hlt⟩ :=
    h.threaded.relinked_falls sw (h.feeds_iff.mp ⟨carrier, feeds⟩)
  refine ⟨upper, lower, hu, hl, hlt, ?_⟩
  have ne := feeds.ne h.wellFormed.toNested
  refine (before_total feeds.mem_left feeds.mem_right ne.symm).resolve_right fun back => ?_
  have := h.gathered.sorted c p lower upper back hl hu
  omega

/-- What is carried to a node comes from further above than the next level. -/
theorem Region.Threaded.chain_skips (h : r.Threaded o plan built s)
    (leveled : ∀ n l, plan.levels.get? n = some l → reach n = l) {v : ValueId}
    (found : chainTo built c v = some b) : b ∈ built ∧ b.chain.carrier.id = v ∧
      r.Feeds b.chain.producer b.chain.carrier c ∧ reach c + 1 < reach b.chain.producer := by
  obtain ⟨_, hb, rfl, hid⟩ := rewired_of_some found
  obtain ⟨upper, lower, feeds, hu, hl, hlt, _⟩ := h.edge hb
  refine ⟨hb, hid, feeds, ?_⟩
  rw [leveled _ _ hu, leveled _ _ hl]
  omega

/-- A dependence between neighbouring levels stays as it is. -/
theorem Region.Legalized.feeds_of_next (h : r.Legalized o plan built s out) (sw : r.SingleWriter)
    (leveled : ∀ n l, plan.levels.get? n = some l → reach n = l) (feeds : r.Feeds p carrier c)
    (next : reach p = reach c + 1) : ∃ carrier', out.Feeds p carrier' c := by
  refine h.feeds_of_relinked (.kept feeds ?_ fun memory => ?_)
  · cases found : chainTo built c carrier.id with
    | none => rfl
    | some b =>
      obtain ⟨_, hid, feeds', skips⟩ := h.threaded.chain_skips leveled found
      obtain ⟨same, _⟩ := sw.producer_unique h.threaded.wf feeds' feeds hid
      rw [same] at skips
      omega
  · rcases sw.feeds_cases feeds with ⟨_, loop, writes⟩ | ⟨noMemory, _, _⟩
    · exact h.threaded.unwired sw feeds.mem_left loop writes
    · simp [memory] at noMemory

/-- A node still reads from another one that reaches no higher. -/
theorem Region.Legalized.readsFrom_level (h : r.Legalized o plan built s out)
    (latest : r.Latest reach)
    (leveled : ∀ n l, plan.levels.get? n = some l → reach n = l) {x n : NodeId} (hx : x ∈ r.body)
    (hn : n ∈ r.body) (reads : r.ReadsFrom x n) (level : reach n = reach x) :
    out.ReadsFrom x n := by
  have wf := h.threaded.wf
  obtain ⟨v, hv, hres⟩ := reads
  have direct : chainTo built x v = none := by
    cases found : chainTo built x v with
    | none => rfl
    | some b =>
      obtain ⟨_, rfl, feeds, skips⟩ := h.threaded.chain_skips leveled found
      -- The producer of what is carried is not below `n`, which offers the value, too.
      have top : reach b.chain.producer ≤ reach n := by
        rcases feeds.offers with hm | results
        · exact latest.reads _ feeds.mem_left n hn ⟨_, hm, hres⟩
        · rw [wf.sound.result_unique results hres]
      omega
  rw [h.same.readsFrom]
  refine ⟨v, (h.threaded.rewritten.mentions_old hx (wf.sound.known_of_mentions hx hv)).mpr ⟨hv, direct⟩,
    ?_⟩
  rwa [h.threaded.rewritten.results n (wf.bodyKnown n hn)]

theorem Region.Legalized.isDataflow_old (h : r.Legalized o plan built s out) {n : NodeId}
    (hn : n ∈ r.body) : out.isDataflow n = r.isDataflow n := by
  rw [h.same.isDataflow]
  simp [Region.isDataflow, h.threaded.rewritten.kind n (h.threaded.wf.bodyKnown n hn)]

/-- In a region that was made legal, the levels that were planned are as low as they can be, with
each new node at the level of its link. -/
theorem Region.Legalized.latest (h : r.Legalized o plan built s out) (sw : r.SingleWriter)
    (latest : r.Latest reach) (leveled : ∀ n l, plan.levels.get? n = some l → reach n = l) :
    out.Latest (extendReach r built reach) := by
  have threaded := h.threaded
  have graded := threaded.graded_extend leveled latest.reads
  have old : ∀ {n : NodeId}, n ∈ r.body → extendReach r built reach n = reach n := fun hn =>
    threaded.extendReach_old reach hn
  have new : ∀ {b l}, b ∈ built → l ∈ b.links → extendReach r built reach l.copy = l.level :=
    fun hb hl => threaded.extendReach_new reach hb hl (by simp [Link.nodes])
  have stays : ∀ {n : NodeId}, n ∈ s.region.body → n ∈ out.body := fun hn => h.mem_body.mpr hn
  refine ⟨fun n hn flow => ?_, fun p carrier c feeds => ?_, fun x hx y hy reads => ?_,
    fun n hn => ?_⟩
  · have hn := h.mem_body.mp hn
    obtain ⟨l, hl⟩ := Option.isSome_iff_exists.mp
      ((threaded.leveled_iff hn).mpr (h.same.isDataflow ▸ flow))
    rw [graded.level n hn l hl]
    exact threaded.positive hn hl
  · obtain ⟨upper, lower, hu, hl, hlt, before⟩ := h.feeds_falls sw feeds
    rwa [graded.level p (h.mem_body.mp before.mem_left) upper hu,
      graded.level c (h.mem_body.mp before.mem_right) lower hl]
  · exact graded.mono x (h.mem_body.mp hx) y (h.mem_body.mp hy) (h.same.readsFrom ▸ reads)
  · rcases threaded.built.mem_body.mp (h.mem_body.mp hn) with hn | hn
    · rw [old hn, h.isDataflow_old hn]
      rcases latest.tight n hn with low | ⟨carrier, c, feeds, he⟩ | ⟨x, hx, reads, he⟩
      · exact Or.inl low
      · obtain ⟨carrier', feeds'⟩ := h.feeds_of_next sw leveled feeds he
        exact Or.inr (Or.inl ⟨carrier', c, feeds', by rw [old feeds.mem_right, he]⟩)
      · exact Or.inr (Or.inr ⟨x, stays (threaded.built.mem_body.mpr (Or.inl hx)),
          h.readsFrom_level latest leveled hx hn reads he, by rw [old hx, he]⟩)
    · obtain ⟨b, hb, l, hl, hbuf | rfl⟩ := mem_newNodes.mp hn
      · -- A buffer is read by the copy that fills it.
        have hcopy : l.copy ∈ newNodes built := mem_newNodes.mpr ⟨b, hb, l, hl, Or.inr rfl⟩
        refine Or.inr (Or.inr ⟨l.copy, stays (threaded.built.mem_body.mpr (Or.inr hcopy)), ?_, ?_⟩)
        · obtain ⟨_, _, link⟩ := threaded.rewritten.hasLink hb hl
          rw [h.same.readsFrom]
          exact ⟨l.target, (threaded.rewritten.mentions_copy hb hl).mpr
            (Or.inr ⟨by simp [hbuf], rfl⟩), by rw [(link.buffer n hbuf).2.2.1]; simp⟩
        · rw [new hb hl, threaded.extendReach_new reach hb hl (by simp [Link.nodes, hbuf])]
      · -- A copy is one level above the next one, or above the consumer of its chain.
        rw [new hb hl]
        rcases getLast?_or_infix hl with last | ⟨k, hlk⟩
        · obtain ⟨lower, hlow, hlevel⟩ := threaded.level_last hb last
          have first := threaded.first_chain sw (threaded.copies_of_built hb) hb
          obtain ⟨carrier, feeds⟩ := h.feeds_of_relinked (.delivered hb last first)
          refine Or.inr (Or.inl ⟨carrier, _, feeds, ?_⟩)
          rw [old (threaded.rewritten.consumers b hb), leveled _ _ hlow, hlevel]
        · obtain ⟨carrier, feeds⟩ := h.feeds_of_relinked (.handed hb hlk)
          refine Or.inr (Or.inl ⟨carrier, _, feeds, ?_⟩)
          have hk : Before b.links l k := hlk.sublist
          rw [new hb hk.mem_right, threaded.level_next hb hlk]

theorem Region.Threaded.level_eq_none (h : r.Threaded o plan built s) {n : NodeId}
    (hn : n ∉ s.region.body) : s.region.level? n = none := by
  by_cases known : n.index < s.region.nodes.size
  · rcases h.rewritten.node_cases known with old | new
    · rw [h.level_old old]
      have unplanned := (h.sound.schedule.leveled n).not.mpr fun hm =>
        hn (h.built.mem_body.mpr (Or.inl hm.1))
      simpa using unplanned
    · exact absurd (h.built.mem_body.mpr (Or.inr new)) hn
  · simp [Region.level?, node?_eq_none (by omega : s.region.nodes.size ≤ n.index)]

theorem Region.Legalized.levels_again (h : r.Legalized o plan built s out) (sw : r.SingleWriter)
    (hplan : r.plan o = .ok plan) : ∃ levels, out.levels out.deps = .ok levels ∧
      levels.get? = s.region.level? := by
  have wf := h.wellFormed
  have threaded := h.threaded
  have forward : ∀ p carrier c, out.Feeds p carrier c → Before out.body p c := by
    intro p carrier c feeds
    obtain ⟨_, _, _, _, _, before⟩ := h.feeds_falls sw feeds
    exact before
  obtain ⟨levels, hlevels⟩ := wf.ordered.exists_levels fun p e he =>
    have feeds := wf.mem_from.mp he
    ⟨feeds.isDataflow_right, forward p e.carrier e.consumer feeds⟩
  obtain ⟨reach', latest', leveled'⟩ := wf.latest_of_levels hlevels
  obtain ⟨reach, latest, leveled⟩ := threaded.wf.latest_of_levels (plan_eq_ok hplan).1
  have graded := threaded.graded_extend leveled latest.reads
  have same : ∀ n ∈ out.body, reach' n = extendReach r built reach n := fun n hn =>
    latest'.unique (h.latest sw latest leveled) wf.ordered forward hn
  have domain := (levels_spec wf.ordered hlevels).1.leveled
  refine ⟨levels, hlevels, funext fun n => ?_⟩
  by_cases hn : n ∈ out.body
  · have old := h.mem_body.mp hn
    have flow := threaded.leveled_iff old
    rw [← h.same.isDataflow] at flow
    cases hl : levels.get? n with
    | none =>
      have unleveled := (domain n).not.mp (by simp [hl])
      have off : ¬ out.isDataflow n = true := fun hf => unleveled ⟨hn, hf⟩
      exact (by simpa using flow.not.mpr off : s.region.level? n = none).symm
    | some l =>
      have hf := ((domain n).mp (by simp [hl])).2
      obtain ⟨l', hl'⟩ := Option.isSome_iff_exists.mp (flow.mpr hf)
      rw [hl', ← leveled' n l hl, same n hn, graded.level n old l' hl']
  · rw [threaded.level_eq_none fun hm => hn (h.mem_body.mpr hm)]
    simpa using (domain n).not.mpr fun hm => hn hm.1

theorem Region.Legalized.no_skips (h : r.Legalized o plan built s out) (sw : r.SingleWriter)
    (copies : o.insertCopy = true) (feeds : out.Feeds p carrier c) {upper lower : Nat}
    (hu : s.region.level? p = some (upper + 1)) (hl : s.region.level? c = some lower) :
    lower = upper := by
  obtain ⟨low, hu', hl'⟩ :=
    h.threaded.single_drops sw copies (h.feeds_iff.mp ⟨carrier, feeds⟩)
  rw [hu] at hu'
  rw [hl] at hl'
  cases hl'
  simpa using hu'.symm

/-- Nothing stops the planning of what to do about edges where the levels are those of before. -/
theorem Region.Legalized.exists_bypasses (h : r.Legalized o plan built s out)
    (sw : r.SingleWriter) {levels : Levels} (hlevels : out.levels out.deps = .ok levels)
    (same : levels.get? = s.region.level?) :
    ∃ b, out.bypasses out.deps levels o = .ok b := by
  have wf := h.wellFormed
  cases hb : out.bypasses out.deps levels o with
  | ok b => exact ⟨b, rfl⟩
  | error stop =>
    exfalso
    obtain ⟨b, bypass, hadd, feeds, hu, hl, hlt⟩ := wf.skip_of_error hlevels hb
    cases mode : o.insertCopy with
    | true =>
      rw [same] at hu hl
      have := h.no_skips sw mode feeds hu hl
      omega
    | false => simp [Bypasses.add, mode, pure, Except.pure] at hadd

/-- Planning a second time plans the same levels, no chains, and the same merges. -/
theorem Region.Legalized.plan_again (h : r.Legalized o plan built s out) (sw : r.SingleWriter)
    (hplan : r.plan o = .ok plan) : ∃ again, out.plan o = .ok again ∧
      again.levels.get? = s.region.level? ∧ again.bypasses.chains = [] ∧
      again.bypasses.merges = plan.bypasses.merges := by
  obtain ⟨levels, hlevels, same⟩ := h.levels_again sw hplan
  obtain ⟨b, hb⟩ := h.exists_bypasses sw hlevels same
  have again := Plan.sound h.wellFormed hlevels hb
  have sound := h.threaded.sound
  refine ⟨⟨out.deps, levels, b⟩, by simp [Region.plan, hlevels, hb, blockedBy, bind, Except.bind,
    pure, Except.pure], same, ?_, ?_⟩
  · cases mode : o.insertCopy with
    | false => simpa [mode] using again.chains
    | true =>
      have none : b.edges = [] := by
        refine List.eq_nil_iff_forall_not_mem.mpr fun e he => ?_
        obtain ⟨feeds, hu, hl, hlt⟩ := (again.skips e).mp he
        simp only [same] at hu hl
        have := h.no_skips sw mode feeds hu hl
        omega
      simpa [mode, none] using again.chains
  · cases mode : o.insertCopy with
    | true => rw [again.merges, sound.merges, mode]; rfl
    | false =>
      have old : ∀ {p carrier c}, r.Feeds p carrier c →
          s.region.level? p = plan.levels.get? p ∧ s.region.level? c = plan.levels.get? c :=
        fun feeds => ⟨h.threaded.level_old (h.threaded.wf.bodyKnown _ feeds.mem_left),
          h.threaded.level_old (h.threaded.wf.bodyKnown _ feeds.mem_right)⟩
      have merges := again.merges
      have merges' := sound.merges
      simp only [mode, Bool.false_eq_true, if_false] at merges merges'
      rw [merges, merges']
      refine foldl_addMerge_congr Bypass.lower Bypass.upper fun low high => ?_
      constructor
      · rintro ⟨e, he, rfl, rfl⟩
        obtain ⟨feeds, hu, hl, hlt⟩ := (again.skips e).mp he
        obtain ⟨carrier, feeds'⟩ := (h.threaded.relinked_merged sw mode).mp (h.feeds_iff.mp ⟨_, feeds⟩)
        simp only [same, old feeds'] at hu hl
        exact ⟨⟨e.producer, carrier, e.consumer, e.upper, e.lower⟩,
          (sound.skips _).mpr ⟨feeds', hu, hl, hlt⟩, rfl, rfl⟩
      · rintro ⟨e, he, rfl, rfl⟩
        obtain ⟨feeds, hu, hl, hlt⟩ := (sound.skips e).mp he
        obtain ⟨carrier, feeds'⟩ := h.feeds_iff.mpr ((h.threaded.relinked_merged sw mode).mpr ⟨_, feeds⟩)
        rw [← (old feeds).1] at hu
        rw [← (old feeds).2] at hl
        exact ⟨⟨e.producer, carrier, e.consumer, e.upper, e.lower⟩,
          (again.skips _).mpr ⟨feeds', same ▸ hu, same ▸ hl, hlt⟩, rfl, rfl⟩

end Replanned

end Staging
