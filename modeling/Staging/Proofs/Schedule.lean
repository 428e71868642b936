import Staging.Levels
import Staging.Proofs.Edges

namespace Staging

/-- A region whose blocks are a forest, and in whose body each node stands behind all nodes whose
results it uses. -/
structure Region.Ordered (r : Region) : Prop extends r.Forest where
  before : ∀ x ∈ r.body, ∀ y ∈ r.body, r.ReadsFrom x y → Before r.body y x

theorem Region.WellFormed.ordered {r : Region} (wf : r.WellFormed) : r.Ordered :=
  ⟨wf.toNested.forest, fun _ hx _ hy => wf.sound.before_of_readsFrom hx hy⟩

/-- What makes levels a schedule of a region: exactly the scheduled nodes of the body have one,
edges go down and forward, every level is followed by the next lower one, and no node reads
from a lower level, be it through nodes that are not scheduled. -/
structure Region.Schedule (r : Region) (level : NodeId → Option Nat) : Prop where
  leveled : ∀ n, (level n).isSome = true ↔ n ∈ r.body ∧ r.isDataflow n = true
  positive : ∀ n l, level n = some l → 1 ≤ l
  descends : ∀ n l, level n = some (l + 1) → 1 ≤ l →
    ∃ x, Before r.body n x ∧ level x = some l
  reach : ∃ reach : NodeId → Nat, (∀ n l, level n = some l → reach n = l) ∧
    ∀ x ∈ r.body, ∀ y ∈ r.body, r.ReadsFrom x y → reach x ≤ reach y

theorem le_foldl_max {ns : List Nat} {start : Nat} :
    start ≤ ns.foldl max start ∧ ∀ n ∈ ns, n ≤ ns.foldl max start := by
  induction ns generalizing start with
  | nil => simp
  | cons n ns ih =>
    obtain ⟨low, all⟩ := @ih (max start n)
    refine ⟨(Nat.le_max_left _ _).trans low, fun m hm => ?_⟩
    rcases List.mem_cons.mp hm with rfl | hm
    · exact (Nat.le_max_right _ _).trans low
    · exact all m hm

theorem foldl_max_mem {ns : List Nat} {start : Nat} :
    ns.foldl max start = start ∨ ns.foldl max start ∈ ns := by
  induction ns generalizing start with
  | nil => exact Or.inl rfl
  | cons n ns ih =>
    rcases @ih (max start n) with h | h
    · rcases max_choice start n with he | he
      · exact Or.inl (by simpa [he] using h)
      · exact Or.inr (List.mem_cons.mpr (Or.inl (by simpa [he] using h)))
    · exact Or.inr (List.mem_cons_of_mem _ h)

theorem le_maxOf {ns : List Nat} {n : Nat} (h : n ∈ ns) : n ≤ maxOf ns :=
  le_foldl_max.2 n h

theorem maxOf_mem {ns : List Nat} : maxOf ns = 0 ∨ maxOf ns ∈ ns :=
  foldl_max_mem

theorem Ascent.deepest_spec {a : Ascent} {edges : List Edge} {deepest : Nat}
    (h : a.deepest edges = .ok deepest) :
    (∀ e ∈ edges, ∃ l, a.levels.get? e.consumer = some l ∧ l ≤ deepest) ∧
      (deepest = 0 ∨ ∃ e ∈ edges, a.levels.get? e.consumer = some deepest) := by
  induction edges generalizing deepest with
  | nil =>
    cases h
    simp
  | cons e edges ih =>
    unfold Ascent.deepest at h
    split at h
    next level hl =>
      cases hd : a.deepest edges with
      | error n => simp [hd, Except.map] at h
      | ok d =>
        simp only [hd, Except.map, Except.ok.injEq] at h
        obtain ⟨all, attained⟩ := ih hd
        have hmax : max level d = deepest := h
        refine ⟨fun e' he' => ?_, Or.inr ?_⟩
        · rcases List.mem_cons.mp he' with rfl | he'
          · exact ⟨level, hl, by omega⟩
          · obtain ⟨l, hl', hle⟩ := all e' he'
            exact ⟨l, hl', by omega⟩
        · rcases max_choice level d with he | he
          · exact ⟨e, by simp, by rw [hl]; exact congrArg some (by omega)⟩
          · rcases attained with rfl | ⟨e', he', hl'⟩
            · exact ⟨e, by simp, by rw [hl]; exact congrArg some (by omega)⟩
            · exact ⟨e', by simp [he'], by rw [hl']; exact congrArg some (by omega)⟩
    next => simp at h

/-- What the walk up a body has established about the nodes behind it. -/
structure Ascent.Settled (r : Region) (g : DepGraph) (behind : List NodeId) (a : Ascent) :
    Prop where
  leveled : ∀ n, (a.levels.get? n).isSome = true ↔ n ∈ behind ∧ r.isDataflow n = true
  floored : ∀ n, (a.floors.get? n).isSome = true ↔ n ∈ behind ∧ r.isDataflow n = false
  positive : ∀ n l, a.levels.get? n = some l → 1 ≤ l
  descends : ∀ n l, a.levels.get? n = some (l + 1) → 1 ≤ l →
    ∃ x, Before behind n x ∧ a.levels.get? x = some l
  supported : ∀ n f, a.floors.get? n = some f → f = 0 ∨
    ∃ x, Before behind n x ∧ a.levels.get? x = some f
  reads : ∀ x ∈ behind, ∀ y ∈ behind, r.ReadsFrom x y → a.reach x ≤ a.reach y
  edges : ∀ n l, a.levels.get? n = some l → ∀ e ∈ g.from n,
    ∃ lower, a.levels.get? e.consumer = some lower ∧ lower < l ∧ Before behind n e.consumer

theorem Ascent.settled_start (r : Region) (g : DepGraph) : Ascent.start.Settled r g [] := by
  constructor <;> simp [start, Levels.empty, Levels.get?, Table.get?]

theorem Ascent.Settled.reach_pos {r : Region} {g : DepGraph} {behind : List NodeId} {a : Ascent}
    (h : a.Settled r g behind) {n : NodeId} (pos : 0 < a.reach n) :
    ∃ x, (x = n ∨ Before behind n x) ∧ a.levels.get? x = some (a.reach n) ∧ n ∈ behind := by
  unfold reach at pos ⊢
  cases hl : a.levels.get? n with
  | some l =>
    exact ⟨n, Or.inl rfl, by simp [hl], ((h.leveled n).mp (by simp [hl])).1⟩
  | none =>
    cases hf : a.floors.get? n with
    | none => simp [hl, hf] at pos
    | some f =>
      simp only [hl, hf, Option.none_or, Option.getD_some] at pos ⊢
      rcases h.supported n f hf with rfl | ⟨x, hx, hlx⟩
      · omega
      · exact ⟨x, Or.inr hx, hlx, hx.mem_left⟩

theorem Ascent.Settled.floor_spec {r : Region} {g : DepGraph} {behind : List NodeId} {a : Ascent}
    (h : a.Settled r g behind) (forest : r.Forest) {n : NodeId} (new : n ∉ behind)
    (sub : ∀ x ∈ behind, x ∈ r.body) :
    (∀ x ∈ behind, r.ReadsFrom x n → a.reach x ≤ a.floor r r.uses n) ∧
      (a.floor r r.uses n = 0 ∨ ∃ x ∈ behind, a.levels.get? x = some (a.floor r r.uses n)) := by
  unfold floor
  constructor
  · rintro x hx ⟨v, hm, hv⟩
    refine le_maxOf (List.mem_map.mpr ⟨x, List.mem_filter.mpr ⟨?_, ?_⟩, rfl⟩)
    · exact List.mem_flatMap.mpr ⟨v, hv, forest.mem_topUsersOf.mpr ⟨sub x hx, hm⟩⟩
    · have ne : x ≠ n := by
        rintro rfl
        exact new hx
      simpa using ne
  · refine (Nat.eq_zero_or_pos _).imp_right fun pos => ?_
    obtain ⟨x, _, he⟩ := List.mem_map.mp (maxOf_mem.resolve_left (Nat.ne_of_gt pos))
    rw [← he] at pos ⊢
    obtain ⟨y, hy, hl, hx⟩ := h.reach_pos pos
    rcases hy with rfl | hy
    · exact ⟨y, hx, hl⟩
    · exact ⟨y, hy.mem_right, hl⟩

/-- Further up, a node reads from those that reach no less if nodes behind reach as far as
before. -/
theorem Ascent.Settled.reads_cons {r : Region} {g : DepGraph} {behind : List NodeId}
    {a a' : Ascent} {n : NodeId} (h : a.Settled r g behind) (ordered : r.Ordered)
    (sub : ∀ x ∈ n :: behind, x ∈ r.body) (order : ∀ x ∈ behind, Before r.body n x)
    (old : ∀ x ∈ behind, a'.reach x = a.reach x)
    (below : ∀ x ∈ behind, r.ReadsFrom x n → a.reach x ≤ a'.reach n) :
    ∀ x ∈ n :: behind, ∀ y ∈ n :: behind, r.ReadsFrom x y → a'.reach x ≤ a'.reach y := by
  intro x hx y hy hxy
  rcases List.mem_cons.mp hx with rfl | low
  · have back := ordered.before x (sub x (by simp)) y (sub y hy) hxy
    rcases List.mem_cons.mp hy with rfl | hy
    · exact le_rfl
    · exact absurd back ((order y hy).asymm ordered.bodyNodup)
  · rcases List.mem_cons.mp hy with rfl | hy
    · rw [old x low]
      exact below x low hxy
    · rw [old x low, old y hy]
      exact h.reads x low y hy hxy

theorem Region.mem_cons_of_isDataflow {r : Region} {behind : List NodeId} {m n : NodeId}
    {scheduled : Bool} (other : r.isDataflow n ≠ scheduled) :
    m ∈ n :: behind ∧ r.isDataflow m = scheduled ↔ m ∈ behind ∧ r.isDataflow m = scheduled := by
  rw [List.mem_cons]
  constructor
  · rintro ⟨rfl | hm, hd⟩
    · exact absurd hd other
    · exact ⟨hm, hd⟩
  · exact fun hm => ⟨Or.inr hm.1, hm.2⟩

/-- A node that is not scheduled passes on what its results reach. -/
theorem Ascent.Settled.pass {r : Region} {g : DepGraph} {behind : List NodeId} {a : Ascent}
    {n : NodeId} (h : a.Settled r g behind) (ordered : r.Ordered) (new : n ∉ behind)
    (sub : ∀ x ∈ n :: behind, x ∈ r.body) (order : ∀ x ∈ behind, Before r.body n x)
    (hd : r.isDataflow n = false) :
    Ascent.Settled r g (n :: behind)
      { a with floors := a.floors.put n (a.floor r r.uses n) } := by
  obtain ⟨below, attained⟩ := h.floor_spec ordered.toForest new fun x hx => sub x (by simp [hx])
  have unleveled : a.levels.get? n = none := by
    simpa [hd] using (h.leveled n).not
  have later : ∀ {x y}, Before behind x y → Before (n :: behind) x y :=
    fun hb => before_cons.mpr (Or.inr hb)
  have old : ∀ x ∈ behind, Ascent.reach { a with floors := a.floors.put n (a.floor r r.uses n) } x =
      a.reach x := by
    intro x hx
    have ne : x ≠ n := by
      rintro rfl
      exact new hx
    simp [reach, Table.get?_put, ne]
  have own : Ascent.reach { a with floors := a.floors.put n (a.floor r r.uses n) } n =
      a.floor r r.uses n := by
    simp [reach, Table.get?_put, unleveled]
  constructor
  case leveled =>
    intro m
    rw [h.leveled m, Region.mem_cons_of_isDataflow (by simp [hd])]
  case floored =>
    intro m
    rw [Table.get?_put, List.mem_cons]
    by_cases hm : m = n
    · subst hm
      simp [hd]
    · simp [hm, h.floored m]
  case positive => exact h.positive
  case descends =>
    intro m l hl pos
    obtain ⟨x, hx, hlx⟩ := h.descends m l hl pos
    exact ⟨x, later hx, hlx⟩
  case supported =>
    intro m f hf
    rw [Table.get?_put] at hf
    split at hf
    next hm =>
      cases hf
      subst hm
      rcases attained with zero | ⟨x, hx, hlx⟩
      · exact Or.inl zero
      · exact Or.inr ⟨x, before_cons.mpr (Or.inl ⟨rfl, hx⟩), hlx⟩
    next =>
      rcases h.supported m f hf with zero | ⟨x, hx, hlx⟩
      · exact Or.inl zero
      · exact Or.inr ⟨x, later hx, hlx⟩
  case reads =>
    refine h.reads_cons ordered sub order old fun x hx hxy => ?_
    rw [own]
    exact below x hx hxy
  case edges =>
    intro m l hl e he
    obtain ⟨lower, hlower, hlt, hb⟩ := h.edges m l hl e he
    exact ⟨lower, hlower, hlt, later hb⟩

/-- The level above the consumers of a node and not below what its results reach is the lowest,
or some node behind has the one under it. -/
theorem Ascent.Settled.exists_under {r : Region} {g : DepGraph} {behind : List NodeId}
    {a : Ascent} {n : NodeId} {deepest l : Nat} (h : a.Settled r g behind) (ordered : r.Ordered)
    (new : n ∉ behind) (sub : ∀ x ∈ n :: behind, x ∈ r.body)
    (hdeep : a.deepest (g.from n) = .ok deepest)
    (hl : Nat.max (deepest + 1) (a.floor r r.uses n) = l + 1) (pos : 1 ≤ l) :
    ∃ x, a.levels.get? x = some l := by
  obtain ⟨_, attained⟩ := h.floor_spec ordered.toForest new fun x hx => sub x (by simp [hx])
  rcases max_choice (deepest + 1) (a.floor r r.uses n) with choice | choice
  · have eq : deepest = l := Nat.succ.inj (choice.symm.trans hl)
    rcases (Ascent.deepest_spec hdeep).2 with zero | ⟨e, _, hle⟩
    · omega
    · exact ⟨e.consumer, by rw [hle, eq]⟩
  · have eq : a.floor r r.uses n = l + 1 := choice.symm.trans hl
    rcases attained with zero | ⟨x, _, hlx⟩
    · omega
    · obtain ⟨y, _, hly⟩ := h.descends x l (by rw [hlx, eq]) pos
      exact ⟨y, hly⟩

/-- A scheduled node goes above its consumers, and not below what its results reach. -/
theorem Ascent.Settled.raise {r : Region} {g : DepGraph} {behind : List NodeId} {a : Ascent}
    {n : NodeId} {deepest : Nat} (h : a.Settled r g behind) (ordered : r.Ordered) (new : n ∉ behind)
    (sub : ∀ x ∈ n :: behind, x ∈ r.body) (order : ∀ x ∈ behind, Before r.body n x)
    (hd : r.isDataflow n = true) (hdeep : a.deepest (g.from n) = .ok deepest) :
    Ascent.Settled r g (n :: behind)
      { a with levels := a.levels.set n (Nat.max (deepest + 1) (a.floor r r.uses n)) } := by
  obtain ⟨below, _⟩ := h.floor_spec ordered.toForest new fun x hx => sub x (by simp [hx])
  obtain ⟨consumers, _⟩ := Ascent.deepest_spec hdeep
  generalize hlevel : Nat.max (deepest + 1) (a.floor r r.uses n) = level
  have above : deepest + 1 ≤ level := hlevel ▸ Nat.le_max_left _ _
  have aboveFloor : a.floor r r.uses n ≤ level := hlevel ▸ Nat.le_max_right _ _
  have get : ∀ m, (a.levels.set n level).get? m = if m = n then some level else a.levels.get? m :=
    fun m => Table.get?_put _ _ _ _
  have keep : ∀ x l, a.levels.get? x = some l → (a.levels.set n level).get? x = some l := by
    intro x l hl
    have hx := ((h.leveled x).mp (by simp [hl])).1
    have ne : x ≠ n := by
      rintro rfl
      exact new hx
    rw [get, if_neg ne, hl]
  have later : ∀ {x y}, Before behind x y → Before (n :: behind) x y :=
    fun hb => before_cons.mpr (Or.inr hb)
  have first : ∀ x l, a.levels.get? x = some l → Before (n :: behind) n x := fun x l hl =>
    before_cons.mpr (Or.inl ⟨rfl, ((h.leveled x).mp (by simp [hl])).1⟩)
  have old : ∀ x ∈ behind, Ascent.reach { a with levels := a.levels.set n level } x =
      a.reach x := by
    intro x hx
    have ne : x ≠ n := by
      rintro rfl
      exact new hx
    simp [reach, get, ne]
  have own : Ascent.reach { a with levels := a.levels.set n level } n = level := by
    simp [reach, get]
  constructor
  case leveled =>
    intro m
    rw [get, List.mem_cons]
    by_cases hm : m = n
    · subst hm
      simp [hd]
    · simp [hm, h.leveled m]
  case floored =>
    intro m
    rw [h.floored m, Region.mem_cons_of_isDataflow (by simp [hd])]
  case positive =>
    intro m l hl
    rw [get] at hl
    split at hl
    next => cases hl; omega
    next => exact h.positive m l hl
  case descends =>
    intro m l hl pos
    rw [get] at hl
    split at hl
    next hm =>
      subst hm
      obtain ⟨x, hlx⟩ :=
        h.exists_under ordered new sub hdeep (hlevel.trans (Option.some.inj hl)) pos
      exact ⟨x, first x l hlx, keep x l hlx⟩
    next =>
      obtain ⟨x, hx, hlx⟩ := h.descends m l hl pos
      exact ⟨x, later hx, keep x l hlx⟩
  case supported =>
    intro m f hf
    obtain zero | ⟨x, hx, hlx⟩ := h.supported m f hf
    · exact Or.inl zero
    · exact Or.inr ⟨x, later hx, keep x f hlx⟩
  case reads =>
    refine h.reads_cons ordered sub order old fun x hx hxy => ?_
    rw [own]
    exact (below x hx hxy).trans aboveFloor
  case edges =>
    intro m l hl e he
    rw [get] at hl
    split at hl
    next hm =>
      cases hl
      subst hm
      obtain ⟨lower, hlower, hle⟩ := consumers e he
      exact ⟨lower, keep _ _ hlower, by omega, first _ _ hlower⟩
    next =>
      obtain ⟨lower, hlower, hlt, hb⟩ := h.edges m l hl e he
      exact ⟨lower, keep _ _ hlower, hlt, later hb⟩

section Ascent

variable {r : Region} {g : DepGraph} {uses : Uses} {backward : Nat} {behind : List NodeId}
  {a a' : Ascent} {n : NodeId}

/-- A step gives a scheduled node a level above those of its consumers, and any other node a
floor. -/
theorem Ascent.step_cases (h : Ascent.step r g uses backward a n = .ok a') :
    (r.isDataflow n = true ∧ ∃ deepest, a.deepest (g.from n) = .ok deepest ∧
      a' = { a with levels := a.levels.set n (Nat.max (deepest + 1) (a.floor r uses n)) }) ∨
    r.isDataflow n = false ∧ a' = { a with floors := a.floors.put n (a.floor r uses n) } := by
  unfold Ascent.step at h
  by_cases flow : r.isDataflow n = true
  · rw [if_pos flow] at h
    split at h
    next deepest hdeep =>
      cases h
      exact Or.inl ⟨flow, deepest, hdeep, rfl⟩
    next => cases h
  · rw [if_neg flow] at h
    cases h
    exact Or.inr ⟨by simpa using flow, rfl⟩

theorem Ascent.foldlM_cons_reverse (start : Ascent) (n : NodeId) (behind : List NodeId) :
    (n :: behind).reverse.foldlM (Ascent.step r g uses backward) start =
      behind.reverse.foldlM (Ascent.step r g uses backward) start >>= fun low =>
        Ascent.step r g uses backward low n := by
  simp [List.foldlM_append]

/-- What holds once a walk up a body has come as far as `behind`, by the steps that it takes. -/
theorem Ascent.foldlM_induction {P : List NodeId → Ascent → Prop} (start : P [] .start)
    (step : ∀ n behind low a,
      behind.reverse.foldlM (Ascent.step r g uses backward) .start = .ok low → P behind low →
      Ascent.step r g uses backward low n = .ok a → P (n :: behind) a)
    (h : behind.reverse.foldlM (Ascent.step r g uses backward) .start = .ok a) : P behind a := by
  induction behind generalizing a with
  | nil =>
    cases h
    exact start
  | cons n behind ih =>
    rw [foldlM_cons_reverse] at h
    cases hfold : behind.reverse.foldlM (Ascent.step r g uses backward) .start with
    | error => simp [hfold, bind, Except.bind] at h
    | ok low =>
      rw [hfold] at h
      exact step n behind low a hfold (ih hfold) h

theorem Ascent.settled_of_foldlM (ordered : r.Ordered) {earlier : List NodeId}
    (hb : r.body = earlier ++ behind)
    (h : behind.reverse.foldlM (Ascent.step r g r.uses backward) .start = .ok a) :
    a.Settled r g behind := by
  refine foldlM_induction (P := fun behind a => ∀ earlier, r.body = earlier ++ behind →
    a.Settled r g behind) (fun _ _ => settled_start r g) ?_ h earlier hb
  intro n behind low a _ before hstep earlier hb
  have settled := before (earlier ++ [n]) (by simpa using hb)
  have sub : ∀ x ∈ n :: behind, x ∈ r.body := fun x hx => by
    rw [hb]
    exact List.mem_append_right _ hx
  have order : ∀ x ∈ behind, Before r.body n x := fun x hx =>
    before_iff_append.mpr ⟨earlier, behind, hb, hx⟩
  have new : n ∉ behind := fun hn => (order n hn).ne ordered.bodyNodup rfl
  rcases step_cases hstep with ⟨flow, deepest, hdeep, rfl⟩ | ⟨flow, rfl⟩
  · exact settled.raise ordered new sub order flow hdeep
  · exact settled.pass ordered new sub order flow

/-- Levels that are found are those of a walk up the whole body. -/
theorem Region.foldlM_of_levels {levels : Levels} (h : r.levels g = .ok levels) :
    ∃ a, r.body.reverse.foldlM (Ascent.step r g r.uses (g.backward r.uses).length) .start = .ok a ∧
      a.levels = levels := by
  unfold Region.levels at h
  simp only at h
  cases hfold : r.body.reverse.foldlM
      (Ascent.step r g r.uses (g.backward r.uses).length) .start with
  | error => simp [hfold, Except.map] at h
  | ok a =>
    simp only [hfold, Except.map, Except.ok.injEq] at h
    exact ⟨a, rfl, h⟩

end Ascent

/-- Levels that are found make a schedule, in which edges go down and forward. -/
theorem Region.levels_spec {r : Region} {g : DepGraph} {levels : Levels} (ordered : r.Ordered)
    (h : r.levels g = .ok levels) :
    r.Schedule levels.get? ∧ ∀ n l, levels.get? n = some l → ∀ e ∈ g.from n,
      ∃ lower, levels.get? e.consumer = some lower ∧ lower < l ∧ Before r.body n e.consumer := by
  obtain ⟨a, hfold, rfl⟩ := foldlM_of_levels h
  have settled := Ascent.settled_of_foldlM ordered (List.nil_append r.body).symm hfold
  refine ⟨⟨settled.leveled, settled.positive, settled.descends, a.reach, ?_, settled.reads⟩,
    settled.edges⟩
  intro n l hl
  simp [Ascent.reach, hl]

/-- From a level, all lower ones follow. -/
theorem Region.Schedule.descends_to {r : Region} {level : NodeId → Option Nat}
    (h : r.Schedule level) (nodup : r.body.Nodup) {n : NodeId} {upper lower : Nat}
    (hn : level n = some upper) (pos : 1 ≤ lower) (hlt : lower < upper) :
    ∃ x, Before r.body n x ∧ level x = some lower := by
  induction upper generalizing n with
  | zero => omega
  | succ upper ih =>
    obtain ⟨x, hx, hl⟩ := h.descends n upper hn (by omega)
    rcases Nat.lt_or_ge lower upper with hlow | hlow
    · obtain ⟨y, hy, hly⟩ := ih hl hlow
      exact ⟨y, hx.trans nodup hy, hly⟩
    · obtain rfl : lower = upper := by omega
      exact ⟨x, hx, hl⟩

/-- Different nodes of a region are different entries of its array. -/
theorem Region.length_le_of_nodup {r : Region} {ns : List NodeId} (nodup : ns.Nodup)
    (known : ∀ n ∈ ns, n.index < r.nodes.size) : ns.length ≤ r.nodes.size := by
  have sub : ns.map NodeId.index ⊆ List.range r.nodes.size := by
    intro i hi
    obtain ⟨n, hn, rfl⟩ := List.mem_map.mp hi
    exact List.mem_range.mpr (known n hn)
  have indices : (ns.map NodeId.index).Nodup := nodup.map fun _ _ same => NodeId.ext same
  simpa using (indices.subperm sub).length_le

/-- Where all lower levels come with a level, there are as many nodes. -/
theorem le_length_of_descends {ns : List NodeId} {level : NodeId → Option Nat} {n : NodeId}
    {top : Nat} (hn : n ∈ ns) (hl : level n = some top)
    (lower : ∀ l, 1 ≤ l → l < top → ∃ x ∈ ns, level x = some l) : top ≤ ns.length := by
  have sub : List.range' 1 top ⊆ ns.filterMap level := by
    intro l hl'
    obtain ⟨pos, low⟩ := List.mem_range'_1.mp hl'
    rcases Nat.lt_or_ge l top with below | above
    · obtain ⟨x, hx, found⟩ := lower l pos below
      exact List.mem_filterMap.mpr ⟨x, hx, found⟩
    · obtain rfl : l = top := by omega
      exact List.mem_filterMap.mpr ⟨n, hn, hl⟩
  have distinct : (List.range' 1 top).Nodup := List.nodup_range'
  have count := (distinct.subperm sub).length_le
  rw [List.length_range'] at count
  exact count.trans (List.length_filterMap_le _ _)

theorem Region.levels_nodup {r : Region} {g : DepGraph} {levels : Levels}
    (h : r.levels g = .ok levels) : (levels.entries.map Prod.fst).Nodup := by
  obtain ⟨a, hfold, rfl⟩ := foldlM_of_levels h
  refine Ascent.foldlM_induction (P := fun _ a => (a.levels.entries.map Prod.fst).Nodup)
    List.nodup_nil ?_ hfold
  intro n _ low a _ nodup hstep
  rcases Ascent.step_cases hstep with ⟨-, deepest, -, rfl⟩ | ⟨-, rfl⟩
  · exact Table.keys_update_nodup nodup _ _
  · exact nodup

end Staging
