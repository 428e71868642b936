import Staging.Proofs.Index

namespace Staging

/-- The dependences of a region, by what the nodes of its body write, read and mention. -/
inductive Region.Feeds (r : Region) : NodeId → Carrier → NodeId → Prop
  /-- A loop writes what another loop only reads. -/
  | loop {p c : NodeId} {mem : ValueId} (hp : p ∈ r.body) (hc : c ∈ r.body)
      (loopP : r.isLoop p = true) (loopC : r.isLoop c = true) (ne : c ≠ p)
      (writes : r.Touches p mem .write) (reads : r.Touches c mem .read)
      (keeps : ¬ r.Touches c mem .write) : Feeds r p (.memory mem) c
  /-- A loop writes what a later array copy copies. -/
  | copyOut {p c : NodeId} {mem : ValueId} (loopP : r.isLoop p = true)
      (writes : r.Touches p mem .write) (copies : r.copiesOut mem c = true)
      (later : Before r.body p c) : Feeds r p (.memory mem) c
  /-- A later node mentions the target of an array copy. -/
  | copyIn {p c : NodeId} {mem : ValueId} (target : r.copyTarget? p = some mem)
      (scheduled : r.isDataflow c = true) (mentions : r.Mentions c mem)
      (later : Before r.body p c) : Feeds r p (.memory mem) c
  /-- A node mentions an array that is a result of another one. -/
  | result {p c : NodeId} {v : ValueId} (hp : p ∈ r.body) (hc : c ∈ r.body)
      (scheduledP : r.isDataflow p = true) (noLoop : r.isLoop p = false) (ne : c ≠ p)
      (results : v ∈ r.results p) (shaped : r.isShaped v = true)
      (scheduled : r.isDataflow c = true) (mentions : r.Mentions c v) : Feeds r p (.value v) c

theorem Region.isLoop_of_copyTarget? {r : Region} {n : NodeId} {mem : ValueId}
    (h : r.copyTarget? n = some mem) : r.isLoop n = false ∧ r.isDataflow n = true := by
  unfold copyTarget? at h
  unfold isLoop isDataflow
  split at h
  next hk _ => simp [hk, NodeKind.isLoop, NodeKind.isDataflow]
  next => simp at h

theorem Region.copiesOut_iff {r : Region} {n : NodeId} {mem : ValueId} :
    r.copiesOut mem n = true ↔
      r.kind? n = some .copy ∧ ∃ target, r.operands n = [mem, target] := by
  unfold copiesOut
  split
  next source target hk ho => simp [hk, ho]
  next h =>
    simp only [Bool.false_eq_true, false_iff, not_and, not_exists]
    exact fun hk target ho => h mem target hk ho

theorem Region.copyTarget?_iff {r : Region} {n : NodeId} {mem : ValueId} :
    r.copyTarget? n = some mem ↔
      r.kind? n = some .copy ∧ ∃ source, r.operands n = [source, mem] := by
  unfold copyTarget?
  split
  next source target hk ho => simp [hk, ho]
  next h =>
    simp only [reduceCtorEq, false_iff, not_and, not_exists]
    exact fun hk source ho => h source mem hk ho

theorem Region.isDataflow_of_copiesOut {r : Region} {n : NodeId} {mem : ValueId}
    (h : r.copiesOut mem n = true) : r.isDataflow n = true := by
  simp [isDataflow, (copiesOut_iff.mp h).1, NodeKind.isDataflow]

theorem Region.mentions_of_copiesOut {r : Region} {n : NodeId} {mem : ValueId}
    (h : r.copiesOut mem n = true) : r.Mentions n mem := by
  obtain ⟨_, target, ho⟩ := copiesOut_iff.mp h
  exact mentions_of_operand (by simp [ho])

theorem Region.mentions_of_copyTarget? {r : Region} {n : NodeId} {mem : ValueId}
    (h : r.copyTarget? n = some mem) : r.Mentions n mem := by
  obtain ⟨_, source, ho⟩ := copyTarget?_iff.mp h
  exact mentions_of_operand (by simp [ho])

theorem Region.mem_operands_of_touched {r : Region} {n : NodeId} {mem : ValueId}
    {kind : AccessKind} (h : (mem, kind) ∈ r.touched n) : mem ∈ r.operands n := by
  unfold touched at h
  split at h
  next ho => simp_all
  next ho => simp_all
  next ho =>
    simp only [List.mem_cons, Prod.mk.injEq, List.not_mem_nil, or_false] at h
    rcases h with ⟨rfl, _⟩ | ⟨rfl, _⟩ <;> simp [ho]
  next => simp at h

theorem Region.Touches.mentions {r : Region} {t : NodeId} {mem : ValueId} {kind : AccessKind}
    (h : r.Touches t mem kind) : r.Mentions t mem := by
  obtain ⟨n, hw, ht⟩ := h
  exact ⟨n, hw, mem_operands_of_touched ht⟩

theorem Region.Feeds.mem_left {r : Region} {p c : NodeId} {carrier : Carrier}
    (h : r.Feeds p carrier c) : p ∈ r.body := by
  cases h with
  | loop hp => exact hp
  | copyOut _ _ _ later => exact later.mem_left
  | copyIn _ _ _ later => exact later.mem_left
  | result hp => exact hp

theorem Region.Feeds.mem_right {r : Region} {p c : NodeId} {carrier : Carrier}
    (h : r.Feeds p carrier c) : c ∈ r.body := by
  cases h with
  | loop _ hc => exact hc
  | copyOut _ _ _ later => exact later.mem_right
  | copyIn _ _ _ later => exact later.mem_right
  | result _ hc => exact hc

theorem Region.Feeds.isDataflow_left {r : Region} {p c : NodeId} {carrier : Carrier}
    (h : r.Feeds p carrier c) : r.isDataflow p = true := by
  cases h with
  | loop _ _ loopP => exact isDataflow_of_isLoop loopP
  | copyOut loopP => exact isDataflow_of_isLoop loopP
  | copyIn target => exact (isLoop_of_copyTarget? target).2
  | result _ _ scheduledP => exact scheduledP

theorem Region.Feeds.isDataflow_right {r : Region} {p c : NodeId} {carrier : Carrier}
    (h : r.Feeds p carrier c) : r.isDataflow c = true := by
  cases h with
  | loop _ _ _ loopC => exact isDataflow_of_isLoop loopC
  | copyOut _ _ copies => exact isDataflow_of_copiesOut copies
  | copyIn _ scheduled => exact scheduled
  | result _ _ _ _ _ _ _ scheduled => exact scheduled

theorem Region.Feeds.mentions {r : Region} {p c : NodeId} {carrier : Carrier}
    (h : r.Feeds p carrier c) : r.Mentions c carrier.id := by
  cases h with
  | loop _ _ _ _ _ _ reads => exact reads.mentions
  | copyOut _ _ copies => exact mentions_of_copiesOut copies
  | copyIn _ _ mentions => exact mentions
  | result _ _ _ _ _ _ _ _ mentions => exact mentions

/-- A producer mentions what it writes, or has it as a result. -/
theorem Region.Feeds.offers {r : Region} {p c : NodeId} {carrier : Carrier}
    (h : r.Feeds p carrier c) : r.Mentions p carrier.id ∨ carrier.id ∈ r.results p := by
  cases h with
  | loop _ _ _ _ _ writes => exact Or.inl writes.mentions
  | copyOut _ writes => exact Or.inl writes.mentions
  | copyIn target => exact Or.inl (mentions_of_copyTarget? target)
  | result _ _ _ _ _ results => exact Or.inr results

theorem Region.Feeds.ne {r : Region} (nested : r.Nested) {p c : NodeId} {carrier : Carrier}
    (h : r.Feeds p carrier c) : c ≠ p := by
  cases h with
  | loop _ _ _ _ ne => exact ne
  | copyOut _ _ _ later => exact (later.ne nested.bodyNodup).symm
  | copyIn _ _ _ later => exact (later.ne nested.bodyNodup).symm
  | result _ _ _ _ ne => exact ne

/-- What leads from one node of the body to another is visible to both. -/
theorem Region.WellFormed.carrier_visible {r : Region} (wf : r.WellFormed) {p c : NodeId}
    {carrier : Carrier} (h : r.Feeds p carrier c) :
    carrier.id ∈ r.args ∨ ∃ y, Before r.body y c ∧ carrier.id ∈ r.results y := by
  rcases wf.sound.mention_cases h.mem_right h.mentions with harg | hres | ⟨n, hn, hd⟩
  · exact Or.inl harg
  · exact Or.inr hres
  · exfalso
    have apart : ¬ r.Within p n := fun hp =>
      h.ne wf.toNested (wf.sound.top_unique h.mem_right h.mem_left hn hp)
    have notTop : n ≠ c → n ∉ r.body := fun ne hb => ne (wf.sound.eq_of_within_body h.mem_right hb hn)
    have atResult : ∀ y ∈ r.body, carrier.id ∉ r.results y := by
      intro y hy hv
      rcases hd with ⟨ne, hres⟩ | hiv
      · obtain rfl := wf.sound.result_unique hres hv
        exact notTop ne hy
      · obtain ⟨i, hi⟩ := wf.sound.result_defined hv
        simp [wf.ivDefined n _ hiv] at hi
    rcases h.offers with hm | hres
    · rcases wf.sound.mention_cases h.mem_left hm with harg | ⟨y, hy, hv⟩ | ⟨m, hm, hd'⟩
      · obtain ⟨i, hi⟩ := wf.sound.arg_defined harg
        rcases hd with ⟨_, hres⟩ | hiv
        · obtain ⟨j, hj⟩ := wf.sound.result_defined hres
          simp [hi] at hj
        · simp [wf.ivDefined n _ hiv] at hi
      · exact atResult y hy.mem_left hv
      · have defined : ∀ k : NodeId, (k ≠ c ∧ carrier.id ∈ r.results k ∨ carrier.id ∈ r.ivs k) ∨
            (k ≠ p ∧ carrier.id ∈ r.results k ∨ carrier.id ∈ r.ivs k) →
            (r.definition? carrier.id).bind Definition.node? = some k := by
          rintro k ((⟨_, hres⟩ | hiv) | (⟨_, hres⟩ | hiv))
          · obtain ⟨i, hi⟩ := wf.sound.result_defined hres
            simp [hi, Definition.node?]
          · simp [wf.ivDefined k _ hiv, Definition.node?]
          · obtain ⟨i, hi⟩ := wf.sound.result_defined hres
            simp [hi, Definition.node?]
          · simp [wf.ivDefined k _ hiv, Definition.node?]
        have same := (defined n (Or.inl hd)).symm.trans (defined m (Or.inr hd'))
        cases same
        exact apart hm
    · exact atResult p h.mem_left hres

theorem Region.mem_edgesThrough {r : Region} (nested : r.Nested) {p : NodeId} {mem : ValueId}
    (hp : p ∈ r.body) (loopP : r.isLoop p = true) (writes : r.Touches p mem .write) {e : Edge} :
    e ∈ r.edgesThrough r.footprint r.uses p mem ↔
      e.carrier = .memory mem ∧ r.Feeds p (.memory mem) e.consumer := by
  have readers : ∀ c, c ∈ r.footprint.readersAfter p mem ↔
      c ∈ r.body ∧ r.isLoop c = true ∧ r.Touches c mem .read ∧ c ≠ p ∧
        ¬ r.Touches c mem .write := by
    intro c
    simp only [Footprint.readersAfter, List.mem_filter, nested.mem_readersOf, Bool.and_eq_true,
      decide_eq_true_eq, Bool.not_eq_true', List.contains_eq_mem, decide_eq_false_iff_not,
      nested.mem_writtenBy]
    tauto
  have copies : ∀ c, c ∈ (r.uses.topUsersOf mem).filter (fun user =>
      r.copiesOut mem user && isAfter (r.uses.position? user) (r.uses.position? p)) ↔
      r.copiesOut mem c = true ∧ Before r.body p c := by
    intro c
    rw [List.mem_filter, nested.forest.mem_topUsersOf, Bool.and_eq_true]
    constructor
    · rintro ⟨⟨hc, _⟩, hcopy, hafter⟩
      exact ⟨hcopy, (nested.forest.isAfter_iff hp hc).mp hafter⟩
    · rintro ⟨hcopy, hbefore⟩
      exact ⟨⟨hbefore.mem_right, mentions_of_copiesOut hcopy⟩, hcopy,
        (nested.forest.isAfter_iff hp hbefore.mem_right).mpr hbefore⟩
  obtain ⟨carrier, c⟩ := e
  unfold edgesThrough
  simp only [List.mem_map, List.mem_append, readers, copies, Edge.mk.injEq]
  constructor
  · rintro ⟨_, ⟨hc, loopC, reads, ne, keeps⟩ | ⟨hcopy, later⟩, rfl, rfl⟩
    · exact ⟨rfl, .loop hp hc loopP loopC ne writes reads keeps⟩
    · exact ⟨rfl, .copyOut loopP writes hcopy later⟩
  · rintro ⟨rfl, feeds⟩
    refine ⟨c, ?_, rfl, rfl⟩
    cases feeds with
    | loop _ hc _ loopC ne _ reads keeps => exact Or.inl ⟨hc, loopC, reads, ne, keeps⟩
    | copyOut _ _ hcopy later => exact Or.inr ⟨hcopy, later⟩
    | copyIn target => simp [(isLoop_of_copyTarget? target).1] at loopP

theorem Region.mem_edgesFromTarget {r : Region} (nested : r.Nested) {p : NodeId} {mem : ValueId}
    (hp : p ∈ r.body) {e : Edge} :
    e ∈ r.edgesFromTarget r.uses p mem ↔ e.carrier = .memory mem ∧
      r.isDataflow e.consumer = true ∧ r.Mentions e.consumer mem ∧
        Before r.body p e.consumer := by
  obtain ⟨carrier, c⟩ := e
  unfold edgesFromTarget
  simp only [List.mem_map, List.mem_filter, nested.forest.mem_topUsersOf, Bool.and_eq_true,
    decide_eq_true_eq, Edge.mk.injEq]
  constructor
  · rintro ⟨_, ⟨⟨hc, hm⟩, ⟨_, hafter⟩, hd⟩, rfl, rfl⟩
    exact ⟨rfl, hd, hm, (nested.forest.isAfter_iff hp hc).mp hafter⟩
  · rintro ⟨rfl, hd, hm, later⟩
    exact ⟨c, ⟨⟨later.mem_right, hm⟩, ⟨(later.ne nested.bodyNodup).symm,
      (nested.forest.isAfter_iff hp later.mem_right).mpr later⟩, hd⟩, rfl, rfl⟩

theorem Region.mem_edgesFromResult {r : Region} (nested : r.Nested) {p : NodeId} {v : ValueId}
    {e : Edge} : e ∈ r.edgesFromResult r.uses p v ↔ e.carrier = .value v ∧
      e.consumer ∈ r.body ∧ r.Mentions e.consumer v ∧ e.consumer ≠ p ∧
        r.isDataflow e.consumer = true := by
  obtain ⟨carrier, c⟩ := e
  unfold edgesFromResult
  simp only [List.mem_map, List.mem_filter, nested.forest.mem_topUsersOf, Bool.and_eq_true,
    decide_eq_true_eq, Edge.mk.injEq]
  constructor
  · rintro ⟨_, ⟨⟨hc, hm⟩, ne, hd⟩, rfl, rfl⟩
    exact ⟨rfl, hc, hm, ne, hd⟩
  · rintro ⟨rfl, hc, hm, ne, hd⟩
    exact ⟨c, ⟨⟨hc, hm⟩, ne, hd⟩, rfl, rfl⟩

theorem Region.mem_edgesFrom {r : Region} (nested : r.Nested) {p : NodeId} (hp : p ∈ r.body)
    {e : Edge} : e ∈ r.edgesFrom r.footprint r.uses p ↔ r.Feeds p e.carrier e.consumer := by
  unfold edgesFrom
  rw [List.mem_eraseDups]
  by_cases loopP : r.isLoop p = true
  · rw [if_pos loopP, List.mem_flatMap]
    constructor
    · rintro ⟨mem, hmem, he⟩
      have writes := (nested.mem_writtenBy.mp hmem).2.2
      obtain ⟨hcarrier, feeds⟩ := (mem_edgesThrough nested hp loopP writes).mp he
      rwa [hcarrier]
    · intro feeds
      have : ∃ mem, e.carrier = .memory mem ∧ r.Touches p mem .write := by
        revert feeds
        generalize e.carrier = carrier
        intro feeds
        cases feeds with
        | loop _ _ _ _ _ writes => exact ⟨_, rfl, writes⟩
        | copyOut _ writes => exact ⟨_, rfl, writes⟩
        | copyIn target => simp [(isLoop_of_copyTarget? target).1] at loopP
        | result _ _ _ noLoop => simp [noLoop] at loopP
      obtain ⟨mem, hcarrier, writes⟩ := this
      refine ⟨mem, nested.mem_writtenBy.mpr ⟨hp, loopP, writes⟩, ?_⟩
      exact (mem_edgesThrough nested hp loopP writes).mpr ⟨hcarrier, hcarrier ▸ feeds⟩
  · rw [if_neg loopP]
    have noLoop : r.isLoop p = false := by simpa using loopP
    by_cases hd : r.isDataflow p = true
    · rw [if_pos hd, List.mem_append, List.mem_flatMap, List.mem_flatMap]
      simp only [Option.mem_toList, mem_edgesFromTarget nested hp, List.mem_filter,
        mem_edgesFromResult nested]
      obtain ⟨carrier, c⟩ := e
      constructor
      · rintro (⟨mem, target, rfl, hdc, hm, later⟩ | ⟨v, ⟨hv, shaped⟩, rfl, hc, hm, ne, hdc⟩)
        · exact .copyIn target hdc hm later
        · exact .result hp hc hd noLoop ne hv shaped hdc hm
      · intro feeds
        cases feeds with
        | loop _ _ loopP' => simp [loopP'] at noLoop
        | copyOut loopP' => simp [loopP'] at noLoop
        | copyIn target hdc hm later => exact Or.inl ⟨_, target, rfl, hdc, hm, later⟩
        | result _ hc _ _ ne hv shaped hdc hm =>
          exact Or.inr ⟨_, ⟨hv, shaped⟩, rfl, hc, hm, ne, hdc⟩
    · rw [if_neg hd]
      refine iff_of_false (by simp) fun feeds => hd feeds.isDataflow_left

/-- The edges stand in the order of the body, those of one producer together. -/
theorem Region.deps_toList (r : Region) : r.deps.toList =
    r.body.eraseDups.flatMap fun n =>
      (r.edgesFrom r.footprint r.uses n).map fun edge => (n, edge) := by
  unfold deps depsWith DepGraph.toList
  induction r.body.eraseDups with
  | nil => rfl
  | cons n ns ih =>
    rw [List.flatMap_cons, ← ih]
    cases h : r.edgesFrom r.footprint r.uses n with
    | nil =>
      rw [List.filterMap_cons_none (by rw [h])]
      rfl
    | cons edge edges =>
      rw [List.filterMap_cons_some (b := (n, edge :: edges)) (by rw [h]), List.flatMap_cons]

/-- The successor graph holds exactly the dependences. -/
theorem Region.Nested.mem_deps {r : Region} (nested : r.Nested) {p : NodeId} {e : Edge} :
    (p, e) ∈ r.deps.toList ↔ r.Feeds p e.carrier e.consumer := by
  simp only [deps_toList, List.mem_flatMap, List.mem_eraseDups, List.mem_map, Prod.mk.injEq]
  constructor
  · rintro ⟨n, hn, e', he, rfl, rfl⟩
    exact (mem_edgesFrom nested hn).mp he
  · intro feeds
    exact ⟨p, feeds.mem_left, e, (mem_edgesFrom nested feeds.mem_left).mpr feeds, rfl, rfl⟩

theorem Table.get?_filterMap_pair {α β : Type} [DecidableEq α] {f : α → Option β} {key : α}
    (l : List α) : Table.get? (l.filterMap fun a => (f a).map fun b => (a, b)) key =
      if key ∈ l then f key else none := by
  induction l with
  | nil => rfl
  | cons a l ih =>
    cases hf : f a with
    | none =>
      rw [List.filterMap_cons_none (by simp [hf]), ih]
      by_cases h : key = a
      · subst h
        simp [hf]
      · simp [h]
    | some b =>
      have head : (a :: l).filterMap (fun a => (f a).map fun b => (a, b)) =
          (a, b) :: l.filterMap fun a => (f a).map fun b => (a, b) := by
        simp [hf]
      rw [head, get?, ih]
      by_cases h : key = a
      · subst h
        simp [hf]
      · simp [h, Ne.symm h]

theorem Region.deps_edges (r : Region) :
    r.deps.edges = r.body.eraseDups.filterMap fun n =>
      (if r.edgesFrom r.footprint r.uses n = [] then none
        else some (r.edgesFrom r.footprint r.uses n)).map fun edges => (n, edges) := by
  unfold deps depsWith
  refine List.filterMap_congr fun n _ => ?_
  cases r.edgesFrom r.footprint r.uses n <;> simp

theorem Region.from_deps (r : Region) (p : NodeId) :
    r.deps.from p = if p ∈ r.body then r.edgesFrom r.footprint r.uses p else [] := by
  let f (n : NodeId) : Option (List Edge) :=
    if r.edgesFrom r.footprint r.uses n = [] then none
    else some (r.edgesFrom r.footprint r.uses n)
  have shape : r.deps.edges = r.body.eraseDups.filterMap fun n => (f n).map fun b => (n, b) :=
    r.deps_edges
  have found : (f p).getD [] = r.edgesFrom r.footprint r.uses p := by
    by_cases none : r.edgesFrom r.footprint r.uses p = [] <;> simp [f, none]
  unfold DepGraph.from
  rw [shape, Table.get?_filterMap_pair]
  simp only [List.mem_eraseDups]
  by_cases hp : p ∈ r.body
  · rw [if_pos hp, if_pos hp, found]
  · simp [hp]

/-- The edges of a producer are those of the graph. -/
theorem Region.Nested.mem_from {r : Region} (nested : r.Nested) {p : NodeId} {e : Edge} :
    e ∈ r.deps.from p ↔ r.Feeds p e.carrier e.consumer := by
  rw [from_deps]
  by_cases hp : p ∈ r.body
  · rw [if_pos hp, mem_edgesFrom nested hp]
  · rw [if_neg hp]
    exact iff_of_false (by simp) fun feeds => hp feeds.mem_left

theorem nodup_eraseDups {α : Type} [DecidableEq α] (l : List α) : l.eraseDups.Nodup := by
  induction hn : l.length using Nat.strong_induction_on generalizing l with
  | h n ih =>
    cases l with
    | nil => simp
    | cons a l =>
      rw [List.eraseDups_cons]
      have short : (l.filter fun b => !b == a).length < n := by
        rw [← hn, List.length_cons]
        exact Nat.lt_succ_of_le (List.length_filter_le _ _)
      refine List.nodup_cons.mpr ⟨?_, ih _ short _ rfl⟩
      simp [List.mem_eraseDups]

theorem eraseDups_eq_self {α : Type} [DecidableEq α] {l : List α} (nodup : l.Nodup) :
    l.eraseDups = l := by
  induction l with
  | nil => rfl
  | cons a l ih =>
    obtain ⟨new, nodup⟩ := List.nodup_cons.mp nodup
    have others : (l.filter fun b => !b == a) = l :=
      List.filter_eq_self.mpr fun b hb => by
        have ne : b ≠ a := fun same => new (same ▸ hb)
        simpa using ne
    rw [List.eraseDups_cons, others, ih nodup]

/-- The edges of the graph are those of the nodes of the body, in its order. -/
theorem Region.Nested.deps_toList_eq {r : Region} (nested : r.Nested) :
    r.deps.toList = r.body.flatMap fun n => (r.deps.from n).map fun edge => (n, edge) := by
  rw [deps_toList, eraseDups_eq_self nested.bodyNodup]
  exact List.flatMap_congr fun n hn => by rw [r.from_deps, if_pos hn]

theorem Region.from_nodup (r : Region) (p : NodeId) : (r.deps.from p).Nodup := by
  rw [from_deps]
  split
  next => exact nodup_eraseDups _
  next => exact List.nodup_nil

end Staging
