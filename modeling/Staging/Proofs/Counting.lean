import Staging.Proofs.Absorbing
import Staging.Proofs.Relinking

namespace Staging

section Numbers

/-- Numbers that bound each other have the same maximum. -/
theorem maxOf_eq {ns ms : List Nat} (h : ∀ n ∈ ns, ∃ m ∈ ms, n ≤ m)
    (h' : ∀ m ∈ ms, ∃ n ∈ ns, m ≤ n) : maxOf ns = maxOf ms := by
  have half {ns ms : List Nat} (h : ∀ n ∈ ns, ∃ m ∈ ms, n ≤ m) : maxOf ns ≤ maxOf ms := by
    rcases @maxOf_mem ns with zero | found
    · rw [zero]
      exact Nat.zero_le _
    · obtain ⟨m, hm, hle⟩ := h _ found
      exact hle.trans (le_maxOf hm)
  exact le_antisymm (half h) (half h')

theorem maxOf_map {f : Nat → Nat} (mono : Monotone f) (zero : f 0 = 0) (ns : List Nat) :
    maxOf (ns.map f) = f (maxOf ns) := by
  have go (start : Nat) : (ns.map f).foldl max (f start) = f (ns.foldl max start) := by
    induction ns generalizing start with
    | nil => rfl
    | cons n ns ih => rw [List.map_cons, List.foldl_cons, List.foldl_cons, ← mono.map_max, ih]
  have h := go 0
  rwa [zero] at h

/-- Positive numbers that come with all lower ones are as many as the greatest of them says. -/
theorem length_eraseDups_eq_maxOf {ns : List Nat} (pos : ∀ n ∈ ns, 1 ≤ n)
    (down : ∀ n ∈ ns, ∀ k, 1 ≤ k → k ≤ n → k ∈ ns) : ns.eraseDups.length = maxOf ns := by
  have perm : ns.eraseDups.Perm (List.range' 1 (maxOf ns)) := by
    refine (List.perm_ext_iff_of_nodup (nodup_eraseDups ns) List.nodup_range').mpr fun k => ?_
    rw [List.mem_eraseDups, List.mem_range'_1]
    constructor
    · intro hk
      have := le_maxOf hk
      exact ⟨pos k hk, by omega⟩
    · rintro ⟨low, high⟩
      rcases @maxOf_mem ns with zero | found
      · omega
      · exact down _ found k low (by omega)
  rw [perm.length_eq, List.length_range']

theorem sum_map_ite {α : Type} (p : α → Bool) (f : α → Nat) (l : List α) :
    (l.map fun a => if p a then f a else 0).sum = ((l.filter p).map f).sum := by
  induction l with
  | nil => rfl
  | cons a l ih => cases h : p a <;> simp [h, ih]

end Numbers

/-- The number of stages that an edge skips. -/
def Levels.skipped (levels : Levels) (edge : NodeId × Edge) : Nat :=
  (levels.get? edge.1).getD 0 - 1 - (levels.get? edge.2.consumer).getD 0

section Edges

variable {r : Region} {o : Options} {levels : Levels} {plan : Plan}

/-- Over all edges of some kind from a node, as many stages are skipped as over those alone that
skip any. -/
theorem Levels.sum_skips {g : DepGraph} {n : NodeId}
    (leveled : ∀ e ∈ g.from n, ∃ lower, levels.get? e.consumer = some lower)
    (test : Carrier → Bool) :
    (((levels.skips g n).filter fun b => test b.carrier).map fun b => b.upper - b.lower).sum =
      ((((g.from n).map fun e => (n, e)).filter fun edge => test edge.2.carrier).map
        levels.skipped).sum := by
  unfold skips
  split
  next upper hu =>
    unfold skipping
    revert leveled
    induction g.from n with
    | nil => exact fun _ => rfl
    | cons e edges ih =>
      intro leveled
      obtain ⟨lower, hl⟩ := leveled e (by simp)
      have rest := ih fun e' he' => leveled e' (by simp [he'])
      have first : levels.skipped (n, e) = upper - lower := by simp [skipped, hu, hl]
      by_cases same : lower = upper <;> cases ht : test e.carrier <;>
        simp_all
  next unleveled =>
    have low : (levels.get? n).getD 0 - 1 = 0 := by
      cases hn : levels.get? n with
      | none => rfl
      | some level =>
        cases level with
        | zero => rfl
        | succ upper => exact (unleveled upper hn).elim
    have none : ∀ e ∈ g.from n, levels.skipped (n, e) = 0 := fun e _ => by simp [skipped, low]
    refine (List.sum_eq_zero fun skipped hs => ?_).symm
    simp only [List.mem_map, List.mem_filter] at hs
    obtain ⟨_, ⟨⟨e, he, rfl⟩, _⟩, rfl⟩ := hs
    exact none e he

/-- The stages that the edges of some kind skip, counted over all edges, are those that the
planned bypasses skip. -/
theorem Region.WellFormed.sum_bypasses (wf : r.WellFormed) (h : r.plan o = .ok plan)
    (test : Carrier → Bool) :
    ((plan.bypasses.edges.filter fun b => test b.carrier).map fun b => b.upper - b.lower).sum =
      ((r.deps.toList.filter fun edge => test edge.2.carrier).map plan.levels.skipped).sum := by
  obtain ⟨hl, hb, -⟩ := plan_eq_ok h
  have leveled (n : NodeId) : ∀ e ∈ r.deps.from n, ∃ lower,
      plan.levels.get? e.consumer = some lower := by
    intro e he
    obtain ⟨_, lower, _, hlow, _⟩ := wf.drops hl (wf.mem_from.mp he)
    exact ⟨lower, hlow⟩
  have turned := ((r.body.reverse_perm.flatMap_right (plan.levels.skips r.deps)).filter
    fun b => test b.carrier).map (fun b => b.upper - b.lower) |>.sum_eq
  rw [(bypasses_planned hb).edges, turned, wf.toNested.deps_toList_eq]
  simp only [List.filter_flatMap, List.map_flatMap]
  simp only [List.flatMap_def, List.sum_flatten, List.map_map]
  exact congrArg List.sum (List.map_congr_left fun n _ => Levels.sum_skips (leveled n) test)

end Edges

section Stages

/-- Without merges, a stage takes in just as many levels as it has to. -/
theorem Options.stageOf_nil {o : Options} (valid : o.Valid) (copies : o.insertCopy = true)
    (level : Nat) : o.stageOf [] level = level ⌈/⌉ o.minGran := by
  have pos : 1 ≤ o.minGran := valid
  unfold stageOf
  by_cases one : o.minGran = 1
  · simp [renumbers, one, copies]
  · rw [if_pos (by simp [renumbers, one])]
    exact stageMap_last_nil pos level

theorem Options.stageOf_zero (o : Options) (merges : List (Nat × Nat)) :
    o.stageOf merges 0 = 0 := by
  unfold stageOf
  split <;> rfl

theorem Region.compact_stages {r out : Region} {b : Bypasses} {o : Options} {c : Compacted}
    (h : r.compact b o = some (out, c)) :
    ∃ g moved, r.gather = some (g, moved) ∧ c.stages = o.stageOf b.merges g.topStage := by
  unfold Region.compact at h
  cases hgather : r.gather with
  | none => simp [hgather] at h
  | some gathered =>
    refine ⟨gathered.1, gathered.2, rfl, ?_⟩
    simp only [hgather, bind, Option.bind, pure, Option.some.injEq, Prod.mk.injEq] at h
    obtain ⟨-, rfl⟩ := h
    unfold Options.stageOf
    split
    next => simp [restage, List.getLastD_eq_getLast?]
    next => rfl

end Stages

section Counters

variable {chain : CopyChain} {type : ValueType} {span : Span}

theorem Forwarding.addBuffer_done {s s' : Forwarding} {v : ValueId}
    (h : s.addBuffer type span = some (v, s')) :
    s'.done = { s.done with allocs := s.done.allocs + 1 } := by
  simp only [addBuffer, bind, Option.bind_eq_some_iff, pure, Option.some.injEq,
    Prod.mk.injEq] at h
  obtain ⟨_, _, _, _, _, rfl⟩ := h
  rfl

theorem Forwarding.place_done {s s' : Forwarding} {consumer copy : NodeId} {level : Nat}
    (h : s.place consumer copy level = some s') :
    s'.done = { s.done with copies := s.done.copies + 1 } := by
  simp only [place, bind, Option.bind_eq_some_iff, pure, Option.some.injEq] at h
  obtain ⟨_, _, rfl⟩ := h
  rfl

theorem Forwarding.addCopy_done {s s' : Forwarding} {v v' : ValueId} {level : Nat}
    (h : addCopy chain type span (s, v) level = some (s', v')) :
    s'.done = ⟨s.done.copies + 1, s.done.allocs + (if chain.needsAlloc then 1 else 0),
      s.done.rewired⟩ := by
  unfold addCopy at h
  cases needs : chain.needsAlloc with
  | true =>
    simp only [needs, if_true, bind, Option.bind_eq_some_iff, pure, Option.some.injEq,
      Prod.mk.injEq] at h
    obtain ⟨⟨_, t⟩, hbuffer, _, hplace, rfl, _⟩ := h
    rw [place_done hplace, if_pos rfl]
    simp [addBuffer_done hbuffer]
  | false =>
    simp only [needs, Bool.false_eq_true, if_false, bind, Option.bind_eq_some_iff, pure,
      Option.some.injEq, Prod.mk.injEq] at h
    obtain ⟨_, _, _, hplace, rfl, _⟩ := h
    rw [place_done hplace]
    rfl

theorem Forwarding.addCopies_done {s s' : Forwarding} {v v' : ValueId} {levels : List Nat}
    (h : levels.foldlM (addCopy chain type span) (s, v) = some (s', v')) :
    s'.done = ⟨s.done.copies + levels.length,
      s.done.allocs + (if chain.needsAlloc then levels.length else 0), s.done.rewired⟩ := by
  induction levels generalizing s v with
  | nil =>
    obtain ⟨rfl, -⟩ : s = s' ∧ v = v' := by simpa using h
    simp
  | cons level levels ih =>
    rw [List.foldlM_cons, Option.bind_eq_bind, Option.bind_eq_some_iff] at h
    obtain ⟨⟨t, w⟩, first, rest⟩ := h
    rw [ih rest, addCopy_done first]
    split <;> simp <;> omega

theorem Forwarding.addChain_done {s s' : Forwarding} (h : s.addChain chain = some s') :
    s'.done.copies = s.done.copies + chain.levels.length ∧
      s'.done.allocs = s.done.allocs + if chain.needsAlloc then chain.levels.length else 0 := by
  simp only [addChain, bind, Option.bind_eq_some_iff, pure, Option.some.injEq] at h
  obtain ⟨_, _, _, _, ⟨t, _⟩, hcopies, _, _, rfl⟩ := h
  simp [addCopies_done hcopies]

theorem Forwarding.addChains_done {s s' : Forwarding} {chains : List CopyChain}
    (h : chains.foldlM addChain s = some s') :
    s'.done.copies = s.done.copies + (chains.map fun chain => chain.levels.length).sum ∧
      s'.done.allocs = s.done.allocs +
        ((chains.filter CopyChain.needsAlloc).map fun chain => chain.levels.length).sum := by
  induction chains generalizing s with
  | nil =>
    obtain rfl : s = s' := by simpa using h
    simp
  | cons chain chains ih =>
    rw [List.foldlM_cons, Option.bind_eq_bind, Option.bind_eq_some_iff] at h
    obtain ⟨t, first, rest⟩ := h
    obtain ⟨copies, allocs⟩ := addChain_done first
    obtain ⟨moreCopies, moreAllocs⟩ := ih rest
    rw [moreCopies, moreAllocs, copies, allocs, List.filter_cons]
    constructor
    · simp [Nat.add_assoc]
    · cases chain.needsAlloc <;> simp [Nat.add_assoc]

/-- The building of chains counts what was planned. -/
theorem Region.forward_done {r s : Region} {levels : Levels} {b : Bypasses} {f : Forwarded}
    (h : r.forward levels b = some (s, f)) :
    f.copies = (b.chains.map fun chain => chain.levels.length).sum ∧
      f.allocs = ((b.chains.filter CopyChain.needsAlloc).map fun chain =>
        chain.levels.length).sum := by
  simp only [Region.forward, bind, Option.bind_eq_some_iff, pure, Option.some.injEq,
    Prod.mk.injEq] at h
  obtain ⟨_, _, _, hchains, rfl, rfl⟩ := h
  simpa [Forwarding.start] using Forwarding.addChains_done hchains

end Counters

/-- The copies among the new nodes. -/
def newCopies (built : List BuiltChain) : List NodeId :=
  built.flatMap fun b => b.links.map Link.copy

theorem mem_newCopies {built : List BuiltChain} {n : NodeId} :
    n ∈ newCopies built ↔ ∃ b ∈ built, ∃ l ∈ b.links, l.copy = n := by
  simp [newCopies]

theorem newNodes_perm (built : List BuiltChain) :
    (newNodes built).Perm (newCopies built ++ newBuffers built) := by
  have links (b : BuiltChain) : (b.links.flatMap Link.nodes).Perm
      (b.links.map Link.copy ++ b.links.flatMap fun l => l.buffer.toList) := by
    rw [List.map_eq_flatMap]
    exact (List.flatMap_append_perm _ _ _).symm.trans List.perm_append_comm
  exact (List.Perm.flatMap_left built fun b _ => links b).trans
    (List.flatMap_append_perm _ _ _).symm

section Totals

variable {r out : Region} {o : Options} {plan : Plan} {built : List BuiltChain} {s : Forwarding}

theorem Region.Threaded.chain_needsAlloc (h : r.Threaded o plan built s) {b : BuiltChain}
    (hb : b ∈ built) {l : Link} (hl : l ∈ b.links) : l.buffer.isSome = b.chain.needsAlloc := by
  obtain ⟨value, hv, link⟩ := h.rewritten.hasLink hb hl
  have planned : b.chain ∈ plan.bypasses.chains := h.chains ▸ List.mem_map_of_mem hb
  rw [h.sound.chains] at planned
  split at planned
  next =>
    obtain ⟨e, _, he⟩ := List.mem_map.mp planned
    have carrier : b.chain.carrier = e.carrier := he ▸ rfl
    rw [link.filled, ← he]
    simp [Region.chainOf, Region.isMemref, ← carrier, hv]
  next => cases planned

theorem Region.Threaded.length_newCopies (h : r.Threaded o plan built s) :
    (newCopies built).length =
      (plan.bypasses.chains.map fun chain => chain.levels.length).sum := by
  rw [newCopies, List.length_flatMap, ← h.chains, List.map_map]
  refine congrArg List.sum (List.map_congr_left fun b hb => ?_)
  rw [List.length_map, Function.comp, ← h.levels b hb, List.length_map]

theorem Region.Threaded.length_newBuffers (h : r.Threaded o plan built s) :
    (newBuffers built).length = ((plan.bypasses.chains.filter CopyChain.needsAlloc).map
      fun chain => chain.levels.length).sum := by
  have each : ∀ b ∈ built, (b.links.flatMap fun l => l.buffer.toList).length =
      if b.chain.needsAlloc then b.chain.levels.length else 0 := by
    intro b hb
    have one : ∀ l ∈ b.links, l.buffer.toList.length = if b.chain.needsAlloc then 1 else 0 := by
      intro l hl
      rw [← h.chain_needsAlloc hb hl]
      cases l.buffer <;> rfl
    rw [List.length_flatMap, List.map_congr_left one, List.map_const', List.sum_replicate,
      ← h.levels b hb, List.length_map]
    split <;> simp
  rw [newBuffers, List.length_flatMap, List.map_congr_left each, ← h.chains, List.filter_map,
    List.map_map, sum_map_ite]
  rfl

/-- As many copies are planned as stages are skipped in all. -/
theorem Plan.Sound.sum_chains (sound : Plan.Sound r o plan) (test : Carrier → Bool) :
    (((if o.insertCopy then plan.bypasses.edges.map r.chainOf else []).filter fun chain =>
      test chain.carrier).map fun chain => chain.levels.length).sum =
      if o.insertCopy then ((plan.bypasses.edges.filter fun b => test b.carrier).map
        fun b => b.upper - b.lower).sum else 0 := by
  split
  next =>
    rw [List.filter_map, List.map_map]
    refine congrArg List.sum (List.map_congr_left fun b hb => ?_)
    have falls := ((sound.skips b).mp (List.mem_of_mem_filter hb)).2.2.2
    simp [r.chainOf_levels falls, levelsDown]
  next => rfl

/-- In copy mode there is one copy for each stage that an edge skips. -/
theorem Region.Threaded.length_copies (h : r.Threaded o plan built s) (hplan : r.plan o = .ok plan) :
    (newCopies built).length =
      if o.insertCopy then (r.deps.toList.map plan.levels.skipped).sum else 0 := by
  have all := h.wf.sum_bypasses hplan fun _ => true
  have planned := h.sound.sum_chains fun _ => true
  simp only [List.filter_true] at all planned
  rw [h.length_newCopies, h.sound.chains, planned, all]

/-- In copy mode there is one buffer for each stage that an edge with a buffer skips. -/
theorem Region.Threaded.length_allocs (h : r.Threaded o plan built s) (hplan : r.plan o = .ok plan) :
    (newBuffers built).length =
      if o.insertCopy then ((r.deps.toList.filter fun edge => r.isMemref edge.2.carrier.id).map
        plan.levels.skipped).sum else 0 := by
  have buffered : plan.bypasses.chains.filter CopyChain.needsAlloc =
      plan.bypasses.chains.filter fun chain => r.isMemref chain.carrier.id := by
    refine List.filter_congr fun chain hc => ?_
    rw [h.sound.chains] at hc
    split at hc
    next =>
      obtain ⟨e, _, rfl⟩ := List.mem_map.mp hc
      rfl
    next => cases hc
  rw [h.length_newBuffers, buffered, h.sound.chains, h.sound.sum_chains fun c => r.isMemref c.id,
    h.wf.sum_bypasses hplan fun c => r.isMemref c.id]

/-- The copies stand between planned levels, so the highest level is a planned one. -/
theorem Region.Threaded.topStage (h : r.Threaded o plan built s) (hplan : r.plan o = .ok plan) :
    s.region.topStage = plan.levels.max := by
  have nodup := levels_nodup (plan_eq_ok hplan).1
  refine maxOf_eq (fun level hl => ?_) fun level hl => ?_
  · obtain ⟨n, hn, hl⟩ := List.mem_filterMap.mp hl
    rcases h.level_cases hn hl with ⟨_, planned⟩ | ⟨b, hb, l, link, rfl, rfl⟩
    · exact ⟨level, List.mem_map_of_mem (Table.mem_of_get? planned), le_refl _⟩
    · obtain ⟨upper, lower, planned, _, low, high⟩ := h.link_level hb link
      exact ⟨upper + 1, List.mem_map_of_mem (Table.mem_of_get? planned), by omega⟩
  · obtain ⟨⟨n, level⟩, entry, rfl⟩ := List.mem_map.mp hl
    have planned : plan.levels.get? n = some level := Table.get?_of_mem nodup entry
    have hn := ((h.sound.schedule.leveled n).mp (by simp [planned])).1
    refine ⟨level, List.mem_filterMap.mpr ⟨n, h.built.mem_body.mpr (.inl hn), ?_⟩, le_refl _⟩
    rw [h.level_old (h.wf.bodyKnown n hn), planned]

theorem Region.Threaded.compact_stages (h : r.Threaded o plan built s)
    (hplan : r.plan o = .ok plan) {c : Compacted}
    (hc : s.region.compact plan.bypasses o = some (out, c)) :
    c.stages = o.stageOf plan.bypasses.merges plan.levels.max := by
  obtain ⟨reach, graded⟩ := h.graded
  obtain ⟨body, moved, hgather, gathered⟩ := h.wellFormed.sound.gather graded
    fun y hy z hz ly lz hly hlz hlt => h.descends_to hy hly (h.positive hz hlz) hlt
  obtain ⟨_, _, hgather', hstages⟩ := Region.compact_stages hc
  obtain ⟨rfl, rfl⟩ : _ = _ ∧ _ = _ := by simpa [hgather] using hgather'
  have same : ({ s.region with body := body } : Region).topStage = s.region.topStage := by
    have perm := gathered.perm.filterMap s.region.level?
    exact maxOf_eq (fun l hl => ⟨l, perm.mem_iff.mp hl, le_refl _⟩)
      fun l hl => ⟨l, perm.mem_iff.mpr hl, le_refl _⟩
  rw [hstages, same, h.topStage hplan]

theorem Region.Legalized.topStage (h : r.Legalized o plan built s out)
    (hplan : r.plan o = .ok plan) :
    out.topStage = o.stageOf plan.bypasses.merges plan.levels.max := by
  have perm := h.gathered.perm.filterMap s.region.level?
  have staged : out.bodyLevels =
      (out.body.filterMap s.region.level?).map (o.stageOf plan.bypasses.merges) := by
    rw [List.map_filterMap]
    exact List.filterMap_congr fun n hn => h.level n hn
  rw [← h.threaded.topStage hplan, Region.topStage, staged,
    maxOf_map (o.monotone_stageOf _) (o.stageOf_zero _)]
  exact congrArg _ (maxOf_eq (fun l hl => ⟨l, perm.mem_iff.mp hl, le_refl _⟩)
    fun l hl => ⟨l, perm.mem_iff.mpr hl, le_refl _⟩)

theorem Region.Legalized.body_perm (h : r.Legalized o plan built s out) :
    out.body.Perm (r.body ++ newCopies built ++ newBuffers built) := by
  have fresh : (r.body ++ newNodes built).Nodup := by
    refine List.nodup_append'.mpr ⟨h.threaded.wf.bodyNodup, h.rewritten.nodes_nodup, ?_⟩
    exact fun n hn new => h.rewritten.disjoint h.threaded.wf.toNested new hn rfl
  have same : out.body.Perm (r.body ++ newNodes built) :=
    (List.perm_ext_iff_of_nodup h.nodup fresh).mpr fun n => by
      rw [h.mem_body, h.threaded.built.mem_body, List.mem_append]
  rw [List.append_assoc]
  exact same.trans ((newNodes_perm built).append_left r.body)

end Totals

/-- Nothing of a region is lost or doubled in a second one that has some copies and allocations
more, and no edge is turned around. -/
structure Region.Keeps (r : Region) (copies allocs : List NodeId) (out : Region) : Prop where
  body : out.body.Perm (r.body ++ copies ++ allocs)
  once : out.body.Nodup
  inside : ∀ n, out.bodyOf n = r.bodyOf n
  kinds : ∀ n, n.index < r.nodes.size → out.kind? n = r.kind? n
  created : out.nodes.size = r.nodes.size + copies.length + allocs.length
  copies : ∀ n ∈ copies, r.nodes.size ≤ n.index ∧ out.kind? n = some .copy
  allocs : ∀ n ∈ allocs, r.nodes.size ≤ n.index ∧ out.kind? n = some (.alloc false)
  ordered : ∀ p e, (p, e) ∈ r.deps.toList → Before out.body p e.consumer

/-- The numbers of a report are those of what was planned for a region, and of what came out. -/
structure Report.Tallies (report : Report) (r : Region) (o : Options) (levels : Levels)
    (copies allocs : List NodeId) (out : Region) : Prop where
  nodes : report.nodes = r.body.length + report.copiesInserted + report.allocsInserted
  copies : report.copiesInserted = copies.length
  allocs : report.allocsInserted = allocs.length
  falls : ∀ p e, (p, e) ∈ r.deps.toList → ∃ upper lower, levels.get? p = some upper ∧
    levels.get? e.consumer = some lower ∧ lower < upper
  skipped : report.copiesInserted =
    if o.insertCopy then (r.deps.toList.map levels.skipped).sum else 0
  buffered : report.allocsInserted =
    if o.insertCopy then ((r.deps.toList.filter fun edge => r.isMemref edge.2.carrier.id).map
      levels.skipped).sum else 0
  levels : report.levels = levels.max
  highest : report.stages = maxOf out.bodyLevels
  distinct : report.stages = out.bodyLevels.eraseDups.length
  unfolded : o.renumbers = false → report.stages = report.levels
  folded : o.insertCopy = true → report.stages = report.levels ⌈/⌉ o.minGran

section Legalized

variable {r out : Region} {o : Options} {plan : Plan} {built : List BuiltChain} {s : Forwarding}

theorem Region.Legalized.bodyOf (h : r.Legalized o plan built s out) (n : NodeId) :
    out.bodyOf n = r.bodyOf n := by
  by_cases old : n.index < r.nodes.size
  · exact h.rewritten.bodyOf old
  · rw [Region.bodyOf_eq_nil (Nat.le_of_not_lt old)]
    by_cases new : n.index < out.nodes.size
    · exact h.rewritten.bodyOf_new ((h.rewritten.node_cases new).resolve_left old)
    · exact Region.bodyOf_eq_nil (Nat.le_of_not_lt new)

theorem Region.Legalized.keeps (h : r.Legalized o plan built s out) :
    r.Keeps (newCopies built) (newBuffers built) out where
  body := h.body_perm
  once := h.nodup
  inside := h.bodyOf
  kinds := h.rewritten.kind
  created := by
    rw [h.rewritten.nodeCount, (newNodes_perm built).length_eq, List.length_append, Nat.add_assoc]
  copies n hn := by
    obtain ⟨b, hb, l, hl, rfl⟩ := mem_newCopies.mp hn
    obtain ⟨_, _, link⟩ := h.rewritten.hasLink hb hl
    exact ⟨(h.rewritten.copy_new hb hl).1, link.kind⟩
  allocs n hn := by
    obtain ⟨b, hb, l, hl, buffer⟩ := mem_newBuffers.mp hn
    obtain ⟨_, _, link⟩ := h.rewritten.hasLink hb hl
    exact ⟨(h.rewritten.buffer_new hb hl buffer).1, (link.buffer n buffer).1⟩
  ordered p e he := by
    have feeds := h.threaded.wf.mem_deps.mp he
    obtain ⟨upper, lower, hu, hl, falls, -⟩ := h.threaded.sound.drops _ _ _ feeds
    exact (h.before_old_iff feeds.mem_left feeds.mem_right hu hl).mpr (.inl falls)

theorem Region.Legalized.tallies (h : r.Legalized o plan built s out) (valid : o.Valid)
    {f : Forwarded} {c : Compacted} {print : String} {report : Report}
    (hplan : r.plan o = .ok plan)
    (hforward : r.forward plan.levels plan.bypasses = some (s.region, f))
    (hcompact : s.region.compact plan.bypasses o = some (out, c))
    (hreport : out.report print plan.levels plan.bypasses f c o = some report) :
    report.Tallies r o plan.levels (newCopies built) (newBuffers built) out := by
  obtain ⟨outPrint, _, rfl⟩ : ∃ outPrint, out.fingerprint = some outPrint ∧ _ = report := by
    simpa [Region.report, Option.bind_eq_some_iff] using hreport
  obtain ⟨copies, allocs⟩ := Region.forward_done hforward
  rw [← h.threaded.length_newCopies] at copies
  rw [← h.threaded.length_newBuffers] at allocs
  have stages := h.threaded.compact_stages hplan hcompact
  have top := stages.trans (h.topStage hplan).symm
  refine ⟨?_, copies, allocs, fun p e he => ?_, copies.trans (h.threaded.length_copies hplan),
    allocs.trans (h.threaded.length_allocs hplan), rfl, top, ?_, fun keep => ?_, fun copying => ?_⟩
  · rw [h.body_perm.length_eq, List.length_append, List.length_append, copies, allocs]
  · obtain ⟨upper, lower, hu, hl, falls, -⟩ :=
      h.threaded.sound.drops _ _ _ (h.threaded.wf.mem_deps.mp he)
    exact ⟨upper, lower, hu, hl, falls⟩
  · rw [length_eraseDups_eq_maxOf (fun _ hs => (h.stages_downward hs).1)
      fun _ hs => (h.stages_downward hs).2]
    exact top
  · exact stages.trans (by simp [Options.stageOf, keep])
  · have merges : plan.bypasses.merges = [] := by rw [h.threaded.sound.merges, if_pos copying]
    exact stages.trans (by rw [merges, Options.stageOf_nil valid copying])

end Legalized

/-- A run that ends well loses and doubles nothing, puts no consumer in front of its producer, and
reports what it did. -/
theorem legalize_counts {r out : Region} {o : Options} {report : Report}
    (reachable : r.Reachable) (valid : o.Valid) (h : r.legalize o = .ok (report, out)) :
    ∃ plan copies allocs, r.plan o = .ok plan ∧ r.Keeps copies allocs out ∧
      report.Tallies r o plan.levels copies allocs out := by
  have wf := reachable.wellFormed
  obtain ⟨plan, built, s, hplan, hforward, legal⟩ := wf.legalize h
  obtain ⟨print, plan', s', f, c, _, hplan', hforward', hcompact, hreport⟩ :=
    Region.legalize_eq_ok.mp h
  obtain rfl : plan = plan' := by simpa [hplan] using hplan'
  obtain ⟨rfl, rfl⟩ : s.region = s' ∧ s.done = f := by simpa [hforward] using hforward'
  exact ⟨plan, newCopies built, newBuffers built, hplan, legal.keeps,
    legal.tallies valid hplan hforward hcompact hreport⟩

/-- A source text with an edge that skips a stage and carries a buffer. -/
def bufferedSource : String :=
  "func @k(%s: i1, %m: memref<1xi1>, %p: memref<1xi1>, %q: memref<1xi1>) \x7b
    for %i = 0 to 1 \x7b
      store %s, %m
      store %s, %p
    \x7d
    for %j = 0 to 1 \x7b
      %v = load %p : i1
      store %v, %q
    \x7d
    for %k = 0 to 1 \x7b
      %w = load %q : i1
      %x = load %m : i1
    \x7d
  \x7d"

theorem legalize_counts_buffered : ∃ loaded r report out, ∃ plan copies allocs,
    load bufferedSource = .ok loaded ∧ r ∈ loaded.regions ∧ (⟨true, 2⟩ : Options).Valid ∧
      r.legalize ⟨true, 2⟩ = .ok (report, out) ∧ out.body.length = r.body.length + 2 ∧
      r.plan ⟨true, 2⟩ = .ok plan ∧ r.Keeps copies allocs out ∧
      report.Tallies r ⟨true, 2⟩ plan.levels copies allocs out := by
  obtain ⟨loaded, hload, r, hr, report, out, hlegal, grown⟩ :=
    @exists_of_anyLegalized bufferedSource _ (by rfl) ⟨true, 2⟩
      (fun r out => out.body.length = r.body.length + 2) (by decide +kernel)
  obtain ⟨plan, copies, allocs, counts⟩ :=
    @legalize_counts r out ⟨true, 2⟩ report (.load hload hr) (by decide) hlegal
  exact ⟨loaded, r, report, out, plan, copies, allocs, hload, hr, by decide, hlegal,
    of_decide_eq_true grown, counts⟩

end Staging
