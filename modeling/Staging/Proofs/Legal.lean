import Staging.Proofs.Printed
import Staging.Proofs.Threading

namespace Staging

/-- One level down is at most one stage down. -/
theorem Options.stepsDown_succ (o : Options) (merges : List (Nat × Nat)) {level : Nat}
    (pos : 1 ≤ level) :
    stepsDown o (o.stageOf merges (level + 1)) (o.stageOf merges level) = true := by
  unfold stepsDown
  rcases o.stageOf_succ merges pos with ⟨same, renumbers⟩ | next
  · simp [same, renumbers]
  · simp [next]

/-- What a region has become once it is legal: the same nodes as when the chains had been built,
brought together by level, in the stages of their levels. -/
structure Region.Legalized (r : Region) (o : Options) (plan : Plan) (built : List BuiltChain)
    (s : Forwarding) (out : Region) : Prop where
  threaded : r.Threaded o plan built s
  same : s.region.SameNodes out
  gathered : s.region.Gathered out.body
  level : ∀ n ∈ out.body,
    out.level? n = (s.region.level? n).map (o.stageOf plan.bypasses.merges)
  marked : out.dataflow = true

theorem Region.sameNodes_withBody (r : Region) (body : List NodeId) :
    r.SameNodes { r with body := body } :=
  ⟨rfl, rfl, rfl, rfl, rfl, rfl, rfl⟩

/-- Restaging puts each node of the body into the stage of its level. -/
theorem Region.restage_levels {r : Region} (known : ∀ n ∈ r.body, n.index < r.nodes.size)
    (nodup : r.body.Nodup) (merges : List (Nat × Nat)) (gran : Nat) :
    r.SameNodes (r.restage merges gran).1 ∧ (r.restage merges gran).1.body = r.body ∧
      ∀ n ∈ r.body, (r.restage merges gran).1.level? n =
        (r.level? n).map fun l => (stageMap l merges gran).getLastD 0 := by
  rw [restage_eq known nodup]
  refine ⟨r.sameNodes_withLevels _, rfl, fun n hn => ?_⟩
  rw [level?_withLevels _ _ (known n hn), if_pos hn]
  cases hl : r.level? n with
  | none => rfl
  | some l =>
    have top : l ≤ r.topStage := le_maxOf (List.mem_filterMap.mpr ⟨n, hn, hl⟩)
    exact stageMap_getElem? merges gran top

/-- Compacting succeeds on a region with the chains of its plan. -/
theorem Region.Threaded.compact {r : Region} {o : Options} {plan : Plan}
    {built : List BuiltChain} {s : Forwarding} (h : r.Threaded o plan built s) :
    ∃ out c, s.region.compact plan.bypasses o = some (out, c) ∧
      r.Legalized o plan built s out := by
  obtain ⟨reach, graded⟩ := h.graded
  have wf := h.wellFormed
  obtain ⟨body, moved, hgather, gathered⟩ := wf.sound.gather graded
    fun y hy z hz ly lz hly hlz hlt => h.descends_to hy hly (h.positive hz hlz) hlt
  have same := s.region.sameNodes_withBody body
  have marked : ∀ r' : Region, r'.SameNodes { r' with dataflow := true } := fun _ =>
    ⟨rfl, rfl, rfl, rfl, rfl, rfl, rfl⟩
  unfold Region.compact
  rw [hgather]
  simp only [bind, Option.bind]
  by_cases renumbers : o.renumbers = true
  · rw [if_pos renumbers]
    obtain ⟨same', body', levels⟩ := @restage_levels { s.region with body := body }
      (fun n hn => wf.bodyKnown n (gathered.perm.mem_iff.mp hn))
      (gathered.perm.nodup_iff.mpr wf.bodyNodup) plan.bypasses.merges o.minGran
    refine ⟨_, _, rfl, h, same.trans (same'.trans (marked _)), ?_, fun n hn => ?_, rfl⟩
    · simpa only [body'] using gathered
    · have stage : o.stageOf plan.bypasses.merges =
          fun l => (stageMap l plan.bypasses.merges o.minGran).getLastD 0 := by
        funext l
        exact if_pos renumbers
      rw [stage]
      exact levels n (by simpa only [body'] using hn)
  · rw [if_neg renumbers]
    refine ⟨_, _, rfl, h, same.trans (marked _), gathered, fun n hn => ?_, rfl⟩
    have keep : o.stageOf plan.bypasses.merges = id := by
      funext l
      exact if_neg renumbers
    rw [keep, Option.map_id]
    rfl

theorem Region.Legalized.wellFormed {r out : Region} {o : Options} {plan : Plan}
    {built : List BuiltChain} {s : Forwarding} (h : r.Legalized o plan built s out) :
    out.WellFormed :=
  h.threaded.wellFormed.of_sameNodes h.same h.gathered.perm h.gathered.ordered

/-- Once there is a plan, nothing stops a run. -/
theorem Region.WellFormed.legalize_of_plan {r : Region} (wf : r.WellFormed) {o : Options}
    {plan : Plan} (h : r.plan o = .ok plan) :
    ∃ (s : Forwarding) (built : List BuiltChain) (out : Region) (c : Compacted) (report : Report),
      r.forward plan.levels plan.bypasses = some (s.region, s.done) ∧
      s.region.compact plan.bypasses o = some (out, c) ∧ r.legalize o = .ok (report, out) ∧
      r.Legalized o plan built s out := by
  obtain ⟨s, built, hforward, threaded⟩ := wf.forward h
  obtain ⟨out, c, hcompact, legal⟩ := threaded.compact
  obtain ⟨print, hprint⟩ := wf.fingerprint_eq
  obtain ⟨print', hprint'⟩ := legal.wellFormed.fingerprint_eq
  have reported : ∃ report, out.report print plan.levels plan.bypasses s.done c o = some report := by
    simp [report, hprint']
  obtain ⟨report, hreport⟩ := reported
  refine ⟨s, built, out, c, report, hforward, hcompact, ?_, legal⟩
  unfold Region.legalize
  simp [hprint, h, hforward, hcompact, hreport, orFault, bind, Except.bind, pure, Except.pure]

/-- A run ends well just where each of its steps does. -/
theorem Region.legalize_eq_ok {r out : Region} {o : Options} {report : Report} :
    r.legalize o = .ok (report, out) ↔ ∃ print plan s f c, r.fingerprint = some print ∧
      r.plan o = .ok plan ∧ r.forward plan.levels plan.bypasses = some (s, f) ∧
      s.compact plan.bypasses o = some (out, c) ∧
      out.report print plan.levels plan.bypasses f c o = some report := by
  unfold Region.legalize
  constructor
  · intro h
    cases hprint : r.fingerprint with
    | none => simp [hprint, orFault, bind, Except.bind] at h
    | some print =>
    cases hplan : r.plan o with
    | error => simp [hprint, hplan, orFault, bind, Except.bind] at h
    | ok plan =>
    cases hforward : r.forward plan.levels plan.bypasses with
    | none => simp [hprint, hplan, hforward, orFault, bind, Except.bind] at h
    | some forwarded =>
    cases hcompact : forwarded.1.compact plan.bypasses o with
    | none => simp [hprint, hplan, hforward, hcompact, orFault, bind, Except.bind] at h
    | some compacted =>
    cases hreport : compacted.1.report print plan.levels plan.bypasses forwarded.2 compacted.2 o with
    | none => simp [hprint, hplan, hforward, hcompact, hreport, orFault, bind, Except.bind] at h
    | some found =>
      simp only [hprint, hplan, hforward, hcompact, hreport, orFault, bind, Except.bind, pure,
        Except.pure, Except.ok.injEq, Prod.mk.injEq] at h
      obtain ⟨rfl, rfl⟩ := h
      exact ⟨print, plan, forwarded.1, forwarded.2, compacted.2, rfl, rfl, hforward, hcompact,
        hreport⟩
  · rintro ⟨print, plan, s, f, c, hprint, hplan, hforward, hcompact, hreport⟩
    simp [hprint, hplan, hforward, hcompact, hreport, orFault, bind, Except.bind, pure, Except.pure]

/-- A successful run is one in which the plan was carried out. -/
theorem Region.WellFormed.legalize {r : Region} (wf : r.WellFormed) {o : Options}
    {report : Report} {out : Region} (h : r.legalize o = .ok (report, out)) :
    ∃ plan built s, r.plan o = .ok plan ∧
      r.forward plan.levels plan.bypasses = some (s.region, s.done) ∧
      r.Legalized o plan built s out := by
  cases hplan : r.plan o with
  | error stop =>
    obtain ⟨print, hprint⟩ := wf.fingerprint_eq
    simp [Region.legalize, hprint, hplan, orFault, bind, Except.bind] at h
  | ok plan =>
    obtain ⟨s, built, out', c, report', hforward, _, hlegal, legal⟩ := wf.legalize_of_plan hplan
    rw [hlegal] at h
    cases h
    exact ⟨plan, built, s, rfl, hforward, legal⟩

section Legalized

variable {r out : Region} {o : Options} {plan : Plan} {built : List BuiltChain} {s : Forwarding}

theorem Region.Threaded.leveled_iff (h : r.Threaded o plan built s) {n : NodeId}
    (hn : n ∈ s.region.body) :
    (s.region.level? n).isSome = true ↔ s.region.isDataflow n = true := by
  rcases h.built.mem_body.mp hn with hn | hn
  · have known := h.wf.bodyKnown n hn
    have same : s.region.isDataflow n = r.isDataflow n := by
      simp [Region.isDataflow, h.rewritten.kind n known]
    rw [h.level_old known, h.sound.schedule.leveled, same]
    exact and_iff_right hn
  · obtain ⟨b, hb, l, hl, hbuf | rfl⟩ := mem_newNodes.mp hn
    · obtain ⟨_, _, link⟩ := h.rewritten.hasLink hb hl
      simp [(h.built.linkLevel b hb l hl).2 n hbuf, Region.isDataflow, (link.buffer n hbuf).1,
        NodeKind.isDataflow]
    · obtain ⟨_, _, link⟩ := h.rewritten.hasLink hb hl
      simp [h.level_copy hb hl, link.isDataflow]

theorem Region.Legalized.mem_body (h : r.Legalized o plan built s out) {n : NodeId} :
    n ∈ out.body ↔ n ∈ s.region.body :=
  h.gathered.perm.mem_iff

theorem Region.Legalized.leveled_iff (h : r.Legalized o plan built s out) {n : NodeId}
    (hn : n ∈ out.body) : (out.level? n).isSome = true ↔ out.isDataflow n = true := by
  rw [h.level n hn, Option.isSome_map, h.same.isDataflow]
  exact h.threaded.leveled_iff (h.mem_body.mp hn)

theorem Region.Legalized.level_eq_some (h : r.Legalized o plan built s out) {n : NodeId}
    {stage : Nat} (hn : n ∈ out.body) (hl : out.level? n = some stage) : ∃ level,
      s.region.level? n = some level ∧ 1 ≤ level ∧ o.stageOf plan.bypasses.merges level = stage := by
  rw [h.level n hn] at hl
  obtain ⟨level, hlevel, he⟩ := Option.map_eq_some_iff.mp hl
  exact ⟨level, hlevel, h.threaded.positive (h.mem_body.mp hn) hlevel, he⟩

end Legalized

end Staging
