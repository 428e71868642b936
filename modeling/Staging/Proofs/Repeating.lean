import Staging.Proofs.Regathering
import Staging.Proofs.Replanned

namespace Staging

/-- A region with its levels folded into stages where the options ask for it, marked as legal. -/
def Region.staged (r : Region) (merges : List (Nat × Nat)) (o : Options) : Region :=
  { (if o.renumbers then (r.restage merges o.minGran).1 else r) with dataflow := true }

section Staged

variable {r g : Region} {o : Options}

theorem Region.compact_eq {b : Bypasses} {moved : Nat} (h : r.gather = some (g, moved)) :
    ∃ c, r.compact b o = some (g.staged b.merges o, c) := by
  unfold Region.compact staged
  rw [h]
  by_cases renumbers : o.renumbers = true <;> simp [renumbers]

theorem Region.withLevels_withLevels (r : Region) (level level' : NodeId → Option Nat) :
    (r.withLevels level).withLevels level' = r.withLevels level' := by
  unfold withLevels
  congr 1
  refine Array.ext_getElem? fun i => ?_
  simp only [Array.getElem?_mapIdx, Option.map_map]
  rfl

/-- Giving back the levels from before they were folded into stages leaves only the mark. -/
theorem Region.Coherent.withLevels_staged (coherent : r.Coherent) (merges : List (Nat × Nat)) :
    (r.staged merges o).withLevels r.level? = { r with dataflow := true } := by
  have back : ∀ level, ({ r.withLevels level with dataflow := true } : Region).withLevels r.level? =
      { r with dataflow := true } := fun level =>
    congrArg (fun r : Region => { r with dataflow := true })
      ((r.withLevels_withLevels level r.level?).trans r.withLevels_level?)
  unfold staged
  split
  · rw [restage_eq coherent.bodyKnown coherent.bodyNodup]
    exact back _
  · exact congrArg (fun r : Region => { r with dataflow := true }) r.withLevels_level?

theorem Region.Coherent.staged_marked (coherent : r.Coherent) (merges : List (Nat × Nat)) :
    ({ r with dataflow := true } : Region).staged merges o = r.staged merges o := by
  unfold staged
  split
  · rw [restage_eq coherent.bodyKnown coherent.bodyNodup]
    exact congrArg (fun s : Region => { s with dataflow := true })
      (@restage_eq { r with dataflow := true } coherent.bodyKnown coherent.bodyNodup merges o.minGran)
  · rfl

theorem Region.forward_nil {levels : Levels} {b : Bypasses}
    (nodup : (levels.entries.map Prod.fst).Nodup)
    (known : ∀ n ∈ levels.entries.map Prod.fst, n.index < r.nodes.size) (none : b.chains = []) :
    r.forward levels b = some (r.withLevels levels.get?, ⟨0, 0, 0⟩) := by
  have apply : levels.applyTo r.clearLevels = some (r.withLevels levels.get?) := by
    rw [clearLevels_eq, Levels.applyTo_eq nodup known]
    simp
  simp only [Region.forward, apply, none, List.foldlM_nil, bind, Option.bind]
  rfl

end Staged

/-- A run that ends well reports on the plan that it carried out. -/
theorem Region.legalize_report {r s out : Region} {o : Options} {plan : Plan} {f : Forwarded}
    {report : Report} (h : r.legalize o = .ok (report, out)) (hplan : r.plan o = .ok plan)
    (hforward : r.forward plan.levels plan.bypasses = some (s, f)) :
    r.fingerprint = some report.inputFingerprint ∧
      out.fingerprint = some report.outputFingerprint ∧ report.copiesInserted = f.copies ∧
      report.allocsInserted = f.allocs := by
  unfold Region.legalize at h
  cases hprint : r.fingerprint with
  | none => simp [hprint, orFault, bind, Except.bind] at h
  | some print =>
    cases hcompact : s.compact plan.bypasses o with
    | none => simp [hprint, hplan, hforward, hcompact, orFault, bind, Except.bind] at h
    | some state =>
      obtain ⟨out', c⟩ := state
      cases hprint' : out'.fingerprint with
      | none =>
        simp [hprint, hplan, hforward, hcompact, hprint', Region.report, orFault, bind,
          Except.bind] at h
      | some print' =>
        simp only [hprint, hplan, hforward, hcompact, hprint', Region.report, orFault, bind,
          Except.bind, pure, Except.pure, Option.bind, Except.ok.injEq, Prod.mk.injEq] at h
        obtain ⟨rfl, rfl⟩ := h
        exact ⟨rfl, hprint', rfl, rfl⟩

section Again

variable {r out : Region} {o : Options} {plan : Plan}

/-- In a region with a single writer for each value, a second run ends with the region that it
started from. -/
theorem Region.WellFormed.legalize_twice (wf : r.WellFormed) (sw : r.SingleWriter)
    {report : Report} (h : r.legalize o = .ok (report, out)) : ∃ again, ∃ plan : Plan,
      out.legalize o = .ok (again, out) ∧ out.plan o = .ok plan ∧
      out.forward plan.levels plan.bypasses = some (out.withLevels plan.levels.get?, ⟨0, 0, 0⟩) := by
  obtain ⟨plan, _, _, hplan, _, _⟩ := wf.legalize h
  obtain ⟨s, built, out', c, report', hforward, hcompact, hlegal, legal⟩ := wf.legalize_of_plan hplan
  cases h.symm.trans hlegal
  have threaded := legal.threaded
  have wf' := threaded.wellFormed
  obtain ⟨reach, graded⟩ := threaded.graded
  obtain ⟨body, moved, hgather, gathered, packed⟩ := wf'.sound.gather_packed graded
    fun y hy z hz ly lz hly hlz hlt => threaded.descends_to hy hly (threaded.positive hz hlz) hlt
  -- The first run ends with the gathered body, in stages.
  let g : Region := { s.region with body := body }
  have same : s.region.SameNodes g := s.region.sameNodes_withBody body
  have coherent : g.Coherent := wf'.toCoherent.of_sameNodes same gathered.perm
  obtain ⟨c', hcompact'⟩ := compact_eq (b := plan.bypasses) (o := o) hgather
  obtain rfl : out = g.staged plan.bypasses.merges o := by
    rw [hcompact] at hcompact'
    exact congrArg Prod.fst (Option.some.inj hcompact')
  -- The second run plans the same levels, and writes them over the stages.
  obtain ⟨again, hagain, levels, chains, merges⟩ := legal.plan_again sw hplan
  obtain ⟨hlevels, _, _⟩ := plan_eq_ok hagain
  have written := forward_nil (levels_nodup hlevels) (legal.wellFormed.levels_known hlevels) chains
  obtain ⟨s₂, _, out₂, _, report₂, hforward₂, hcompact₂, hlegal₂, _⟩ :=
    legal.wellFormed.legalize_of_plan hagain
  have back : (g.staged plan.bypasses.merges o).withLevels again.levels.get? =
      { g with dataflow := true } := by
    rw [levels]
    exact coherent.withLevels_staged plan.bypasses.merges
  have region : s₂.region = { g with dataflow := true } := by
    rw [← back]
    rw [hforward₂] at written
    exact congrArg Prod.fst (Option.some.inj written)
  -- The body is gathered already, so that the stages come out the same.
  obtain ⟨moved', regather⟩ := wf'.sound.regather (s := { g with dataflow := true }) graded
    ⟨rfl, rfl, rfl, rfl, rfl, rfl, rfl⟩ rfl gathered packed
  obtain ⟨c₂, hcompact₂'⟩ := compact_eq (b := again.bypasses) (o := o) regather
  obtain rfl : out₂ = g.staged plan.bypasses.merges o := by
    rw [region, hcompact₂', merges, coherent.staged_marked] at hcompact₂
    exact (congrArg Prod.fst (Option.some.inj hcompact₂)).symm
  exact ⟨report₂, again, hlegal₂, hagain, written⟩

end Again

/-- Making a region with a single writer for each value legal a second time changes nothing. -/
theorem legalize_idempotent {r out : Region} {o : Options} {report : Report}
    (reachable : r.Reachable) (sw : r.SingleWriter) (h : r.legalize o = .ok (report, out)) :
    ∃ again, out.legalize o = .ok (again, out) ∧ again.copiesInserted = 0 ∧
      again.allocsInserted = 0 ∧ again.inputFingerprint = again.outputFingerprint := by
  obtain ⟨again, plan, hlegal, hplan, hforward⟩ := reachable.wellFormed.legalize_twice sw h
  obtain ⟨before, after, copies, allocs⟩ := Region.legalize_report hlegal hplan hforward
  exact ⟨again, hlegal, copies, allocs, Option.some.inj (before.symm.trans after)⟩

theorem legalize_idempotent_sharedBuffer : ∃ loaded r report out again,
    load sharedBufferSource = .ok loaded ∧ r ∈ loaded.regions ∧ r.SingleWriter ∧
      r.legalize ⟨true, 2⟩ = .ok (report, out) ∧ r.body.length < out.body.length ∧
      out.legalize ⟨true, 2⟩ = .ok (again, out) ∧ again.copiesInserted = 0 ∧
      again.allocsInserted = 0 ∧ again.inputFingerprint = again.outputFingerprint := by
  obtain ⟨loaded, hload, r, hr, report, out, hlegal, test⟩ :=
    @exists_of_anyLegalized sharedBufferSource _ (by rfl) ⟨true, 2⟩
      (fun r out => r.isSingleWriter && r.body.length < out.body.length) (by decide +kernel)
  simp only [Bool.and_eq_true, decide_eq_true_eq] at test
  have sw := (load_wellFormed hload r hr).isSingleWriter_iff.mp test.1
  obtain ⟨again, idempotent⟩ := legalize_idempotent (.load hload hr) sw hlegal
  exact ⟨loaded, r, report, out, again, hload, hr, sw, hlegal, test.2, idempotent⟩

end Staging
