import Staging.Proofs.Passes

namespace Staging

/-- The states of a region that went through some runs, none of which had to change it. -/
inductive RunState.Previews (r : Region) : RunState → Prop
  | start {s : RunState} (h : RunState.start r = some s) : Previews r s
  | run {s : RunState} {terminal : Pass} {o : Options} {outcome : RunOutcome}
      (earlier : Previews r s) (readOnly : terminal.mutates = false)
      (h : s.run terminal o = some outcome) : Previews r outcome.state

section Run

variable {r : Region} {print : String} {o : Options} {s : RunState}
  {Q : RunState → Option RunError → List Diagnostic → Prop}

theorem Pass.required_readOnly {terminal : Pass} (readOnly : terminal.mutates = false) :
    ∀ p ∈ terminal.required, p.mutates = false := by
  cases terminal with
  | forward => cases readOnly
  | compact => cases readOnly
  | _ => decide

theorem RunState.Previews.of (h : s.Previews r) :
    ∃ print, r.fingerprint = some print ∧ s.Of r print := by
  induction h with
  | start h => exact RunState.of_start h
  | run _ readOnly h ih =>
    obtain ⟨print, hprint, region, same⟩ := ih
    obtain ⟨tells, unchanged⟩ := RunState.runPasses_tells h
    exact ⟨print, hprint, (unchanged (Pass.required_readOnly readOnly)).trans region,
      tells.inputFingerprint.trans same⟩

/-- A run that must not change the region ends, and no artifact is missing. -/
theorem Region.WellFormed.leads_readOnly (wf : r.WellFormed) (hs : s.Of r print) {terminal : Pass}
    (readOnly : terminal.mutates = false) :
    s.Leads o terminal.required fun _ error _ =>
      ∀ p artifact, error ≠ some (.missingArtifact p artifact) := by
  cases terminal with
  | index => exact .next rfl (.nil nofun)
  | successors => exact .deps hs fun _ _ _ _ => .nil nofun
  | levels =>
    exact .deps hs fun s hs _ deps =>
      .levels wf hs deps (fun _ _ _ _ _ _ _ => .nil nofun) fun _ _ _ _ _ _ _ _ => nofun
  | bypasses =>
    exact wf.leads_plan hs (fun _ _ _ _ _ _ _ => .nil nofun) fun _ _ _ _ _ _ _ => nofun
  | forward => cases readOnly
  | compact => cases readOnly

end Run

/-- A full run does what making a region legal in one go does, whatever runs went before that did
not have to change the region. -/
theorem run_agrees {r : Region} (reachable : r.Reachable) :
    (∃ s, RunState.start r = some s) ∧ ∀ s : RunState, s.Previews r → s.region = r ∧
      (∀ terminal o, terminal.mutates = false → ∃ outcome, s.run terminal o = some outcome ∧
        outcome.state.region = r ∧ outcome.Tells s terminal.required ∧
        ∀ p artifact, outcome.error ≠ some (.missingArtifact p artifact)) ∧
      ∀ o, ∃ outcome, s.run .compact o = some outcome ∧
        outcome.Tells s (Pass.required .compact) ∧
        (∀ p artifact, outcome.error ≠ some (.missingArtifact p artifact)) ∧
        (∀ stop, r.legalize o = .error stop → ∃ obstacle d, stop = .blocked obstacle ∧
          obstacle.toDiagnostic r = some d ∧
          outcome.error = some (.passFailed obstacle.pass) ∧
          outcome.state.diagnostics = s.diagnostics ++ [d] ∧ outcome.state.region = r) ∧
        ∀ report out, r.legalize o = .ok (report, out) →
          outcome.state.region = out ∧ outcome.state.report o = some report ∧
          ((out.certify o).holds = true → outcome.error = none ∧
            outcome.state.diagnostics = s.diagnostics) ∧
          ((out.certify o).holds = false → outcome.error = some (.passFailed .compact) ∧
            ∃ d, d.code = some .certificateFailed ∧
              outcome.state.diagnostics = s.diagnostics ++ [d]) := by
  have wf := reachable.wellFormed
  refine ⟨?_, fun s previews => ?_⟩
  · obtain ⟨print, hprint⟩ := wf.fingerprint_eq
    exact ⟨_, congrArg (Option.map _) hprint⟩
  obtain ⟨print, hprint, hs⟩ := previews.of
  refine ⟨hs.region, fun terminal o readOnly => ?_, fun o => ?_⟩
  · obtain ⟨outcome, hrun, complete⟩ := wf.leads_readOnly (o := o) hs readOnly
    obtain ⟨tells, unchanged⟩ := RunState.runPasses_tells hrun
    exact ⟨outcome, hrun, (unchanged (Pass.required_readOnly readOnly)).trans hs.region, tells,
      complete⟩
  · have both : s.Leads o (Pass.required .compact) fun s' error ds =>
        (∃ report out, r.legalize o = .ok (report, out) ∧ s'.region = out ∧
          s'.report o = some report ∧ ds = (out.certify o).toDiagnostics out ∧
          error = if (out.certify o).holds then none else some (.passFailed .compact)) ∨
        ∃ obstacle d, r.legalize o = .error (.blocked obstacle) ∧
          obstacle.toDiagnostic r = some d ∧ s'.region = r ∧ ds = [d] ∧
          error = some (.passFailed obstacle.pass) :=
      wf.leads_compact hprint hs
        (fun report out s' hlegal region same => .inl ⟨report, out, hlegal, region, same, rfl, rfl⟩)
        fun obstacle d s' hlegal hd hs' => .inr ⟨obstacle, d, hlegal, hd, hs'.region, rfl, rfl⟩
    obtain ⟨outcome, hrun, ended⟩ := both
    obtain ⟨tells, -⟩ := RunState.runPasses_tells hrun
    refine ⟨outcome, hrun, tells, ?_⟩
    rcases ended with ⟨report, out, hlegal, region, same, told, herror⟩ |
      ⟨obstacle, d, hlegal, hd, region, told, herror⟩
    · have complete : ∀ p artifact, outcome.error ≠ some (.missingArtifact p artifact) := by
        rw [herror]
        split <;> simp
      refine ⟨complete, fun stop h => (by cases hlegal.symm.trans h), fun _ _ h => ?_⟩
      cases hlegal.symm.trans h
      refine ⟨region, same, fun holds => ?_, fun fails => ?_⟩
      · rw [tells.diagnostics, told, herror, if_pos holds, Certificate.toDiagnostics, if_pos holds]
        exact ⟨rfl, List.append_nil _⟩
      · obtain ⟨d, single, code, -⟩ := Certificate.toDiagnostics_of_not_holds fails out
        rw [tells.diagnostics, told, single, herror, fails]
        exact ⟨rfl, d, code, rfl⟩
    · have complete : ∀ p artifact, outcome.error ≠ some (.missingArtifact p artifact) := by
        simp [herror]
      refine ⟨complete, fun stop h => ?_, fun _ _ h => (by cases hlegal.symm.trans h)⟩
      cases hlegal.symm.trans h
      refine ⟨obstacle, d, rfl, hd, herror, ?_, region⟩
      rw [tells.diagnostics, told]

theorem run_agrees_previewed : ∃ loaded r s preview outcome report out,
    load skippingSource = .ok loaded ∧ r ∈ loaded.regions ∧ RunState.start r = some s ∧
      s.run .bypasses ⟨false, 1⟩ = some preview ∧ preview.state.region = r ∧
      preview.state.run .compact ⟨true, 1⟩ = some outcome ∧
      r.legalize ⟨true, 1⟩ = .ok (report, out) ∧ outcome.error = none ∧
      outcome.state.region = out ∧ outcome.state.report ⟨true, 1⟩ = some report := by
  obtain ⟨loaded, hload, r, hr, report, out, hlegal, holds⟩ :=
    @exists_of_anyLegalized skippingSource _ (by rfl) ⟨true, 1⟩
      (fun _ out => (out.certify ⟨true, 1⟩).holds) (by decide +kernel)
  obtain ⟨⟨s, start⟩, runs⟩ := run_agrees (.load hload hr)
  obtain ⟨_, readOnly, _⟩ := runs s (.start start)
  obtain ⟨preview, hpreview, unchanged, _⟩ := readOnly .bypasses ⟨false, 1⟩ rfl
  obtain ⟨_, _, full⟩ := runs preview.state (.run (.start start) rfl hpreview)
  obtain ⟨outcome, hrun, _, _, _, done⟩ := full ⟨true, 1⟩
  obtain ⟨region, same, passes, _⟩ := done report out hlegal
  exact ⟨loaded, r, s, preview, outcome, report, out, hload, hr, start, hpreview, unchanged, hrun,
    hlegal, (passes holds).1, region, same⟩

end Staging
