import Staging.Proofs.Passes
import Staging.Proofs.Straying

namespace Staging

section Run

variable {r : Region} {o : Options}

/-- A run from the start up to the last pass ends as making the region legal does, up to what
the certificate says of what comes out. -/
theorem Region.WellFormed.exists_run (wf : r.WellFormed) (o : Options) :
    ∃ s outcome, RunState.start r = some s ∧ s.run .compact o = some outcome ∧
      ((∃ stop, r.legalize o = .error stop ∧ (outcome.error = some (.passFailed .levels) ∨
          outcome.error = some (.passFailed .bypasses))) ∨
        ∃ report out, r.legalize o = .ok (report, out) ∧ outcome.error =
          if (out.certify o).holds then none else some (.passFailed .compact)) := by
  obtain ⟨print, hprint⟩ := wf.fingerprint_eq
  have start : RunState.start r = some ⟨r, print, .none, [], false, []⟩ := by
    rw [RunState.start, hprint]
    rfl
  have leads : RunState.Leads ⟨r, print, .none, [], false, []⟩ o (Pass.required .compact)
      fun _ error _ => (∃ stop, r.legalize o = .error stop ∧
        (error = some (.passFailed .levels) ∨ error = some (.passFailed .bypasses))) ∨
        ∃ report out, r.legalize o = .ok (report, out) ∧ error =
          if (out.certify o).holds then none else some (.passFailed .compact) :=
    wf.leads_compact hprint ⟨rfl, rfl⟩
      (fun report out _ hlegal _ _ => .inr ⟨report, out, hlegal, rfl⟩)
      fun obstacle _ _ hlegal _ _ => .inl ⟨_, hlegal, by cases obstacle <;> simp [Obstacle.pass]⟩
  obtain ⟨outcome, hrun, ended⟩ := leads
  exact ⟨_, outcome, start, hrun, ended⟩

/-- Without a plan, a run fails at the pass that could not plan. -/
theorem Region.WellFormed.run_of_plan_error (wf : r.WellFormed) {stop : Stop}
    (h : r.plan o = .error stop) : ∃ s outcome, RunState.start r = some s ∧
      s.run .compact o = some outcome ∧ (outcome.error = some (.passFailed .levels) ∨
        outcome.error = some (.passFailed .bypasses)) := by
  obtain ⟨s, outcome, start, run, ⟨_, _, error⟩ | ⟨_, _, hlegal, _⟩⟩ := wf.exists_run o
  · exact ⟨s, outcome, start, run, error⟩
  · cases hlegal.symm.trans (wf.legalize_eq_error.mpr h)

/-- Once there is a plan, a run fails at the last pass or not at all. -/
theorem Region.WellFormed.run_of_plan (wf : r.WellFormed) {plan : Plan} (h : r.plan o = .ok plan) :
    ∃ s outcome report out built f, RunState.start r = some s ∧
      s.run .compact o = some outcome ∧ r.legalize o = .ok (report, out) ∧
      r.Legalized o plan built f out ∧
      outcome.error =
        if (out.certify o).holds then none else some (.passFailed .compact) := by
  obtain ⟨f, built, out, _, report, _, _, hlegal, legal⟩ := wf.legalize_of_plan h
  obtain ⟨s, outcome, start, run, ⟨_, fails, _⟩ | ⟨_, _, hlegal', error⟩⟩ := wf.exists_run o
  · cases hlegal.symm.trans fails
  · cases hlegal.symm.trans hlegal'
    exact ⟨s, outcome, report, out, built, f, start, run, hlegal, legal, error⟩

end Run

/-- A run up to the last pass fails where it could not plan, or ends with the certificate of the
region that was made legal. This holds just where every dependence that came with the plan,
without having been planned for, goes down by one stage at most. -/
theorem run_compact_iff {r : Region} {o : Options} (reachable : r.Reachable) :
    ∃ s outcome, RunState.start r = some s ∧ s.run .compact o = some outcome ∧
      (∀ stop, r.plan o = .error stop → outcome.error = some (.passFailed .levels) ∨
        outcome.error = some (.passFailed .bypasses)) ∧
      ∀ plan, r.plan o = .ok plan → ∃ report out, r.legalize o = .ok (report, out) ∧
        outcome.error =
          (if (out.certify o).holds then none else some (.passFailed .compact)) ∧
        ((out.certify o).holds = true ↔ ∀ upper lower, plan.Strays r upper lower →
          stepsDown o (o.stageOf plan.bypasses.merges upper)
            (o.stageOf plan.bypasses.merges lower) = true) := by
  cases h : r.plan o with
  | error stop =>
    obtain ⟨s, outcome, start, run, error⟩ := reachable.wellFormed.run_of_plan_error h
    exact ⟨s, outcome, start, run, fun _ _ => error, fun _ h => (by cases h)⟩
  | ok plan =>
    obtain ⟨s, outcome, report, out, built, f, start, run, hlegal, legal, error⟩ :=
      reachable.wellFormed.run_of_plan h
    refine ⟨s, outcome, start, run, fun _ h => (by cases h), fun _ h => ?_⟩
    cases h
    exact ⟨report, out, hlegal, error, legal.holds_iff⟩

theorem run_compact_iff_forwarded : ∃ loaded r s outcome,
    load skippingSource = .ok loaded ∧ r ∈ loaded.regions ∧ RunState.start r = some s ∧
      s.run .compact ⟨true, 1⟩ = some outcome ∧ outcome.error = none := by
  obtain ⟨loaded, hload, r, hr, report, out, hlegal, test⟩ :=
    @exists_of_anyLegalized skippingSource _ (by rfl) ⟨true, 1⟩
      (fun _ out => (out.certify ⟨true, 1⟩).holds) (by decide +kernel)
  have reachable : r.Reachable := .load hload hr
  obtain ⟨plan, _, _, hplan, _⟩ := reachable.wellFormed.legalize hlegal
  obtain ⟨s, outcome, start, run, _, planned⟩ := run_compact_iff (o := ⟨true, 1⟩) reachable
  obtain ⟨report', out', hlegal', error, _⟩ := planned plan hplan
  cases hlegal.symm.trans hlegal'
  exact ⟨loaded, r, s, outcome, hload, hr, start, run, by rw [error, if_pos test]⟩

/-- A source text in which the third loop writes a buffer that the first one writes too, one stage
below it, and the last one reads the buffer two stages below. -/
def refilledLateSource : String :=
  "func @k(%s: i1, %m: memref<1xi1>, %p: memref<1xi1>, %q: memref<1xi1>, %o: memref<1xi1>) {
    for %i = 0 to 1 {
      store %s, %m
      store %s, %p
    }
    for %j = 0 to 1 {
      %v = load %p : i1
      store %v, %q
    }
    for %k = 0 to 1 {
      store %s, %m
    }
    for %l = 0 to 1 {
      %w = load %q : i1
      %x = load %m : i1
      store %x, %o
    }
  }"

/-- A run can fail at its last pass: a region is made legal, and its certificate does not hold. -/
theorem run_fails_at_compact : ∃ loaded r s outcome report out,
    load refilledLateSource = .ok loaded ∧ r ∈ loaded.regions ∧ RunState.start r = some s ∧
      s.run .compact ⟨true, 1⟩ = some outcome ∧
      outcome.error = some (.passFailed .compact) ∧ r.legalize ⟨true, 1⟩ = .ok (report, out) ∧
      (out.certify ⟨true, 1⟩).noSkippedStage = false := by
  obtain ⟨loaded, hload, r, hr, report, out, hlegal, test⟩ :=
    @exists_of_anyLegalized refilledLateSource _ (by rfl) ⟨true, 1⟩
      (fun _ out => !(out.certify ⟨true, 1⟩).noSkippedStage) (by decide +kernel)
  have wf := load_wellFormed hload r hr
  obtain ⟨plan, _, _, hplan, _⟩ := wf.legalize hlegal
  obtain ⟨s, outcome, report', out', _, _, start, run, hlegal', _, error⟩ := wf.run_of_plan hplan
  cases hlegal.symm.trans hlegal'
  have skipped : (out.certify ⟨true, 1⟩).noSkippedStage = false := by simpa using test
  have fails : (out.certify ⟨true, 1⟩).holds = false := by
    simp [Certificate.holds, Certificate.obligations, skipped]
  exact ⟨loaded, r, s, outcome, report, out, hload, hr, start, run,
    by rw [error, fails]; rfl, hlegal, skipped⟩

end Staging
