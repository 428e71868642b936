import Staging.Command
import Staging.Proofs.Closed
import Staging.Proofs.Finest
import Staging.Proofs.Grounded
import Staging.Proofs.Naming

namespace Staging

/-- Whatever is asked of a state that a run has come to has an answer: of its region and its edges,
which can be written and drawn, of what is planned, where no count falls below its lowest, and of
its diagnostics, which point between characters of the source. -/
structure RunState.Unfailing (source : String) (o : Options) (s : RunState) : Prop where
  closed : s.region.Closed
  written : s.region.text.isSome = true
  named : ∀ n ∈ s.region.attached, (s.region.describe n).isSome = true
  drawn : ∀ levels, (s.region.dot s.region.deps levels).isSome = true
  rendered : ∀ d ∈ s.diagnostics, ∀ path, (d.render path source).isSome = true
  edges : ∀ g, s.artifacts.deps = some g →
    g.Known s.region ∧ ∀ levels, (s.region.dot g levels).isSome = true
  levels : ∀ levels, s.artifacts.levels = some levels → levels.Known s.region
  bypasses : ∀ b, s.artifacts.bypasses = some b → b.Known s.region ∧
    ∀ below, 1 ≤ (walkTo b.merges (max o.minGran 1) below).countdown

/-- What a run has come to from a region, and the diagnostics that it told. -/
structure RunState.Continues (P : Nat → Prop) (r : Region) (o : Options) (s : RunState)
    (ds : List Diagnostic) : Prop where
  tracks : s.artifacts.Tracks r o
  wellFormed : s.region.WellFormed
  augments : r.Augments s.region
  placed : ∀ d ∈ ds, d.Placed P

section Told

variable {P : Nat → Prop} {r : Region}

theorem Obstacle.toDiagnostic_placed (spanned : r.Spanned P) {obstacle : Obstacle} {d : Diagnostic}
    (h : obstacle.toDiagnostic r = some d) : d.Placed P := by
  cases obstacle <;>
    simp only [toDiagnostic, bind, Option.bind_eq_some_iff, pure, Option.some.injEq] at h
  case topologyViolation producer successor backward =>
    obtain ⟨node, hn, _, _, other, ho, _, _, rfl⟩ := h
    refine ⟨spanned.nodes producer node hn, fun place hp => ?_⟩
    rw [List.mem_singleton.mp hp]
    exact spanned.nodes successor other ho
  case unsupportedCarrier producer carrier type =>
    obtain ⟨node, hn, _, _, rfl⟩ := h
    exact Diagnostic.placed_of_lone (spanned.nodes producer node hn) rfl

theorem Certificate.toDiagnostics_placed (c : Certificate) (here : P r.span.start) :
    ∀ d ∈ c.toDiagnostics r, d.Placed P := by
  intro d hd
  unfold toDiagnostics at hd
  split at hd
  next => cases hd
  next =>
    obtain rfl := List.mem_singleton.mp hd
    exact Diagnostic.placed_of_lone here rfl

end Told

section Runs

variable {P : Nat → Prop} {r : Region} {o : Options} {s : RunState} {ds : List Diagnostic}
  {print : String}

theorem RunState.Of.continues (hs : s.Of r print) (wf : r.WellFormed)
    (tracks : s.artifacts.Tracks r o) (placed : ∀ d ∈ ds, d.Placed P) :
    s.Continues P r o ds := by
  obtain ⟨rfl, -⟩ := hs
  exact ⟨tracks, wf, .refl _, placed⟩

theorem Artifacts.tracks_none (r : Region) (o : Options) : Artifacts.none.Tracks r o :=
  ⟨nofun, nofun, nofun⟩

/-- A run up to any pass comes to an end, and has found out nothing wrong. -/
theorem Region.WellFormed.leads_continues (wf : r.WellFormed) (spanned : r.Spanned P)
    (start : RunState.start r = some s) (terminal : Pass) (o : Options) :
    s.Leads o terminal.required fun t _ ds => t.Continues P r o ds := by
  obtain ⟨print, hprint, hs⟩ := RunState.of_start start
  have tracks : s.artifacts.Tracks r o := by
    obtain ⟨_, -, rfl⟩ := Option.map_eq_some_iff.mp start
    exact Artifacts.tracks_none r o
  -- Up to the plan, the region is the one that the run started from.
  have found {t : RunState} (ht : t.Of r print) (follows : s.Follows t r o) :
      t.Continues P r o [] := ht.continues wf (follows tracks) (by simp)
  have stuck {t : RunState} {obstacle : Obstacle} {d : Diagnostic} (ht : t.Of r print)
      (follows : s.Follows t r o) (hd : obstacle.toDiagnostic r = some d) :
      t.Continues P r o [d] := by
    refine ht.continues wf (follows tracks) fun e he => ?_
    rw [List.mem_singleton.mp he]
    exact Obstacle.toDiagnostic_placed spanned hd
  cases terminal with
  | index =>
    refine .next rfl (.nil (found ⟨hs.region, hs.inputFingerprint⟩ fun tracks => ?_))
    exact ⟨tracks.deps, tracks.levels, tracks.bypasses⟩
  | successors => exact .deps hs fun t ht follows _ => .nil (found ht follows)
  | levels =>
    refine .deps hs fun t ht first deps => .levels wf ht deps (fun _ u _ hu second _ _ => ?_)
      fun obstacle d u _ _ hd hu second => ?_
    · exact .nil (found hu (second ∘ first))
    · exact stuck hu (second ∘ first) hd
  | bypasses =>
    refine wf.leads_plan hs (fun _ t _ ht follows _ _ => ?_) fun obstacle d t _ hd ht follows => ?_
    · exact .nil (found ht follows)
    · exact stuck ht follows hd
  | forward =>
    refine wf.leads_plan hs (fun plan t hplan ht first leveled planned => ?_)
      fun obstacle d t _ hd ht follows => ?_
    · obtain ⟨f, built, hforward, threaded⟩ := wf.forward hplan
      refine .forward ht leveled planned hforward fun u region _ second _ _ _ => .nil ?_
      refine ⟨second (first tracks), ?_, ?_, by simp⟩
      · rw [region]
        exact threaded.wellFormed
      · rw [region]
        exact forward_augments hforward
    · exact stuck ht follows hd
  | compact =>
    refine wf.leads_legalize hprint hs (fun report out t hlegal region follows _ => ?_)
      fun obstacle d t _ hd ht follows => ?_
    · obtain ⟨_, _, _, _, _, legal⟩ := wf.legalize hlegal
      have augments := legalize_augments hlegal
      refine ⟨follows tracks, ?_, ?_, ?_⟩
      · rw [region]
        exact legal.wellFormed
      · rw [region]
        exact augments
      · refine Certificate.toDiagnostics_placed _ ?_
        rw [augments.span]
        exact spanned.span
    · exact stuck ht follows hd

theorem RunState.Continues.unfailing {source : String} (wf : r.WellFormed)
    (h : s.Continues (IsBoundary source.toList) r o s.diagnostics) : s.Unfailing source o := by
  obtain ⟨tracks, wf', augments, placed⟩ := h
  have nodes := augments.nodeCount
  have values := augments.valueCount
  constructor
  case closed => exact wf'.closed
  case written => exact wf'.text_isSome
  case named => exact fun n hn => wf'.toCoherent.describe_isSome (wf'.closed.attached n hn)
  case drawn => exact wf'.dot_isSome wf'.deps_known
  case rendered => exact fun d hd path => (placed d hd).renders path
  case edges =>
    intro g hg
    obtain rfl := tracks.deps g hg
    have known := wf.deps_known.grow nodes values
    exact ⟨known, wf'.dot_isSome known⟩
  case levels => exact fun levels hl => (wf.levels_bounded (tracks.levels levels hl)).grow nodes
  case bypasses =>
    intro b hb
    obtain ⟨levels, hl, hb⟩ := tracks.bypasses b hb
    refine ⟨(wf.bypasses_known hl hb).grow nodes values, ?_⟩
    exact walkTo_countdown b.merges (le_max_right o.minGran 1)

/-- A run up to any pass comes to a state that answers whatever is asked of it. -/
theorem Region.WellFormed.exists_unfailing {source : String} (wf : r.WellFormed)
    (spanned : r.Spanned (IsBoundary source.toList)) (terminal : Pass) (o : Options) :
    ∃ s outcome, RunState.start r = some s ∧ s.run terminal o = some outcome ∧
      outcome.state.Unfailing source o := by
  obtain ⟨print, hprint⟩ := wf.fingerprint_eq
  have start : RunState.start r = some ⟨r, print, .none, [], false, []⟩ := by
    rw [RunState.start, hprint]
    rfl
  obtain ⟨outcome, hrun, continues⟩ := wf.leads_continues spanned start terminal o
  obtain ⟨tells, -⟩ := RunState.runPasses_tells hrun
  have told : outcome.state.diagnostics = outcome.announced.flatMap Prod.snd := tells.diagnostics
  refine ⟨_, outcome, start, hrun, RunState.Continues.unfailing wf ?_⟩
  rw [told]
  exact continues

end Runs

section Loaded

variable {source : String} {loaded : Loaded}

/-- Runs over the regions of a source text come to an end. -/
theorem load_runAll (h : load source = .ok loaded) (terminal : Pass) (o : Options) :
    ∃ outcomes, runAll loaded.regions terminal o = some outcomes ∧
      ∀ outcome ∈ outcomes, outcome.state.Unfailing source o := by
  have each : ∀ r ∈ loaded.regions, ∃ outcome, ((RunState.start r).bind fun s =>
      s.run terminal o) = some outcome ∧ outcome.state.Unfailing source o := by
    intro r hr
    obtain ⟨s, outcome, start, hrun, unfailing⟩ :=
      (load_wellFormed h r hr).exists_unfailing (load_spanned h r hr) terminal o
    exact ⟨outcome, by rw [start, Option.bind_some, hrun], unfailing⟩
  obtain ⟨outcomes, hruns⟩ := Option.isSome_iff_exists.mp (mapM_isSome fun r hr => by
    obtain ⟨outcome, hrun, -⟩ := each r hr
    exact Option.isSome_iff_exists.mpr ⟨outcome, hrun⟩)
  refine ⟨outcomes, hruns, fun outcome ho => ?_⟩
  obtain ⟨r, hr, hrun⟩ := mem_of_mapM hruns outcome ho
  obtain ⟨outcome', hrun', unfailing⟩ := each r hr
  cases hrun.symm.trans hrun'
  exact unfailing

theorem moduleText_isSome {rs : List Region} (h : ∀ r ∈ rs, r.text.isSome = true) :
    (moduleText rs).isSome = true := by
  rw [moduleText, Option.isSome_map]
  exact mapM_isSome h

theorem printDiagnostics_isSome {ds : List Diagnostic}
    (h : ∀ d ∈ ds, ∀ path, (d.render path source).isSome = true) (path : String) :
    (printDiagnostics path source ds).isSome = true := by
  obtain ⟨lines, hlines⟩ := Option.isSome_iff_exists.mp (mapM_isSome fun d hd => h d hd path)
  simp [printDiagnostics, hlines]

end Loaded

section Printed

variable {source : String} {o : Options} {s : RunState}

theorem RunState.Unfailing.levelsText_isSome (h : s.Unfailing source o) :
    s.levelsText.isSome = true := by
  unfold levelsText
  cases s.artifacts.levels with
  | none => rfl
  | some levels =>
    have line : ∀ n ∈ s.region.dataflowNodes, (levelLine s.region levels n).isSome = true := by
      intro n hn
      unfold levelLine
      cases levels.get? n with
      | none => rfl
      | some level =>
        rw [Option.isSome_map]
        exact h.named n (h.closed.body n (List.mem_filter.mp hn).1)
    obtain ⟨lines, hlines⟩ := Option.isSome_iff_exists.mp (mapM_isSome line)
    simp [hlines]

theorem RunState.Unfailing.graphText_isSome (h : s.Unfailing source o) :
    s.graphText.isSome = true := by
  unfold graphText
  cases hg : s.artifacts.deps with
  | none => rfl
  | some g =>
    rw [Option.isSome_map]
    exact (h.edges g hg).2 s.artifacts.levels

/-- Whatever a command is to write about regions that went through their passes can be written. -/
theorem Emit.text_isSome (emit : Emit) {states : List RunState}
    (h : ∀ s ∈ states, s.Unfailing source o) : (emit.text o states).isSome = true := by
  cases emit with
  | ir =>
    refine moduleText_isSome fun r hr => ?_
    obtain ⟨s, hs, rfl⟩ := List.mem_map.mp hr
    exact (h s hs).written
  | levels =>
    rw [text, Option.isSome_map]
    exact mapM_isSome fun s hs => (h s hs).levelsText_isSome
  | graph =>
    rw [text, Option.isSome_map]
    exact mapM_isSome fun s hs => (h s hs).graphText_isSome
  | report => rfl

theorem Invocation.emitLoaded_isSome (inv : Invocation) {loaded : Loaded}
    (h : load source = .ok loaded) (o : Options) :
    (inv.emitLoaded source loaded o).isSome = true := by
  obtain ⟨outcomes, hruns, unfailing⟩ := load_runAll h inv.emit.terminal o
  have states : ∀ s ∈ outcomes.map RunOutcome.state, s.Unfailing source o := by
    intro s hs
    obtain ⟨outcome, ho, rfl⟩ := List.mem_map.mp hs
    exact unfailing outcome ho
  obtain ⟨printed, hp⟩ := Option.isSome_iff_exists.mp (mapM_isSome fun s hs =>
    printDiagnostics_isSome (states s hs).rendered inv.source)
  obtain ⟨text, ht⟩ := Option.isSome_iff_exists.mp (inv.emit.text_isSome states)
  unfold emitLoaded
  simp only [hruns, hp, ht, bind, Option.bind]
  split
  next => rfl
  next => rfl

/-- No fault ends the command, whatever the files hold. -/
theorem Invocation.result_isSome (inv : Invocation) (source : Except String String)
    (config : Option (Except String String)) : (inv.result source config).isSome = true := by
  unfold result
  cases source with
  | error reason => rfl
  | ok source =>
    simp only
    cases hload : load source with
    | error ds =>
      obtain ⟨printed, hp⟩ := Option.isSome_iff_exists.mp
        (printDiagnostics_isSome (fun d hd => (load_errors_placed hload d hd).renders) inv.source)
      simp [hp]
    | ok loaded =>
      obtain ⟨warnings, hw⟩ := Option.isSome_iff_exists.mp
        (printDiagnostics_isSome (fun d hd => (load_warnings_placed hload d hd).renders) inv.source)
      simp only [hw, bind, Option.bind]
      cases inv.options loaded.options config with
      | error message => rfl
      | ok o =>
        obtain ⟨result, hr⟩ := Option.isSome_iff_exists.mp (inv.emitLoaded_isSome hload o)
        simp [hr]

end Printed

end Staging
