import Staging.Proofs.Blocking
import Staging.Run

namespace Staging

section Obstacles

variable {r : Region} {o : Options} {levels : Levels}

theorem Region.Coherent.describe_isSome (coherent : r.Coherent) {n : NodeId}
    (known : n.index < r.nodes.size) : (r.describe n).isSome = true := by
  obtain ⟨node, hnode⟩ := node?_eq_some known
  have head : (r.headText node).isSome = true := by
    unfold headText
    split
    next => rfl
    next v lower upper body hk =>
      have iv : v ∈ r.ivs n := by simp [ivs, kind?, hnode, hk, NodeKind.inductionVar?]
      rw [Option.isSome_map]
      exact valueText_isSome (known_of_definition? (coherent.ivDefined n v iv))
    next => rfl
  obtain ⟨head, hhead⟩ := Option.isSome_iff_exists.mp head
  unfold describe
  simp only [hnode, hhead, bind, Option.bind]
  cases hres : node.results.head? with
  | none => rfl
  | some v =>
    have result : v ∈ r.results n := by
      simpa [results, hnode] using List.mem_of_mem_head? hres
    obtain ⟨text, htext⟩ := Option.isSome_iff_exists.mp
      (valueText_isSome (coherent.result_known result))
    simp [htext]

theorem Obstacle.isError_of_toDiagnostic {obstacle : Obstacle} {d : Diagnostic}
    (h : obstacle.toDiagnostic r = some d) : d.isError = true := by
  cases obstacle <;>
    simp only [toDiagnostic, bind, Option.bind_eq_some_iff, pure, Option.some.injEq] at h
  case topologyViolation =>
    obtain ⟨_, _, _, _, _, _, _, _, rfl⟩ := h
    rfl
  case unsupportedCarrier =>
    obtain ⟨_, _, _, _, rfl⟩ := h
    rfl

/-- The pass that meets an obstacle. -/
def Obstacle.pass : Obstacle → Pass
  | .topologyViolation .. => .levels
  | .unsupportedCarrier .. => .bypasses

/-- What stops the search for levels can be told in terms of the source. -/
theorem Region.WellFormed.levels_error (wf : r.WellFormed) {obstacle : Obstacle}
    (h : r.levels r.deps = .error obstacle) :
    obstacle.pass = .levels ∧ ∃ d, obstacle.toDiagnostic r = some d := by
  obtain ⟨p, c, ⟨⟨carrier, earlier, later, edges, _, _⟩, _⟩, rfl⟩ := wf.levels_eq_error h
  have feeds := wf.mem_from.mp (show (⟨carrier, c⟩ : Edge) ∈ r.deps.from p by simp [edges])
  have hp := wf.bodyKnown _ feeds.mem_left
  have hc := wf.bodyKnown _ feeds.mem_right
  obtain ⟨node, hnode⟩ := node?_eq_some hp
  obtain ⟨other, hother⟩ := node?_eq_some hc
  obtain ⟨name, hname⟩ := Option.isSome_iff_exists.mp (wf.toCoherent.describe_isSome hp)
  obtain ⟨name', hname'⟩ := Option.isSome_iff_exists.mp (wf.toCoherent.describe_isSome hc)
  refine ⟨rfl, ?_⟩
  simp [Obstacle.toDiagnostic, hnode, hother, hname, hname']

/-- Planning stops only where an edge carries what cannot be copied, and this can be told in
terms of the source. -/
theorem Region.WellFormed.bypasses_error (wf : r.WellFormed)
    (hl : r.levels r.deps = .ok levels) {stop : Stop}
    (h : r.bypasses r.deps levels o = .error stop) :
    ∃ obstacle d, stop = .blocked obstacle ∧ obstacle.pass = .bypasses ∧
      obstacle.toDiagnostic r = some d := by
  obtain ⟨_, p, v, type, ⟨_, carrier, c, _, _, _, edge, _, _, _, rfl, htype, _⟩, rfl⟩ :=
    wf.bypasses_eq_error hl h
  have feeds := wf.mem_deps.mp edge
  have carried := wf.sound.known_of_mentions feeds.mem_right feeds.mentions
  obtain ⟨node, hnode⟩ := node?_eq_some (wf.bodyKnown _ feeds.mem_left)
  obtain ⟨name, hname⟩ := Option.isSome_iff_exists.mp (valueText_isSome carried)
  simp only at hname
  simp [Obstacle.toDiagnostic, Obstacle.pass, hnode, hname]

end Obstacles

theorem Certificate.toDiagnostics_of_not_holds {c : Certificate} (h : c.holds = false)
    (r : Region) : ∃ d, c.toDiagnostics r = [d] ∧ d.code = some .certificateFailed ∧
      d.isError = true := by
  unfold toDiagnostics
  rw [h]
  exact ⟨_, rfl, rfl, rfl⟩

/-- What a run announces: its passes, in order, each with the diagnostics that the state gains,
up to and with the first that fails. -/
structure RunOutcome.Tells (outcome : RunOutcome) (s : RunState) (ps : List Pass) : Prop where
  order : outcome.announced.map Prod.fst <+: ps
  whole : outcome.error = none → outcome.announced.map Prod.fst = ps
  failing : ∀ p, outcome.error = some (.passFailed p) → ∃ earlier ds,
    outcome.announced = earlier ++ [(p, ds)] ∧ anyError ds = true
  quiet : ∀ p ds, (p, ds) ∈ outcome.announced → anyError ds = true →
    outcome.error = some (.passFailed p)
  diagnostics : outcome.state.diagnostics = s.diagnostics ++ outcome.announced.flatMap Prod.snd
  finished : outcome.state.finished = s.finished ++ outcome.announced.map Prod.fst
  inputFingerprint : outcome.state.inputFingerprint = s.inputFingerprint

/-- What a pass leaves alone. -/
structure RunState.Keeps (s s' : RunState) (p : Pass) : Prop where
  diagnostics : s'.diagnostics = s.diagnostics
  finished : s'.finished = s.finished
  inputFingerprint : s'.inputFingerprint = s.inputFingerprint
  region : p.mutates = false → s'.region = s.region

section Runs

variable {o : Options} {s s' : RunState} {p : Pass} {ps : List Pass} {ds : List Diagnostic}
  {outcome : RunOutcome}

theorem exceptBind_eq_ok {ε α β : Type} {x : Except ε α} {f : α → Except ε β} {b : β} :
    x >>= f = .ok b ↔ ∃ a, x = .ok a ∧ f a = .ok b := by
  cases x <;> simp [bind, Except.bind]

theorem RunState.plan_keeps {α : Type} {result : Except Stop α} {keep : α → Artifacts}
    (h : s.plan result keep = .ok (s', ds)) : s.Keeps s' p := by
  unfold plan at h
  split at h
  next =>
    cases h
    exact ⟨rfl, rfl, rfl, fun _ => rfl⟩
  next => cases h
  next =>
    obtain ⟨d, _, hd⟩ := exceptBind_eq_ok.mp h
    cases hd
    exact ⟨rfl, rfl, rfl, fun _ => rfl⟩

theorem RunState.runPass_keeps (h : s.runPass o p = .ok (s', ds)) : s.Keeps s' p := by
  cases p <;> unfold runPass at h
  case index =>
    cases h
    exact ⟨rfl, rfl, rfl, fun _ => rfl⟩
  case successors =>
    obtain ⟨_, _, h⟩ := exceptBind_eq_ok.mp h
    obtain ⟨_, _, h⟩ := exceptBind_eq_ok.mp h
    cases h
    exact ⟨rfl, rfl, rfl, fun _ => rfl⟩
  case levels =>
    obtain ⟨_, _, h⟩ := exceptBind_eq_ok.mp h
    exact plan_keeps h
  case bypasses =>
    obtain ⟨_, _, h⟩ := exceptBind_eq_ok.mp h
    obtain ⟨_, _, h⟩ := exceptBind_eq_ok.mp h
    exact plan_keeps h
  case forward =>
    obtain ⟨_, _, h⟩ := exceptBind_eq_ok.mp h
    obtain ⟨_, _, h⟩ := exceptBind_eq_ok.mp h
    obtain ⟨_, _, h⟩ := exceptBind_eq_ok.mp h
    cases h
    exact ⟨rfl, rfl, rfl, nofun⟩
  case compact =>
    obtain ⟨_, _, h⟩ := exceptBind_eq_ok.mp h
    obtain ⟨_, _, h⟩ := exceptBind_eq_ok.mp h
    cases h
    exact ⟨rfl, rfl, rfl, nofun⟩

theorem RunState.runPasses_cons (h : s.runPass o p = .ok (s', ds)) :
    s.runPasses o (p :: ps) = if anyError ds then
        some ⟨s'.finish p ds, some (.passFailed p), [(p, ds)]⟩
      else ((s'.finish p ds).runPasses o ps).map fun outcome =>
        { outcome with announced := (p, ds) :: outcome.announced } := by
  simp only [runPasses, h]

theorem RunOutcome.Tells.cons (keeps : s.Keeps s' p) (quiet : anyError ds = false)
    (h : outcome.Tells (s'.finish p ds) ps) :
    { outcome with announced := (p, ds) :: outcome.announced }.Tells s (p :: ps) where
  order := by simpa using h.order
  whole := fun done => by simpa using h.whole done
  failing := fun q failed => by
    obtain ⟨earlier, ds', announced, loud⟩ := h.failing q failed
    exact ⟨(p, ds) :: earlier, ds', by simp [announced], loud⟩
  quiet := fun q ds' member loud => by
    rcases List.mem_cons.mp member with same | member
    · cases same
      exact absurd loud (by simp [quiet])
    · exact h.quiet q ds' member loud
  diagnostics := by
    rw [h.diagnostics]
    simp [RunState.finish, keeps.diagnostics]
  finished := by
    rw [h.finished]
    simp [RunState.finish, keeps.finished]
  inputFingerprint := h.inputFingerprint.trans keeps.inputFingerprint

theorem RunOutcome.Tells.failed (keeps : s.Keeps s' p) (loud : anyError ds = true) :
    RunOutcome.Tells ⟨s'.finish p ds, some (.passFailed p), [(p, ds)]⟩ s (p :: ps) where
  order := ⟨ps, rfl⟩
  whole := nofun
  failing := fun q failed => by
    cases failed
    exact ⟨[], ds, rfl, loud⟩
  quiet := fun q ds' member _ => by
    cases List.mem_singleton.mp member
    rfl
  diagnostics := by simp [RunState.finish, keeps.diagnostics]
  finished := by simp [RunState.finish, keeps.finished]
  inputFingerprint := keeps.inputFingerprint

/-- Every run announces what it does, and passes that do not change the region leave it alone. -/
theorem RunState.runPasses_tells (h : s.runPasses o ps = some outcome) :
    outcome.Tells s ps ∧
      ((∀ p ∈ ps, p.mutates = false) → outcome.state.region = s.region) := by
  induction ps generalizing s outcome with
  | nil =>
    cases h
    exact ⟨⟨List.prefix_rfl, fun _ => rfl, nofun, nofun, by simp, by simp, rfl⟩, fun _ => rfl⟩
  | cons p ps ih =>
    cases hpass : s.runPass o p with
    | error stop =>
      cases stop with
      | fault => simp [runPasses, hpass] at h
      | missing artifact =>
        obtain rfl : _ = outcome := by simpa [runPasses, hpass] using h
        exact ⟨⟨List.nil_prefix, nofun, nofun, nofun, by simp, by simp, rfl⟩, fun _ => rfl⟩
    | ok found =>
      obtain ⟨s', ds⟩ := found
      have keeps := runPass_keeps hpass
      rw [runPasses_cons hpass] at h
      cases loud : anyError ds with
      | true =>
        obtain rfl : _ = outcome := by simpa [loud] using h
        exact ⟨.failed keeps loud, fun readOnly => keeps.region (readOnly p (by simp))⟩
      | false =>
        obtain ⟨rest, hrest, rfl⟩ : ∃ rest, (s'.finish p ds).runPasses o ps = some rest ∧
            { rest with announced := (p, ds) :: rest.announced } = outcome := by
          simpa [loud] using h
        obtain ⟨tells, unchanged⟩ := ih hrest
        refine ⟨.cons keeps loud tells, fun readOnly => ?_⟩
        exact (unchanged fun q hq => readOnly q (by simp [hq])).trans
          (keeps.region (readOnly p (by simp)))

end Runs

/-- Some passes, run from some state, lead to a state, an error and new diagnostics of which
something holds. -/
def RunState.Leads (s : RunState) (o : Options) (ps : List Pass)
    (Q : RunState → Option RunError → List Diagnostic → Prop) : Prop :=
  ∃ outcome, s.runPasses o ps = some outcome ∧
    Q outcome.state outcome.error (outcome.announced.flatMap Prod.snd)

/-- A state on the way to a plan: the region and its fingerprint are still those of the start. -/
structure RunState.Of (s : RunState) (r : Region) (print : String) : Prop where
  region : s.region = r
  inputFingerprint : s.inputFingerprint = print

/-- What a run has found out about a region is what planning finds out about it. -/
structure Artifacts.Tracks (a : Artifacts) (r : Region) (o : Options) : Prop where
  deps : ∀ g, a.deps = some g → g = r.deps
  levels : ∀ levels, a.levels = some levels → r.levels r.deps = .ok levels
  bypasses : ∀ b, a.bypasses = some b → ∃ levels, r.levels r.deps = .ok levels ∧
    r.bypasses r.deps levels o = .ok b

/-- What a later state knows about a region is right if what the first one knows is. -/
def RunState.Follows (s s' : RunState) (r : Region) (o : Options) : Prop :=
  s.artifacts.Tracks r o → s'.artifacts.Tracks r o

section Leads

variable {r : Region} {print : String} {o : Options} {s s' : RunState} {p : Pass} {ps : List Pass}
  {ds : List Diagnostic} {Q : RunState → Option RunError → List Diagnostic → Prop}

theorem RunState.Leads.nil (h : Q s none []) : s.Leads o [] Q :=
  ⟨_, rfl, h⟩

theorem RunState.Leads.next (h : s.runPass o p = .ok (s', []))
    (rest : (s'.finish p []).Leads o ps Q) : s.Leads o (p :: ps) Q := by
  obtain ⟨outcome, hrun, hQ⟩ := rest
  refine ⟨{ outcome with announced := (p, []) :: outcome.announced }, ?_, hQ⟩
  rw [runPasses_cons h, hrun]
  rfl

theorem RunState.Leads.failed (h : s.runPass o p = .ok (s', ds)) (loud : anyError ds = true)
    (hQ : Q (s'.finish p ds) (some (.passFailed p)) ds) : s.Leads o (p :: ps) Q := by
  refine ⟨⟨s'.finish p ds, some (.passFailed p), [(p, ds)]⟩, ?_, by simpa using hQ⟩
  rw [runPasses_cons h, if_pos loud]

/-- The first two passes find the edges again, whatever the state held of earlier runs. -/
theorem RunState.Leads.deps (hs : s.Of r print)
    (rest : ∀ s' : RunState, s'.Of r print → s.Follows s' r o → s'.artifacts.deps = some r.deps →
      s'.Leads o ps Q) :
    s.Leads o (.index :: .successors :: ps) Q := by
  obtain ⟨rfl, rfl⟩ := hs
  have follows (tracks : s.artifacts.Tracks s.region o) : Artifacts.Tracks { s.artifacts with
      footprint := some s.region.footprint, uses := some s.region.uses,
      deps := some s.region.deps } s.region o :=
    ⟨fun _ h => (Option.some.inj h).symm, tracks.levels, tracks.bypasses⟩
  exact .next rfl (.next rfl (rest _ ⟨rfl, rfl⟩ follows rfl))

/-- The search for levels finds them, or fails and tells why. -/
theorem RunState.Leads.levels (wf : r.WellFormed) (hs : s.Of r print)
    (deps : s.artifacts.deps = some r.deps)
    (found : ∀ (levels : Levels) (s' : RunState), r.levels r.deps = .ok levels → s'.Of r print →
      s.Follows s' r o → s'.artifacts.deps = some r.deps → s'.artifacts.levels = some levels →
      s'.Leads o ps Q)
    (stuck : ∀ (obstacle : Obstacle) (d : Diagnostic) (s' : RunState),
      r.levels r.deps = .error obstacle → obstacle.pass = .levels →
      obstacle.toDiagnostic r = some d → s'.Of r print → s.Follows s' r o →
      Q s' (some (.passFailed .levels)) [d]) :
    s.Leads o (.levels :: ps) Q := by
  obtain ⟨rfl, rfl⟩ := hs
  cases hl : s.region.levels s.region.deps with
  | ok levels =>
    have step : s.runPass o .levels =
        .ok ({ s with artifacts := { s.artifacts with levels := some levels } }, []) := by
      simp [runPass, need, deps, hl, blockedBy, plan, bind, Except.bind]
    have follows (tracks : s.artifacts.Tracks s.region o) :
        Artifacts.Tracks { s.artifacts with levels := some levels } s.region o :=
      ⟨tracks.deps, fun _ h => Option.some.inj h ▸ hl, tracks.bypasses⟩
    exact .next step (found levels _ hl ⟨rfl, rfl⟩ follows deps rfl)
  | error obstacle =>
    obtain ⟨here, d, hd⟩ := wf.levels_error hl
    have step : s.runPass o .levels = .ok (s, [d]) := by
      simp [runPass, need, deps, hl, blockedBy, plan, hd, orPassFault, bind, Except.bind, pure,
        Except.pure]
    exact .failed step (by simp [anyError, Obstacle.isError_of_toDiagnostic hd])
      (stuck obstacle d _ hl here hd ⟨rfl, rfl⟩ id)

/-- The planning of bypasses finds them, or fails and tells why. -/
theorem RunState.Leads.bypasses (wf : r.WellFormed) {levels : Levels}
    (hl : r.levels r.deps = .ok levels) (hs : s.Of r print)
    (deps : s.artifacts.deps = some r.deps) (leveled : s.artifacts.levels = some levels)
    (found : ∀ (b : Bypasses) (s' : RunState), r.bypasses r.deps levels o = .ok b →
      s'.Of r print → s.Follows s' r o → s'.artifacts.levels = some levels →
      s'.artifacts.bypasses = some b → s'.Leads o ps Q)
    (stuck : ∀ (obstacle : Obstacle) (d : Diagnostic) (s' : RunState),
      r.bypasses r.deps levels o = .error (.blocked obstacle) → obstacle.pass = .bypasses →
      obstacle.toDiagnostic r = some d → s'.Of r print → s.Follows s' r o →
      Q s' (some (.passFailed .bypasses)) [d]) :
    s.Leads o (.bypasses :: ps) Q := by
  obtain ⟨rfl, rfl⟩ := hs
  cases hb : s.region.bypasses s.region.deps levels o with
  | ok b =>
    have step : s.runPass o .bypasses =
        .ok ({ s with artifacts := { s.artifacts with bypasses := some b } }, []) := by
      simp [runPass, need, deps, leveled, hb, plan, bind, Except.bind]
    have follows (tracks : s.artifacts.Tracks s.region o) :
        Artifacts.Tracks { s.artifacts with bypasses := some b } s.region o :=
      ⟨tracks.deps, tracks.levels, fun _ h => ⟨levels, hl, Option.some.inj h ▸ hb⟩⟩
    exact .next step (found b _ hb ⟨rfl, rfl⟩ follows leveled rfl)
  | error stop =>
    obtain ⟨obstacle, d, rfl, here, hd⟩ := wf.bypasses_error hl hb
    have step : s.runPass o .bypasses = .ok (s, [d]) := by
      simp [runPass, need, deps, leveled, hb, plan, hd, orPassFault, bind, Except.bind, pure,
        Except.pure]
    exact .failed step (by simp [anyError, Obstacle.isError_of_toDiagnostic hd])
      (stuck obstacle d _ hb here hd ⟨rfl, rfl⟩ id)

/-- The passes that do not change the region find a plan, or tell why there is none. -/
theorem Region.WellFormed.leads_plan (wf : r.WellFormed) (hs : s.Of r print)
    (planned : ∀ (plan : Plan) (s' : RunState), r.plan o = .ok plan → s'.Of r print →
      s.Follows s' r o → s'.artifacts.levels = some plan.levels →
      s'.artifacts.bypasses = some plan.bypasses → s'.Leads o ps Q)
    (stuck : ∀ (obstacle : Obstacle) (d : Diagnostic) (s' : RunState),
      r.plan o = .error (.blocked obstacle) → obstacle.toDiagnostic r = some d →
      s'.Of r print → s.Follows s' r o → Q s' (some (.passFailed obstacle.pass)) [d]) :
    s.Leads o (.index :: .successors :: .levels :: .bypasses :: ps) Q := by
  refine .deps hs fun s₁ hs first deps => .levels wf hs deps
    (fun levels s₂ hl hs second deps leveled => ?_) fun obstacle d s₂ hl here hd hs second => ?_
  · refine .bypasses wf hl hs deps leveled (fun b s₃ hb hs third leveled found => ?_)
      fun obstacle d s₃ hb here hd hs third => ?_
    · have hplan : r.plan o = .ok ⟨r.deps, levels, b⟩ := by
        simp [plan, hl, hb, blockedBy, bind, Except.bind, pure, Except.pure]
      exact planned _ s₃ hplan hs (third ∘ second ∘ first) leveled found
    · have hplan : r.plan o = .error (.blocked obstacle) := by
        simp [plan, hl, hb, blockedBy, bind, Except.bind]
      rw [← here]
      exact stuck obstacle d s₃ hplan hd hs (third ∘ second ∘ first)
  · have hplan : r.plan o = .error (.blocked obstacle) := by
      simp [plan, hl, blockedBy, bind, Except.bind]
    rw [← here]
    exact stuck obstacle d s₂ hplan hd hs (second ∘ first)

/-- The first pass that changes the region builds the planned chains. -/
theorem RunState.Leads.forward {levels : Levels} {b : Bypasses} {mid : Region} {f : Forwarded}
    (hs : s.Of r print) (leveled : s.artifacts.levels = some levels)
    (planned : s.artifacts.bypasses = some b) (hforward : r.forward levels b = some (mid, f))
    (rest : ∀ s' : RunState, s'.region = mid → s'.inputFingerprint = print →
      s.Follows s' r o → s'.artifacts.levels = some levels → s'.artifacts.bypasses = some b →
      s'.artifacts.forwarded = some f → s'.Leads o ps Q) :
    s.Leads o (.forward :: ps) Q := by
  obtain ⟨rfl, rfl⟩ := hs
  have step : s.runPass o .forward = .ok ({ s with
      region := mid, artifacts := { s.artifacts with forwarded := some f } }, []) := by
    simp [runPass, need, leveled, planned, hforward, orPassFault, bind, Except.bind, pure,
      Except.pure]
  have follows (tracks : s.artifacts.Tracks s.region o) :
      Artifacts.Tracks { s.artifacts with forwarded := some f } s.region o :=
    ⟨tracks.deps, tracks.levels, tracks.bypasses⟩
  exact .next step (rest _ rfl rfl follows leveled planned rfl)

/-- The passes that change the region carry out the plan, and fail where the certificate of what
comes out does not hold. -/
theorem RunState.Leads.rebuild {levels : Levels} {b : Bypasses} {mid out : Region}
    {f : Forwarded} {c : Compacted} (hs : s.Of r print)
    (leveled : s.artifacts.levels = some levels) (planned : s.artifacts.bypasses = some b)
    (hforward : r.forward levels b = some (mid, f)) (hcompact : mid.compact b o = some (out, c))
    (done : ∀ s' : RunState, s'.region = out → s.Follows s' r o →
      s'.report o = out.report print levels b f c o →
      Q s' (if (out.certify o).holds then none else some (.passFailed .compact))
        ((out.certify o).toDiagnostics out)) :
    s.Leads o [.forward, .compact] Q := by
  refine .forward hs leveled planned hforward
    fun t region same first leveled planned forwarded => ?_
  let t' : RunState := { t with
    region := out, artifacts := { t.artifacts with
      compacted := some c, certificate := some (out.certify o) } }
  have compact : t.runPass o .compact = .ok (t', (out.certify o).toDiagnostics out) := by
    simp [runPass, need, t', region, planned, hcompact, orPassFault, bind, Except.bind, pure,
      Except.pure]
  have report (ds : List Diagnostic) :
      (t'.finish .compact ds).report o = out.report print levels b f c o := by
    simp [RunState.report, RunState.finish, t', leveled, planned, forwarded, same]
  have follows (ds : List Diagnostic) : s.Follows (t'.finish .compact ds) r o := fun tracks =>
    ⟨(first tracks).deps, (first tracks).levels, (first tracks).bypasses⟩
  cases holds : (out.certify o).holds with
  | true =>
    have silent : (out.certify o).toDiagnostics out = [] := by
      simp [Certificate.toDiagnostics, holds]
    have hQ := done (t'.finish .compact []) rfl (follows []) (report [])
    rw [silent] at compact hQ
    exact .next compact (.nil (by simpa [holds] using hQ))
  | false =>
    obtain ⟨d, single, _, loud⟩ := Certificate.toDiagnostics_of_not_holds holds out
    have hQ := done (t'.finish .compact [d]) rfl (follows [d]) (report [d])
    rw [single] at compact hQ
    exact .failed compact (by simp [anyError, loud]) (by simpa [holds] using hQ)

theorem RunState.of_start (h : RunState.start r = some s) :
    ∃ print, r.fingerprint = some print ∧ s.Of r print := by
  obtain ⟨print, hprint, rfl⟩ := Option.map_eq_some_iff.mp h
  exact ⟨print, hprint, rfl, rfl⟩

/-- A full run ends as making the region legal in one go does, and knows what the state that it
starts from makes it know. -/
theorem Region.WellFormed.leads_legalize (wf : r.WellFormed) (hprint : r.fingerprint = some print)
    (hs : s.Of r print)
    (done : ∀ (report : Report) (out : Region) (s' : RunState),
      r.legalize o = .ok (report, out) → s'.region = out → s.Follows s' r o →
      s'.report o = some report →
      Q s' (if (out.certify o).holds then none else some (.passFailed .compact))
        ((out.certify o).toDiagnostics out))
    (stuck : ∀ (obstacle : Obstacle) (d : Diagnostic) (s' : RunState),
      r.legalize o = .error (.blocked obstacle) → obstacle.toDiagnostic r = some d →
      s'.Of r print → s.Follows s' r o → Q s' (some (.passFailed obstacle.pass)) [d]) :
    s.Leads o (Pass.required .compact) Q := by
  refine wf.leads_plan hs (fun plan t hplan hs first leveled planned => ?_)
    fun obstacle d t hplan hd hs follows => ?_
  · obtain ⟨f, _, out, c, report, hforward, hcompact, hlegal, _⟩ := wf.legalize_of_plan hplan
    obtain ⟨print', plan', s', f', c', hprint', hplan', hforward', hcompact', hreport⟩ :=
      legalize_eq_ok.mp hlegal
    cases hprint.symm.trans hprint'
    cases hplan.symm.trans hplan'
    cases hforward.symm.trans hforward'
    cases hcompact.symm.trans hcompact'
    exact .rebuild hs leveled planned hforward hcompact fun s' region second same =>
      done report out s' hlegal region (second ∘ first) (same.trans hreport)
  · exact stuck obstacle d t (wf.legalize_eq_error.mpr hplan) hd hs follows

/-- A full run ends as making the region legal in one go does. -/
theorem Region.WellFormed.leads_compact (wf : r.WellFormed) (hprint : r.fingerprint = some print)
    (hs : s.Of r print)
    (done : ∀ (report : Report) (out : Region) (s' : RunState),
      r.legalize o = .ok (report, out) → s'.region = out → s'.report o = some report →
      Q s' (if (out.certify o).holds then none else some (.passFailed .compact))
        ((out.certify o).toDiagnostics out))
    (stuck : ∀ (obstacle : Obstacle) (d : Diagnostic) (s' : RunState),
      r.legalize o = .error (.blocked obstacle) → obstacle.toDiagnostic r = some d →
      s'.Of r print → Q s' (some (.passFailed obstacle.pass)) [d]) :
    s.Leads o (Pass.required .compact) Q :=
  wf.leads_legalize hprint hs
    (fun report out s' hlegal region _ same => done report out s' hlegal region same)
    fun obstacle d s' hlegal hd hs _ => stuck obstacle d s' hlegal hd hs

end Leads

end Staging
