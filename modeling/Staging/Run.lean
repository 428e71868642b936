import Staging.Legalize
import Staging.Pass

namespace Staging

structure Artifacts where
  footprint : Option Footprint
  uses : Option Uses
  deps : Option DepGraph
  levels : Option Levels
  bypasses : Option Bypasses
  forwarded : Option Forwarded
  compacted : Option Compacted
  certificate : Option Certificate

/-- A region with all that the passes so far found out about it. -/
structure RunState where
  region : Region
  /-- The fingerprint of the region before any pass. -/
  inputFingerprint : String
  artifacts : Artifacts
  diagnostics : List Diagnostic
  hasError : Bool
  /-- The passes that ran, in order. -/
  finished : List Pass

/-- Why a run of passes failed. -/
inductive RunError where
  | passFailed (pass : Pass)
  | missingArtifact (pass : Pass) (artifact : Artifact)
deriving DecidableEq

/-- What came of a run of passes. -/
structure RunOutcome where
  state : RunState
  error : Option RunError
  /-- The diagnostics of each pass, as they were announced. -/
  announced : List (Pass × List Diagnostic)

def Artifacts.none : Artifacts :=
  ⟨.none, .none, .none, .none, .none, .none, .none, .none⟩

def Artifacts.has (a : Artifacts) : Artifact → Bool
  | .footprint => a.footprint.isSome
  | .uses => a.uses.isSome
  | .deps => a.deps.isSome
  | .levels => a.levels.isSome
  | .bypasses => a.bypasses.isSome
  | .forwarded => a.forwarded.isSome
  | .compacted => a.compacted.isSome
  | .certificate => a.certificate.isSome

def RunError.pass : RunError → Pass
  | .passFailed pass => pass
  | .missingArtifact pass _ => pass

def RunError.message : RunError → String
  | .passFailed pass => "pass '" ++ pass.name ++ "' reported errors"
  | .missingArtifact pass artifact =>
    "pass '" ++ pass.name ++ "' needs artifact " ++ artifact.name ++ ", which was not produced"

def RunState.start (r : Region) : Option RunState :=
  r.fingerprint.map fun fingerprint => ⟨r, fingerprint, .none, [], false, []⟩

/-- The report on a region that went through all passes. -/
def RunState.report (s : RunState) (o : Options) : Option Report := do
  let levels ← s.artifacts.levels
  let bypasses ← s.artifacts.bypasses
  let forwarded ← s.artifacts.forwarded
  let compacted ← s.artifacts.compacted
  s.region.report s.inputFingerprint levels bypasses forwarded compacted o

/-- What is wrong with a region whose certificate does not hold. -/
def Certificate.toDiagnostics (c : Certificate) (r : Region) : List Diagnostic :=
  if c.holds then []
  else [.error .certificateFailed r.span
    ("legalization verification failed for @" ++ r.name ++ ": " ++
      String.intercalate ", " c.failures)]

/-- Why a pass did not run: something is unknown to the region, or an artifact is missing. -/
inductive PassStop where
  | fault
  | missing (artifact : Artifact)
deriving DecidableEq

def need {α : Type} (artifact : Artifact) : Option α → Except PassStop α
  | some a => .ok a
  | none => .error (.missing artifact)

def orPassFault {α : Type} : Option α → Except PassStop α
  | some a => .ok a
  | none => .error .fault

/-- Keeps the result of a planning step, or reports what it met in terms of the source. -/
def RunState.plan {α : Type} (s : RunState) (result : Except Stop α)
    (keep : α → Artifacts) : Except PassStop (RunState × List Diagnostic) :=
  match result with
  | .ok a => .ok ({ s with artifacts := keep a }, [])
  | .error .fault => .error .fault
  | .error (.blocked obstacle) => do
    let d ← orPassFault (obstacle.toDiagnostic s.region)
    return (s, [d])

/-- Runs one pass, and gives its diagnostics. -/
def RunState.runPass (s : RunState) (o : Options) (p : Pass) :
    Except PassStop (RunState × List Diagnostic) :=
  let a := s.artifacts
  match p with
  | .index =>
    .ok ({ s with artifacts :=
      { a with footprint := some s.region.footprint, uses := some s.region.uses } }, [])
  | .successors => do
    let footprint ← need .footprint a.footprint
    let uses ← need .uses a.uses
    return ({ s with artifacts := { a with deps := some (s.region.depsWith footprint uses) } }, [])
  | .levels => do
    let deps ← need .deps a.deps
    s.plan (blockedBy (s.region.levels deps)) fun levels => { a with levels := some levels }
  | .bypasses => do
    let deps ← need .deps a.deps
    let levels ← need .levels a.levels
    s.plan (s.region.bypasses deps levels o) fun bypasses => { a with bypasses := some bypasses }
  | .forward => do
    let levels ← need .levels a.levels
    let bypasses ← need .bypasses a.bypasses
    let (region, forwarded) ← orPassFault (s.region.forward levels bypasses)
    return ({ s with region, artifacts := { a with forwarded := some forwarded } }, [])
  | .compact => do
    let bypasses ← need .bypasses a.bypasses
    let (region, compacted) ← orPassFault (s.region.compact bypasses o)
    let certificate := region.certify o
    return ({ s with region, artifacts :=
      { a with compacted := some compacted, certificate := some certificate } },
      certificate.toDiagnostics region)

/-- Enters a pass that ran. -/
def RunState.finish (s : RunState) (p : Pass) (ds : List Diagnostic) : RunState :=
  { s with
    diagnostics := s.diagnostics ++ ds
    finished := s.finished ++ [p]
    hasError := s.hasError || anyError ds }

/-- Runs passes up to the first that fails. -/
def RunState.runPasses (o : Options) : List Pass → RunState → Option RunOutcome
  | [], s => some ⟨s, none, []⟩
  | p :: ps, s =>
    match s.runPass o p with
    | .error .fault => none
    | .error (.missing artifact) => some ⟨s, some (.missingArtifact p artifact), []⟩
    | .ok (s, ds) =>
      let s := s.finish p ds
      if anyError ds then some ⟨s, some (.passFailed p), [(p, ds)]⟩
      else (runPasses o ps s).map fun outcome =>
        { outcome with announced := (p, ds) :: outcome.announced }

/-- Runs a pass and all that it needs. -/
def RunState.run (s : RunState) (terminal : Pass) (o : Options) : Option RunOutcome :=
  s.runPasses o terminal.required

/-- Runs a pass and all that it needs on each of several regions. -/
def runAll (regions : List Region) (terminal : Pass) (o : Options) : Option (List RunOutcome) :=
  regions.mapM fun r => do
    let s ← RunState.start r
    s.run terminal o

end Staging
