import Staging.Graphviz
import Staging.Invocation
import Staging.Load
import Staging.OptionsText
import Staging.ReportText
import Staging.Run

namespace Staging

/-- How the command reads and writes files. A failure comes with the reason of the system. -/
structure FileAccess (m : Type → Type) where
  read : String → m (Except String String)
  write : String → String → m (Except String Unit)

/-- What the command leaves: its exit code and what it wrote to the standard streams. -/
structure Response where
  exit : Nat
  stdout : String
  stderr : String
deriving DecidableEq

/-- The text that the command came to, or how it failed. The diagnostics were printed. -/
structure Result where
  diagnostics : String
  text : Except Response String

def versionText : String :=
  "dflow 0.3.1\n"

def usageText : String :=
  "usage: dflow [--output FILE] [--emit ir|levels|graph|report] [--insert-copy BOOL] " ++
    "[--min-gran N] [--config FILE] [--verbose] SOURCE\n"

def errorLine (message : String) : String :=
  "dflow: error: " ++ message ++ "\n"

/-- Diagnostics one after the other. -/
def printDiagnostics (path source : String) (ds : List Diagnostic) : Option String := do
  let lines ← ds.mapM fun d => d.render path source
  return String.join (lines.map fun line => "dflow: " ++ line ++ "\n")

/-- The options in a config file, or why there are none. The reader's own words on a malformed
file are not given. -/
def readConfig (path : String) : Except String String → Except String Overrides
  | .error reason => .error (errorLine ("cannot read config " ++ path ++ ": " ++ reason))
  | .ok text =>
    match Overrides.ofJson text with
    | .ok overrides => .ok overrides
    | .error _ => .error ("dflow: error: invalid config " ++ path)

/-- The options of a run: those of the source under those of the config file and those of the
arguments. The config file has been read already if there is one. -/
def Invocation.options (inv : Invocation) (fromSource : Options)
    (config : Option (Except String String)) : Except String Options := do
  let overrides ← match inv.config, config with
    | some path, some content => readConfig path content
    | _, _ => .ok ⟨none, none⟩
  let o := (fromSource.apply overrides).apply inv.overrides
  if o.Valid then return o else throw (errorLine o.complaint)

def Emit.terminal : Emit → Pass
  | .ir | .report => .compact
  | .levels | .graph => .levels

/-- A number in at least three places. -/
def threePlaces (n : Nat) : String :=
  let digits := toString n
  String.join (List.replicate (3 - digits.length) " ") ++ digits

def levelLine (r : Region) (levels : Levels) (n : NodeId) : Option String :=
  match levels.get? n with
  | some level => (r.describe n).map fun name => "  " ++ threePlaces level ++ "  " ++ name ++ "\n"
  | none => some ""

/-- The level of each scheduled node in program order. -/
def RunState.levelsText (s : RunState) : Option String :=
  match s.artifacts.levels with
  | some levels => do
    let lines ← s.region.dataflowNodes.mapM (levelLine s.region levels)
    return "@" ++ s.region.name ++ ": " ++ toString levels.max ++ " levels\n" ++ String.join lines
  | none => some ""

/-- The graph of a region whose dependences are known. -/
def RunState.graphText (s : RunState) : Option (List String) :=
  match s.artifacts.deps with
  | some deps => (s.region.dot deps s.artifacts.levels).map fun text => [text]
  | none => some []

/-- What the command writes about regions that went through their passes. -/
def Emit.text (emit : Emit) (o : Options) (states : List RunState) : Option String :=
  match emit with
  | .ir => moduleText (states.map RunState.region)
  | .levels => (states.mapM RunState.levelsText).map String.join
  | .graph => (states.mapM RunState.graphText).map fun texts => String.intercalate "\n" texts.flatten
  | .report => some (reportsText (states.filterMap fun s => s.report o))

/-- Runs the passes over the regions of a source text. -/
def Invocation.emitLoaded (inv : Invocation) (source : String) (loaded : Loaded) (o : Options) :
    Option Result := do
  let outcomes ← runAll loaded.regions inv.emit.terminal o
  let states := outcomes.map RunOutcome.state
  let diagnostics ← states.mapM fun s => printDiagnostics inv.source source s.diagnostics
  if outcomes.any fun outcome => outcome.error.isSome then
    return ⟨String.join diagnostics, .error ⟨1, "", ""⟩⟩
  let text ← inv.emit.text o states
  return ⟨String.join diagnostics, .ok text⟩

/-- Carries out an invocation whose files have been read. There is no result where a fault ends
the command. -/
def Invocation.result (inv : Invocation) (source : Except String String)
    (config : Option (Except String String)) : Option Result :=
  match source with
  | .error reason => some ⟨"", .error ⟨2, "", errorLine (inv.source ++ ": " ++ reason)⟩⟩
  | .ok source =>
    match load source with
    | .error ds => do
      let diagnostics ← printDiagnostics inv.source source ds
      return ⟨diagnostics, .error ⟨1, "", ""⟩⟩
    | .ok loaded => do
      let warnings ← printDiagnostics inv.source source loaded.warnings
      match inv.options loaded.options config with
      | .error message => return ⟨warnings, .error ⟨2, "", message⟩⟩
      | .ok o =>
        let result ← inv.emitLoaded source loaded o
        return { result with diagnostics := warnings ++ result.diagnostics }

/-- Prints a message behind what has been printed already. -/
def Response.after (diagnostics : String) (r : Response) : Response :=
  { r with stderr := diagnostics ++ r.stderr }

/-- What is left of a command that meets a fault. -/
def Response.fault : Response :=
  ⟨101, "", ""⟩

/-- Writes the text of a result where the invocation wants it. -/
def Invocation.deliver {m : Type → Type} [Monad m] (inv : Invocation) (files : FileAccess m)
    (result : Result) : m Response :=
  match result.text, inv.output with
  | .error response, _ => return response.after result.diagnostics
  | .ok text, none => return ⟨0, text, result.diagnostics⟩
  | .ok text, some path => do
    match ← files.write path text with
    | .ok _ => return ⟨0, "", result.diagnostics⟩
    | .error reason =>
      return ⟨2, "", result.diagnostics ++ errorLine (path ++ ": " ++ reason)⟩

/-- Carries out an invocation. -/
def Invocation.perform {m : Type → Type} [Monad m] (inv : Invocation) (files : FileAccess m) :
    m Response := do
  let source ← files.read inv.source
  let config ← inv.config.mapM files.read
  match inv.result source config with
  | some result => inv.deliver files result
  | none => return .fault

/-- Runs the command with some arguments. -/
def Request.perform {m : Type → Type} [Monad m] (files : FileAccess m) : Request → m Response
  | .run inv => inv.perform files
  | .version => return ⟨0, versionText, ""⟩
  | .help => return ⟨0, usageText, ""⟩
  | .misuse => return ⟨2, "", usageText⟩

end Staging
