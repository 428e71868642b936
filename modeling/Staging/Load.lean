import Staging.Lowering
import Staging.Options
import Staging.Parse

namespace Staging

/-- The regions of a source text without errors, with the options it selects. -/
structure Loaded where
  regions : List Region
  options : Options
  warnings : List Diagnostic

def ParseError.toDiagnostic (e : ParseError) : Diagnostic :=
  ⟨none, .error, e.span, "parse error: " ++ e.message, none, [], []⟩

/-- Loads a source text. Any error is fatal. -/
def load (source : String) : Except (List Diagnostic) Loaded :=
  let parsed := parse source
  match parsed.program, parsed.errors with
  | some program, [] =>
    let (options, settingDiags) := program.options
    let (regions, regionDiags) := program.lower
    let ds := settingDiags ++ regionDiags
    if anyError ds then .error ds else .ok ⟨regions, options, ds⟩
  | _, errors => .error (errors.map ParseError.toDiagnostic)

end Staging
