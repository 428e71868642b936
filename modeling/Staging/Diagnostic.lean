import Staging.Span

namespace Staging

/-- The stable name of a kind of diagnostic. -/
structure Code where
  text : String
deriving DecidableEq

inductive Severity where
  | error
  | warning
deriving DecidableEq

/-- Another place in the source that explains a diagnostic. -/
structure Related where
  span : Span
  label : String
deriving DecidableEq

structure Diagnostic where
  code : Option Code
  severity : Severity
  span : Span
  message : String
  hint : Option String
  related : List Related
  causes : List String
deriving DecidableEq

def Code.undefinedValue : Code := ⟨"E0100"⟩

def Code.redefinition : Code := ⟨"E0101"⟩

def Code.resultCount : Code := ⟨"E0102"⟩

def Code.unknownType : Code := ⟨"E0103"⟩

def Code.notMemref : Code := ⟨"E0104"⟩

def Code.unknownSetting : Code := ⟨"W0105"⟩

def Code.invalidSetting : Code := ⟨"E0106"⟩

def Code.topologyViolation : Code := ⟨"E0200"⟩

def Code.unsupportedCarrier : Code := ⟨"E0201"⟩

def Code.certificateFailed : Code := ⟨"E0300"⟩

def Diagnostic.error (code : Code) (span : Span) (message : String) : Diagnostic :=
  ⟨some code, .error, span, message, none, [], []⟩

def Diagnostic.warning (code : Code) (span : Span) (message : String) : Diagnostic :=
  ⟨some code, .warning, span, message, none, [], []⟩

def Diagnostic.isError (d : Diagnostic) : Bool :=
  d.severity = .error

def anyError (ds : List Diagnostic) : Bool :=
  ds.any Diagnostic.isError

def Severity.text : Severity → String
  | .error => "error"
  | .warning => "warning"

/-- A diagnostic without its place in the source. -/
def Diagnostic.text (d : Diagnostic) : String :=
  let code := match d.code with
    | some code => "[" ++ code.text ++ "]"
    | none => ""
  let hint := match d.hint with
    | some hint => "\n  hint: " ++ hint
    | none => ""
  d.severity.text ++ code ++ ": " ++ d.message ++ hint

/-- A place in a file, up to the message about it. A place inside a character has none. -/
def placeText (path source : String) (span : Span) : Option String :=
  (lineColumn? source span.start).map fun (line, column) =>
    path ++ ":" ++ toString line ++ ":" ++ toString column ++ ": "

def Related.render (path source : String) (r : Related) : Option String :=
  (placeText path source r.span).map fun place => "\n  note: " ++ place ++ r.label

/-- A diagnostic with all places by line and column. -/
def Diagnostic.render (path source : String) (d : Diagnostic) : Option String := do
  let place ← placeText path source d.span
  let related ← d.related.mapM (Related.render path source)
  let causes := d.causes.map fun cause => "\n  cause: " ++ cause
  return place ++ d.text ++ String.join related ++ String.join causes

end Staging
