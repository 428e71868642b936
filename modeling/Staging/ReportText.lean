import Staging.Legalize

namespace Staging

/-- A value of a report in JSON. -/
inductive JsonValue where
  | text (s : String)
  | number (n : Nat)
  | flag (b : Bool)
  | list (elements : List JsonValue)
  | record (members : List (String × JsonValue))

/-- The written form of a character inside a JSON string. -/
def jsonChar : Char → List Char
  | '"' => ['\\', '"']
  | '\\' => ['\\', '\\']
  | '\x08' => ['\\', 'b']
  | '\x0c' => ['\\', 'f']
  | '\n' => ['\\', 'n']
  | '\r' => ['\\', 'r']
  | '\t' => ['\\', 't']
  | c =>
    if c.toNat < 0x20 then
      ['\\', 'u', '0', '0', Nat.digitChar (c.toNat / 16), Nat.digitChar (c.toNat % 16)]
    else [c]

def jsonQuoted (s : String) : String :=
  String.ofList ('"' :: s.toList.flatMap jsonChar ++ ['"'])

/-- Lines between two brackets, which stand alone where there are no lines. -/
def jsonBlock (opening closing : String) (depth : Nat) (lines : List String) : String :=
  if lines.isEmpty then opening ++ closing
  else
    let inner := lines.map fun line => indent (depth + 1) ++ line
    opening ++ "\n" ++ String.intercalate ",\n" inner ++ "\n" ++ indent depth ++ closing

mutual

/-- A value at some depth, with each element and member on a line of its own. -/
def JsonValue.pretty (depth : Nat) : JsonValue → String
  | .text s => jsonQuoted s
  | .number n => toString n
  | .flag b => boolText b
  | .list elements => jsonBlock "[" "]" depth (JsonValue.prettyElements (depth + 1) elements)
  | .record members =>
    jsonBlock "\x7b" "\x7d" depth (JsonValue.prettyMembers (depth + 1) members)

def JsonValue.prettyElements (depth : Nat) : List JsonValue → List String
  | [] => []
  | element :: elements => element.pretty depth :: prettyElements depth elements

def JsonValue.prettyMembers (depth : Nat) : List (String × JsonValue) → List String
  | [] => []
  | (key, value) :: members =>
    (jsonQuoted key ++ ": " ++ value.pretty depth) :: prettyMembers depth members

end

def Options.toJson (o : Options) : JsonValue :=
  .record [("insert_copy", .flag o.insertCopy), ("min_gran", .number o.minGran)]

def mergesToJson (merges : List (Nat × Nat)) : JsonValue :=
  .record (merges.map fun (lower, upper) => (toString lower, .number upper))

def Report.toJson (r : Report) : JsonValue :=
  .record [
    ("region", .text r.region),
    ("input_fingerprint", .text r.inputFingerprint),
    ("output_fingerprint", .text r.outputFingerprint),
    ("nodes", .number r.nodes),
    ("levels", .number r.levels),
    ("stages", .number r.stages),
    ("bypasses", .number r.bypasses),
    ("copies_inserted", .number r.copiesInserted),
    ("allocs_inserted", .number r.allocsInserted),
    ("merge_targets", mergesToJson r.merges),
    ("options", r.options.toJson)]

/-- Reports as a JSON text. -/
def reportsText (reports : List Report) : String :=
  (JsonValue.list (reports.map Report.toJson)).pretty 0 ++ "\n"

end Staging
