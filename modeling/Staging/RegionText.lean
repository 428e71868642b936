import Staging.Block
import Staging.Digest

namespace Staging

/-- The key under which the stage of a node is written. -/
def levelKey : String :=
  "dataflow_level"

/-- The key under which a region is marked as legal. -/
def dataflowKey : String :=
  "dataflow"

def Region.valueText (r : Region) (v : ValueId) : Option String :=
  (r.value? v).map fun value => "%" ++ value.name

def Region.valuesText (r : Region) (vs : List ValueId) : Option String :=
  (vs.mapM r.valueText).map fun names => String.intercalate ", " names

def Region.typeText (r : Region) (v : ValueId) : Option String :=
  (r.value? v).map fun value => value.type.text

/-- The type of the first result of a node, which there has to be. -/
def Region.resultTypeText (r : Region) (node : Node) : Option String :=
  node.results.head?.bind r.typeText

def attrText (entry : String × Attr) : String :=
  entry.1 ++ " = " ++ entry.2.written

def attrsText (attrs : Attrs) : String :=
  if attrs.isEmpty then ""
  else " \x7b" ++ String.intercalate ", " (attrs.map attrText) ++ "\x7d"

/-- The attributes that a node is written with, its stage before all others. -/
def Node.writtenAttrs (node : Node) : Attrs :=
  (node.level.map fun level => (levelKey, Attr.int level)).toList ++ node.attrs

def Region.writtenAttrs (r : Region) : Attrs :=
  (if r.dataflow then [(dataflowKey, Attr.bool true)] else []) ++ r.attrs

def indent (depth : Nat) : String :=
  String.join (List.replicate depth "  ")

/-- The results in front of an operation. -/
def Region.resultsText (r : Region) (node : Node) : Option String :=
  if node.results.isEmpty then some ""
  else (r.valuesText node.results).map fun names => names ++ " = "

/-- An operation without a body. -/
def Region.opText (r : Region) (node : Node) : Option String :=
  match node.kind with
  | .alloc stack => do
    let type ← r.resultTypeText node
    return (NodeKind.alloc stack).mnemonic ++ " : " ++ type
  | .constant value => do
    let type ← r.resultTypeText node
    return "constant " ++ toString value ++ " : " ++ type
  | .convert conversion => do
    let operands ← r.valuesText node.operands
    let type ← r.resultTypeText node
    return conversion.mnemonic ++ " " ++ operands ++ " : " ++ type
  | .load => do
    let operands ← r.valuesText node.operands
    let type ← r.resultTypeText node
    return "load " ++ operands ++ " : " ++ type
  | .ret => do
    let operands ← r.valuesText node.operands
    return "return" ++ (if node.operands.isEmpty then "" else " " ++ operands)
  | .compute name => do
    let operands ← r.valuesText node.operands
    let types ← node.results.mapM r.typeText
    let suffix := if node.results.isEmpty then "" else " : " ++ String.intercalate ", " types
    return "op " ++ quoted name ++ "(" ++ operands ++ ")" ++ suffix
  | .store => do
    let operands ← r.valuesText node.operands
    return "store " ++ operands
  | .copy => do
    let operands ← r.valuesText node.operands
    if node.results.isEmpty then return "copy " ++ operands
    let type ← r.resultTypeText node
    return "copy " ++ operands ++ " : " ++ type
  | .loop iv lower upper _ => do
    let iv ← r.valueText iv
    return "for " ++ iv ++ " = " ++ toString lower ++ " to " ++ toString upper ++ " \x7b\n"

/-- A node on lines of its own, with what is nested in it less than `depth` deep. -/
def Region.nodeText (r : Region) : Nat → Nat → NodeId → Option String
  | 0, _, _ => some ""
  | depth + 1, margin, n => do
    let node ← r.node? n
    let results ← r.resultsText node
    let op ← r.opText node
    let inside ← node.kind.body.mapM (r.nodeText depth (margin + 1))
    let close := if node.kind.isLoop then indent margin ++ "\x7d" else ""
    return indent margin ++ results ++ op ++ String.join inside ++ close ++
      attrsText node.writtenAttrs ++ "\n"

def Region.argText (r : Region) (v : ValueId) : Option String :=
  (r.value? v).map fun value => "%" ++ value.name ++ ": " ++ value.type.text

/-- The source text of a region. A node without a result that its form needs, or with an
unknown operand, has none. -/
def Region.text (r : Region) : Option String := do
  let args ← r.args.mapM r.argText
  let body ← r.body.mapM (r.nodeText r.nodes.size 1)
  let attrs := r.writtenAttrs
  let marked := if attrs.isEmpty then "" else " attributes" ++ attrsText attrs
  return "func @" ++ r.name ++ "(" ++ String.intercalate ", " args ++ ")" ++ marked ++ " \x7b\n" ++
    String.join body ++ "\x7d\n"

/-- The source text of several regions, with blank lines between them. -/
def moduleText (regions : List Region) : Option String :=
  (regions.mapM Region.text).map fun texts => String.intercalate "\n" texts

/-- A digest of the source text. -/
def Region.fingerprint (r : Region) : Option String :=
  r.text.map sha256

/-- What a node is called in messages before its result is named. -/
def Region.headText (r : Region) (node : Node) : Option String :=
  match node.kind with
  | .compute name => some ("op \"" ++ name ++ "\"")
  | .loop iv _ _ _ => (r.valueText iv).map fun iv => "for " ++ iv
  | kind => some kind.mnemonic

/-- What a node is called in messages. -/
def Region.describe (r : Region) (n : NodeId) : Option String := do
  let node ← r.node? n
  let head ← r.headText node
  match node.results.head? with
  | some v =>
    let result ← r.valueText v
    return "'" ++ head ++ "' defining " ++ result
  | none => return "'" ++ head ++ "'"

end Staging
