import Staging.Tree

namespace Staging

/-- A node of a region, by its place in the order of creation. -/
structure NodeId where
  index : Nat
deriving DecidableEq, Inhabited

/-- A value of a region, by its place in the order of creation. -/
structure ValueId where
  index : Nat
deriving DecidableEq, Inhabited

/-- Hands out identifiers of nodes and values in order. -/
structure IdSupply where
  nodes : Nat
  values : Nat
deriving DecidableEq

def NodeId.text (n : NodeId) : String :=
  "n" ++ toString n.index

def ValueId.text (v : ValueId) : String :=
  "v" ++ toString v.index

def IdSupply.nextNode (s : IdSupply) : NodeId × IdSupply :=
  (⟨s.nodes⟩, { s with nodes := s.nodes + 1 })

def IdSupply.nextValue (s : IdSupply) : ValueId × IdSupply :=
  (⟨s.values⟩, { s with values := s.values + 1 })

inductive NodeKind where
  | alloc (stack : Bool)
  | constant (value : Int)
  | convert (conversion : Conversion)
  | ret
  | compute (name : String)
  /-- Reads the buffer that is its operand. -/
  | load
  /-- Writes its first operand into the buffer that is its second. -/
  | store
  /-- Copies its operand into a new value, or into the buffer that is its second operand. -/
  | copy
  | loop (iv : ValueId) (lower upper : Int) (body : List NodeId)
deriving DecidableEq

structure Node where
  kind : NodeKind
  operands : List ValueId
  results : List ValueId
  /-- The enclosing loop. -/
  parent : Option NodeId
  /-- The pipeline stage, counted from the end of the region. -/
  level : Option Nat
  attrs : Attrs
  span : Span
deriving DecidableEq

/-- Where a value comes from. -/
inductive Definition where
  | arg (index : Nat)
  | result (node : NodeId) (index : Nat)
  | inductionVar (node : NodeId)
deriving DecidableEq

structure Value where
  name : String
  type : ValueType
  definition : Definition
deriving DecidableEq

/-- The body of a function: its arguments and its nodes in program order. Nodes and values,
attached to a block or not, are held in the order of their creation. -/
structure Region where
  name : String
  args : List ValueId
  body : List NodeId
  /-- Set once the region is legal as a pipeline. -/
  dataflow : Bool
  attrs : Attrs
  span : Span
  nodes : Array Node
  values : Array Value
deriving DecidableEq

def Region.empty (name : String) (span : Span) : Region :=
  ⟨name, [], [], false, [], span, #[], #[]⟩

def Conversion.mnemonic : Conversion → String
  | .toTensor => "to_tensor"
  | .toMemref => "to_memref"

def NodeKind.mnemonic : NodeKind → String
  | .alloc stack => if stack then "alloca" else "alloc"
  | .constant _ => "constant"
  | .convert conversion => conversion.mnemonic
  | .ret => "return"
  | .compute _ => "op"
  | .load => "load"
  | .store => "store"
  | .copy => "copy"
  | .loop .. => "for"

/-- Whether nodes of a kind are scheduled. Allocations, constants, conversions and returns
are not. -/
def NodeKind.isDataflow : NodeKind → Bool
  | .alloc _ | .constant _ | .convert _ | .ret => false
  | .compute _ | .load | .store | .copy | .loop .. => true

def NodeKind.isLoop : NodeKind → Bool
  | .loop .. => true
  | _ => false

/-- The nodes inside a node of some kind. -/
def NodeKind.body : NodeKind → List NodeId
  | .loop _ _ _ body => body
  | _ => []

/-- Puts another list of nodes inside a loop. -/
def NodeKind.withBody (body : List NodeId) : NodeKind → NodeKind
  | .loop iv lower upper _ => .loop iv lower upper body
  | kind => kind

def Definition.node? : Definition → Option NodeId
  | .arg _ => none
  | .result node _ => some node
  | .inductionVar node => some node

def Region.node? (r : Region) (n : NodeId) : Option Node :=
  r.nodes[n.index]?

def Region.value? (r : Region) (v : ValueId) : Option Value :=
  r.values[v.index]?

def Region.kind? (r : Region) (n : NodeId) : Option NodeKind :=
  (r.node? n).map Node.kind

def Region.level? (r : Region) (n : NodeId) : Option Nat :=
  (r.node? n).bind Node.level

def Region.isDataflow (r : Region) (n : NodeId) : Bool :=
  (r.kind? n).any NodeKind.isDataflow

def Region.isLoop (r : Region) (n : NodeId) : Bool :=
  (r.kind? n).any NodeKind.isLoop

def Region.operands (r : Region) (n : NodeId) : List ValueId :=
  ((r.node? n).map Node.operands).getD []

def Region.results (r : Region) (n : NodeId) : List ValueId :=
  ((r.node? n).map Node.results).getD []

/-- The nodes directly inside a loop. -/
def Region.bodyOf (r : Region) (n : NodeId) : List NodeId :=
  ((r.kind? n).map NodeKind.body).getD []

/-- Changes a node, if there is one. -/
def Region.modifyNode (r : Region) (n : NodeId) (f : Node → Node) : Region :=
  { r with nodes := r.nodes.modify n.index f }

def Region.setLevel (r : Region) (n : NodeId) (level : Option Nat) : Region :=
  r.modifyNode n fun node => { node with level := level }

def Region.clearLevels (r : Region) : Region :=
  { r with nodes := r.nodes.map fun node => { node with level := none } }

def Region.hasName (r : Region) (name : String) : Bool :=
  r.values.any fun v => v.name = name

/-- The first number at or above `n` with which `stem` names no value, in a region with at most
`fuel` values of such names. -/
def Region.freshIndex (r : Region) (stem : String) : Nat → Nat → Nat
  | 0, n => n
  | fuel + 1, n =>
    if r.hasName (stem ++ toString n) then r.freshIndex stem fuel (n + 1) else n

/-- The name of the form `stem` and number, with the least number, that no value has. -/
def Region.freshName (r : Region) (stem : String) : String :=
  stem ++ toString (r.freshIndex stem r.values.size 0)

/-- The stem of names for values that were given none. -/
def valueStem : String :=
  "v"

/-- Creates a value; without a name it gets a fresh one. -/
def Region.addValue (r : Region) (name : Option String) (type : ValueType)
    (definition : Definition) : ValueId × Region :=
  (⟨r.values.size⟩,
    { r with values := r.values.push ⟨name.getD (r.freshName valueStem), type, definition⟩ })

def Region.addArg (r : Region) (name : String) (type : ValueType) : ValueId × Region :=
  let (v, r) := r.addValue (some name) type (.arg r.args.length)
  (v, { r with args := r.args ++ [v] })

/-- Creates the results of a node from index `index` on. -/
def Region.addResults (r : Region) (node : NodeId) (index : Nat) :
    List (Option String × ValueType) → List ValueId × Region
  | [] => ([], r)
  | (name, type) :: rest =>
    let (v, r) := r.addValue name type (.result node index)
    let (vs, r) := r.addResults node (index + 1) rest
    (v :: vs, r)

def Region.pushNode (r : Region) (node : Node) : Region :=
  { r with nodes := r.nodes.push node }

/-- Creates a node that is in no block. -/
def Region.addNode (r : Region) (kind : NodeKind) (operands : List ValueId)
    (results : List (Option String × ValueType)) (span : Span) : NodeId × Region :=
  let n : NodeId := ⟨r.nodes.size⟩
  let (vs, r) := r.addResults n 0 results
  (n, r.pushNode ⟨kind, operands, vs, none, none, [], span⟩)

/-- Creates a loop that is in no block and has nothing in it, and its induction variable. -/
def Region.addLoop (r : Region) (iv : Option String) (lower upper : Int) (span : Span) :
    NodeId × Region :=
  let n : NodeId := ⟨r.nodes.size⟩
  let (v, r) := r.addValue iv (.scalar "index") (.inductionVar n)
  (n, r.pushNode ⟨.loop v lower upper [], [], [], none, none, [], span⟩)

end Staging
