import Staging.Diagnostic
import Staging.RegionText

namespace Staging

/-- What a name in scope stands for: a value, or nothing where its definition failed. -/
abbrev Binding := Option ValueId

/-- A function on its way to becoming a region. -/
structure Lowering where
  region : Region
  /-- The names of each open block, innermost block and latest name first. -/
  scopes : List (List (String × Binding))
  /-- Where each name of the function was last defined, latest first. -/
  sites : List (String × Span)
  diagnostics : List Diagnostic
  /-- Whether something was asked of a node or value that the region does not know. -/
  fault : Bool

/-- A step of lowering. -/
abbrev Lower := StateM Lowering

def Diagnostic.redefinedValue (name : Name) (previous : Span) : Diagnostic :=
  { Diagnostic.error .redefinition name.span ("redefinition of value %" ++ name.text) with
    related := [⟨previous, "previous definition here"⟩] }

def Diagnostic.redefinedFunction (name : Name) (previous : Span) : Diagnostic :=
  { Diagnostic.error .redefinition name.span ("redefinition of function @" ++ name.text) with
    related := [⟨previous, "first defined here"⟩] }

def Diagnostic.undefinedValue (name : Name) (hidden : Bool) : Diagnostic :=
  { Diagnostic.error .undefinedValue name.span ("use of undefined value %" ++ name.text) with
    hint :=
      if hidden then some "the value is defined in a loop body that is not visible here"
      else none }

def Diagnostic.notMemref (what : String) (name : Name) (type : ValueType) : Diagnostic :=
  .error .notMemref name.span
    (what ++ " operand %" ++ name.text ++ " has type " ++ type.text ++ ", expected a memref")

def Diagnostic.resultCount (what : String) (expected given : Nat) (span : Span) : Diagnostic :=
  .error .resultCount span
    (what ++ " produces " ++ toString expected ++ " result(s), but " ++ toString given ++
      " name(s) were given")

def Diagnostic.allocType (type : ValueType) (span : Span) : Diagnostic :=
  .error .unknownType span ("allocation must produce a memref, found " ++ type.text)

def Diagnostic.unknownType (name : String) (span : Span) : Diagnostic :=
  .error .unknownType span ("unknown type '" ++ name ++ "'")

def Diagnostic.unknownElement (name : String) (span : Span) : Diagnostic :=
  .error .unknownType span ("unknown element type '" ++ name ++ "'")

def Diagnostic.dataflowKind (span : Span) : Diagnostic :=
  .error .invalidSetting span "attribute 'dataflow' expects a boolean"

def Diagnostic.levelKind (span : Span) : Diagnostic :=
  .error .invalidSetting span "attribute 'dataflow_level' expects a non-negative integer"

def Lowering.report (d : Diagnostic) : Lower Unit :=
  modify fun s => { s with diagnostics := s.diagnostics ++ [d] }

def Lowering.markFault : Lower Unit :=
  modify fun s => { s with fault := true }

/-- Runs a step that changes only the region. -/
def Lowering.onRegion {α : Type} (f : Region → α × Region) : Lower α :=
  modifyGet fun s => ((f s.region).1, { s with region := (f s.region).2 })

/-- Checks that a name is new in the function. -/
def Lowering.checkNew (name : Name) : Lower Bool := do
  match (← get).sites.lookup name.text with
  | some previous =>
    report (.redefinedValue name previous)
    return false
  | none => return true

/-- Checks names up to the first that is not new. -/
def Lowering.checkAllNew : List Name → Lower Bool
  | [] => return true
  | name :: names => do
    if ← checkNew name then checkAllNew names else return false

def Lowering.bind (name : Name) (binding : Binding) : Lower Unit :=
  modify fun s =>
    let scopes := match s.scopes with
      | scope :: outer => ((name.text, binding) :: scope) :: outer
      | [] => []
    { s with scopes := scopes, sites := (name.text, name.span) :: s.sites }

/-- The value of a name. A use of an unknown name is reported; one of a name whose definition
failed has been. -/
def Lowering.lookUp (name : Name) : Lower (Option ValueId) := do
  let s ← get
  match s.scopes.findSome? fun scope => scope.lookup name.text with
  | some binding => return binding
  | none =>
    report (.undefinedValue name (s.sites.lookup name.text).isSome)
    return none

/-- The values of some names, if all have one. Every name is looked up. -/
def Lowering.lookUpAll (names : List Name) : Lower (Option (List ValueId)) := do
  let values ← names.mapM lookUp
  return values.mapM id

def Lowering.requireMemref (v : ValueId) (name : Name) (what : String) : Lower Bool := do
  match (← get).region.value? v with
  | some value =>
    if value.type.isMemref then return true
    report (.notMemref what name value.type)
    return false
  | none =>
    markFault
    return false

def Lowering.lowerType : TypeExpr → Lower (Option ValueType)
  | .named name => do
    if isScalarName name.text then return some (.scalar name.text)
    report (.unknownType name.text name.span)
    return none
  | .shaped shape span => do
    if isScalarName shape.elem then return some (.shaped shape)
    report (.unknownElement shape.elem span)
    return none

def Lowering.expectResults (results : List Name) (span : Span) (expected : Nat) (what : String) :
    Lower Bool := do
  if results.length = expected then return true
  report (.resultCount what expected results.length span)
  return false

/-- Binds names to values, as far as both go. -/
def Lowering.bindAll : List Name → List ValueId → Lower Unit
  | name :: names, v :: vs => do
    bind name (some v)
    bindAll names vs
  | _, _ => return ()

/-- Creates the node of a statement and binds its results. -/
def Lowering.finish (results : List Name) (span : Span) (kind : NodeKind) (operands : List ValueId)
    (types : List ValueType) : Lower (Option NodeId) := do
  let named := List.zipWith (fun (name : Name) type => (some name.text, type)) results types
  let node ← onRegion fun r => r.addNode kind operands named span
  bindAll results ((← get).region.results node)
  return some node

/-- The type of a copied value, which is that of its source unless one is given. -/
def Lowering.copyType (source : ValueId) : Option TypeExpr → Lower (Option ValueType)
  | some type => lowerType type
  | none => do
    match (← get).region.value? source with
    | some value => return some value.type
    | none =>
      markFault
      return none

/-- Lowers an operation without a body. -/
def Lowering.lowerOp (results : List Name) (span : Span) : Op → Lower (Option NodeId)
  | .alloc stack type => do
    let some type ← lowerType type | return none
    if !type.isMemref then
      report (.allocType type span)
      return none
    if !(← expectResults results span 1 "allocation") then return none
    finish results span (.alloc stack) [] [type]
  | .constant value type => do
    let some type ← lowerType type | return none
    if !(← expectResults results span 1 "constant") then return none
    finish results span (.constant value) [] [type]
  | .convert conversion operand type => do
    let type ← lowerType type
    let operand ← lookUp operand
    let some type := type | return none
    let some operand := operand | return none
    if !(← expectResults results span 1 "layout conversion") then return none
    finish results span (.convert conversion) [operand] [type]
  | .ret operands => do
    let some operands ← lookUpAll operands | return none
    if !(← expectResults results span 0 "return") then return none
    finish results span .ret operands []
  | .compute name operands types => do
    let operands ← lookUpAll operands
    let types ← types.mapM lowerType
    let some operands := operands | return none
    let some types := types.mapM id | return none
    if !(← expectResults results span types.length ("op \"" ++ name ++ "\"")) then return none
    finish results span (.compute name) operands types
  | .load memref type => do
    let type ← lowerType type
    let mem ← lookUp memref
    let some type := type | return none
    let some mem := mem | return none
    if !(← requireMemref mem memref "load") then return none
    if !(← expectResults results span 1 "load") then return none
    finish results span .load [mem] [type]
  | .store value memref => do
    let v ← lookUp value
    let mem ← lookUp memref
    let some v := v | return none
    let some mem := mem | return none
    if !(← requireMemref mem memref "store") then return none
    if !(← expectResults results span 0 "store") then return none
    finish results span .store [v, mem] []
  | .copy operands type => do
    let some values ← lookUpAll operands | return none
    match operands, values with
    | [source, target], [src, dst] =>
      let sourceOk ← requireMemref src source "copy source"
      let targetOk ← requireMemref dst target "copy target"
      if !(sourceOk && targetOk) then return none
      if !(← expectResults results span 0 "array copy") then return none
      finish results span .copy values []
    | [_], [src] =>
      let some type ← copyType src type | return none
      if !(← expectResults results span 1 "value copy") then return none
      finish results span .copy values [type]
    | _, _ => return none

/-- Changes a node. -/
def Lowering.onNode (node : NodeId) (f : Node → Node) : Lower Unit :=
  modify fun s => match s.region.node? node with
    | some _ => { s with region := s.region.modifyNode node f }
    | none => { s with fault := true }

/-- Gives a node the attributes of its statement. -/
def Lowering.applyAttrs (node : NodeId) : List AttrEntry → Lower Unit
  | [] => return ()
  | entry :: entries => do
    if entry.key.text = levelKey then
      match entry.value with
      | .int level =>
        if 0 ≤ level && level < Int.pow 2 32 then
          onNode node fun n => { n with level := some level.toNat }
        else report (.levelKind entry.span)
      | _ => report (.levelKind entry.span)
    else
      onNode node fun n => { n with attrs := n.attrs.set entry.key.text entry.value }
    applyAttrs node entries

/-- Binds the results of a failed statement to nothing, so that their uses are not reported. -/
def Lowering.poison : List Name → Lower Unit
  | [] => return ()
  | name :: names => do
    if ((← get).sites.lookup name.text).isNone then bind name none
    poison names

def Lowering.openScope : Lower Unit :=
  modify fun s => { s with scopes := [] :: s.scopes }

def Lowering.closeScope : Lower Unit :=
  modify fun s => { s with scopes := s.scopes.tail }

/-- Creates the node of a loop, if it can be one, and binds its induction variable in a scope
that is left open for its body. -/
def Lowering.enterLoop (results : List Name) (iv : Name) (lower upper : Int) (span : Span) :
    Lower (Option NodeId) := do
  if !(← expectResults results span 0 "loop") then return none
  if !(← checkNew iv) then return none
  let v : ValueId := ⟨(← get).region.values.size⟩
  let node ← onRegion fun r => r.addLoop (some iv.text) lower upper span
  openScope
  bind iv (some v)
  return some node

/-- Puts a lowered node at the end of a block. -/
def Lowering.attach (parent : Option NodeId) (node : NodeId) : Lower Unit :=
  modify fun s => match s.region.append parent node with
    | some (r, _) => { s with region := r }
    | none => { s with fault := true }

mutual

/-- Lowers the statements of a block, leaving out those that fail. -/
def Lowering.lowerBlock (parent : Option NodeId) : List Stmt → Lower Unit
  | [] => return ()
  | stmt :: stmts => do
    if let some node ← lowerStmt stmt then attach parent node
    lowerBlock parent stmts

/-- Lowers a statement into a node that is in no block. -/
def Lowering.lowerStmt : Stmt → Lower (Option NodeId)
  | .op results op attrs span => do
    let node ← if ← checkAllNew results then lowerOp results span op else pure none
    match node with
    | some node => applyAttrs node attrs
    | none => poison results
    return node
  | .loop results iv lower upper body attrs span => do
    let node ← if ← checkAllNew results then enterLoop results iv lower upper span else pure none
    match node with
    | some node =>
      lowerBlock (some node) body
      closeScope
      applyAttrs node attrs
    | none => poison results
    return node

end

def Lowering.lowerArgs : List ArgDecl → Lower Unit
  | [] => return ()
  | arg :: args => do
    let type ← lowerType arg.type
    if ← checkNew arg.name then
      match type with
      | some type =>
        let v ← onRegion fun r => r.addArg arg.name.text type
        bind arg.name (some v)
      | none => bind arg.name none
    lowerArgs args

/-- Gives the region the attributes of its function. -/
def Lowering.applyFuncAttrs : List AttrEntry → Lower Unit
  | [] => return ()
  | entry :: entries => do
    if entry.key.text = dataflowKey then
      match entry.value with
      | .bool flag => onRegion fun r => ((), { r with dataflow := flag })
      | _ => report (.dataflowKind entry.span)
    else
      onRegion fun r => ((), { r with attrs := r.attrs.set entry.key.text entry.value })
    applyFuncAttrs entries

def Lowering.lowerFunc (f : Func) : Lower Unit := do
  lowerArgs f.args
  applyFuncAttrs f.attrs
  lowerBlock none f.body

def Lowering.start (f : Func) : Lowering :=
  ⟨.empty f.name.text f.span, [[]], [], [], false⟩

/-- What is there once a function has been lowered. -/
def Func.lowered (f : Func) : Lowering :=
  (Lowering.lowerFunc f (.start f)).2

/-- The region of a function, and what is wrong with the function. -/
def Func.lower (f : Func) : Region × List Diagnostic :=
  (f.lowered.region, f.lowered.diagnostics)

/-- Lowers the functions among some items, leaving out those whose name is `taken`. -/
def lowerItems (taken : List (String × Span)) : List Item → List Region × List Diagnostic
  | [] => ([], [])
  | .setting _ :: items => lowerItems taken items
  | .func f :: items =>
    match taken.lookup f.name.text with
    | some previous =>
      let (regions, ds) := lowerItems taken items
      (regions, .redefinedFunction f.name previous :: ds)
    | none =>
      let (region, own) := f.lower
      let (regions, ds) := lowerItems (taken ++ [(f.name.text, f.name.span)]) items
      (region :: regions, own ++ ds)

/-- The regions of a program, one for each function name, and what is wrong with them. -/
def Program.lower (p : Program) : List Region × List Diagnostic :=
  lowerItems [] p.items

end Staging
