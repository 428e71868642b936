namespace Staging

inductive Container where
  | memref
  | tensor
deriving DecidableEq

/-- The type of an array: what holds it, its dimensions and its element type. A dimension
that is only known at run time is `none`. -/
structure Shaped where
  container : Container
  dims : List (Option Nat)
  elem : String
deriving DecidableEq

inductive ValueType where
  | scalar (name : String)
  | shaped (shape : Shaped)
deriving DecidableEq

def Container.text : Container → String
  | .memref => "memref"
  | .tensor => "tensor"

def dimText : Option Nat → String
  | some n => toString n ++ "x"
  | none => "?x"

def Shaped.text (s : Shaped) : String :=
  s.container.text ++ "<" ++ String.join (s.dims.map dimText) ++ s.elem ++ ">"

/-- Whether every dimension is known before the program runs. -/
def Shaped.isStatic (s : Shaped) : Bool :=
  s.dims.all Option.isSome

def ValueType.text : ValueType → String
  | .scalar name => name
  | .shaped s => s.text

def ValueType.isShaped : ValueType → Bool
  | .scalar _ => false
  | .shaped _ => true

def ValueType.isMemref : ValueType → Bool
  | .shaped s => s.container = .memref
  | .scalar _ => false

/-- A buffer whose size is only known at run time. -/
def ValueType.isDynamicMemref : ValueType → Bool
  | .shaped s => s.container = .memref && !s.isStatic
  | .scalar _ => false

/-- The letters in front of the width in the names of sized scalar types. -/
def scalarFamilies : List (List Char) :=
  [['u', 'i'], ['s', 'i'], ['i'], ['f']]

/-- Whether a name is that of a scalar type: `index`, `bf16`, or a family and a width. -/
def isScalarName (name : String) : Bool :=
  name = "index" || name = "bf16" ||
    match scalarFamilies.findSome? fun family => family.isPrefixOf? name.toList with
    | some width => !width.isEmpty && width.all Char.isDigit
    | none => false

end Staging
