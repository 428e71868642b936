import Staging.Attr
import Staging.Span
import Staging.ValueType

namespace Staging

/-- A name where it stands in the source, without its sign; the span includes the sign. -/
structure Name where
  text : String
  span : Span
deriving DecidableEq

inductive TypeExpr where
  | named (name : Name)
  | shaped (shape : Shaped) (span : Span)
deriving DecidableEq

structure AttrEntry where
  key : Name
  value : Attr
  span : Span
deriving DecidableEq

/-- Change of view between a buffer and a tensor. -/
inductive Conversion where
  | toTensor
  | toMemref
deriving DecidableEq

/-- The operation of a statement without a body. -/
inductive Op where
  | alloc (stack : Bool) (type : TypeExpr)
  | constant (value : Int) (type : TypeExpr)
  | convert (conversion : Conversion) (operand : Name) (type : TypeExpr)
  | ret (operands : List Name)
  | compute (name : String) (operands : List Name) (types : List TypeExpr)
  | load (memref : Name) (type : TypeExpr)
  | store (value memref : Name)
  | copy (operands : List Name) (type : Option TypeExpr)
deriving DecidableEq

inductive Stmt where
  | op (results : List Name) (op : Op) (attrs : List AttrEntry) (span : Span)
  | loop (results : List Name) (iv : Name) (lower upper : Int) (body : List Stmt)
    (attrs : List AttrEntry) (span : Span)

inductive SettingValue where
  | int (value : Int)
  | bool (value : Bool)
  | text (value : String)
  | ident (name : String)
deriving DecidableEq

structure Setting where
  name : Name
  value : SettingValue
  valueSpan : Span
  span : Span
deriving DecidableEq

structure ArgDecl where
  name : Name
  type : TypeExpr
deriving DecidableEq

structure Func where
  name : Name
  args : List ArgDecl
  attrs : List AttrEntry
  body : List Stmt
  span : Span

inductive Item where
  | setting (setting : Setting)
  | func (func : Func)

/-- A source text: settings and functions in the order they stand. -/
structure Program where
  items : List Item
  span : Span

def Stmt.results : Stmt → List Name
  | .op results .. => results
  | .loop results .. => results

def Stmt.attrs : Stmt → List AttrEntry
  | .op _ _ attrs _ => attrs
  | .loop _ _ _ _ _ attrs _ => attrs

def Stmt.span : Stmt → Span
  | .op _ _ _ span => span
  | .loop _ _ _ _ _ _ span => span

end Staging
