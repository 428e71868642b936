import Staging.Quoted

namespace Staging

inductive Attr where
  | int (value : Int)
  | bool (value : Bool)
  | text (value : String)
deriving DecidableEq

/-- An attribute dictionary, in increasing order of its keys. -/
abbrev Attrs := List (String × Attr)

def boolText (b : Bool) : String :=
  if b then "true" else "false"

def Attr.written : Attr → String
  | .int v => toString v
  | .bool b => boolText b
  | .text s => quoted s

def Attr.asInt? : Attr → Option Int
  | .int v => some v
  | _ => none

def Attr.asBool? : Attr → Option Bool
  | .bool b => some b
  | _ => none

def Attr.asText? : Attr → Option String
  | .text s => some s
  | _ => none

/-- Sets the value of a key, keeping the keys in increasing order. -/
def Attrs.set (key : String) (value : Attr) : Attrs → Attrs
  | [] => [(key, value)]
  | (k, v) :: rest =>
    if key < k then (key, value) :: (k, v) :: rest
    else if key = k then (key, value) :: rest
    else (k, v) :: Attrs.set key value rest

def Attrs.get? (attrs : Attrs) (key : String) : Option Attr :=
  attrs.lookup key

end Staging
