import Staging.ValueType

namespace Staging

inductive Keyword where
  | func
  | setting
  | attributes
  | loop
  | upTo
  | alloc
  | alloca
  | constant
  | op
  | load
  | store
  | copy
  | ret
  | toTensor
  | toMemref
  | yes
  | no
deriving DecidableEq

inductive Mark where
  | lparen
  | rparen
  | lbrace
  | rbrace
  | comma
  | equals
  | colon
deriving DecidableEq

inductive Token where
  | keyword (word : Keyword)
  | mark (mark : Mark)
  | shaped (shape : Shaped)
  | int (value : Int)
  | string (content : String)
  /-- `%name`, held without its sign. -/
  | value (name : String)
  /-- `@name`, held without its sign. -/
  | symbol (name : String)
  | ident (name : String)
  | newline
deriving DecidableEq

def Keyword.text : Keyword → String
  | .func => "func"
  | .setting => "set"
  | .attributes => "attributes"
  | .loop => "for"
  | .upTo => "to"
  | .alloc => "alloc"
  | .alloca => "alloca"
  | .constant => "constant"
  | .op => "op"
  | .load => "load"
  | .store => "store"
  | .copy => "copy"
  | .ret => "return"
  | .toTensor => "to_tensor"
  | .toMemref => "to_memref"
  | .yes => "true"
  | .no => "false"

def Keyword.all : List Keyword :=
  [.func, .setting, .attributes, .loop, .upTo, .alloc, .alloca, .constant, .op, .load, .store,
    .copy, .ret, .toTensor, .toMemref, .yes, .no]

def Keyword.ofText? (word : String) : Option Keyword :=
  Keyword.all.find? fun k => k.text = word

def Mark.char : Mark → Char
  | .lparen => '('
  | .rparen => ')'
  | .lbrace => '\x7b'
  | .rbrace => '\x7d'
  | .comma => ','
  | .equals => '='
  | .colon => ':'

def Mark.all : List Mark :=
  [.lparen, .rparen, .lbrace, .rbrace, .comma, .equals, .colon]

def Mark.ofChar? (c : Char) : Option Mark :=
  Mark.all.find? fun m => m.char = c

/-- How a token is shown in a message. A string is shown between quotes, unescaped. -/
def Token.text : Token → String
  | .keyword k => k.text
  | .mark m => m.char.toString
  | .shaped s => s.text
  | .int v => toString v
  | .string content => "\"" ++ content ++ "\""
  | .value name => "%" ++ name
  | .symbol name => "@" ++ name
  | .ident _ => "<ident>"
  | .newline => "<newline>"

theorem Keyword.mem_all (k : Keyword) : k ∈ Keyword.all := by
  cases k <;> decide

theorem Mark.mem_all (m : Mark) : m ∈ Mark.all := by
  cases m <;> decide

end Staging
