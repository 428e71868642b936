import Staging.Grammar

namespace Staging

/-- Why a source text is no program. -/
inductive ParseFault where
  /-- A stretch of text that is no token. -/
  | badText (text : String)
  /-- A token where none of the expected ones stands; `none` is the end of the source. -/
  | unexpected (found : Option Token) (expected : List Expectation)
deriving DecidableEq

structure ParseError where
  span : Span
  fault : ParseFault
deriving DecidableEq

/-- The program of a source text, if its tokens form one, and all that is wrong with it. -/
structure Parsed where
  program : Option Program
  errors : List ParseError

def Expectation.text : Expectation → String
  | .fixed text => "'" ++ text ++ "'"
  | .somethingElse => "something else"
  | .endOfInput => "end of input"

/-- Joins alternatives with commas, and the last with an `or`. -/
def orList : List String → String
  | [] => "something else"
  | [a] => a
  | [a, b] => a ++ ", or " ++ b
  | a :: rest => a ++ ", " ++ orList rest

def foundText : Option Token → String
  | some t => "'" ++ t.text ++ "'"
  | none => "end of input"

def ParseError.message (e : ParseError) : String :=
  match e.fault with
  | .badText text => "unexpected character: " ++ quoted text
  | .unexpected found expected =>
    "found " ++ foundText found ++ " expected " ++ orList (expected.map Expectation.text)

def BadText.toError (b : BadText) : ParseError :=
  ⟨b.span, .badText b.text⟩

/-- The error at the furthest failure among the tokens of a source of `size` bytes. -/
def Furthest.toError (f : Furthest) (tokens : List Lexed) (size : Nat) : ParseError :=
  match tokens.find? fun t => f.place = some t.span.start with
  | some t => ⟨t.span, .unexpected (some t.token) f.expected⟩
  | none => ⟨⟨size, size⟩, .unexpected none f.expected⟩

/-- Parses the tokens of a source of `size` bytes. No nesting is deeper than the number of
tokens. -/
def parseTokens (tokens : List Lexed) (size : Nat) : Except ParseError Program :=
  let outcome := parseItems tokens.length tokens
  match outcome.value with
  | some (items, _) => .ok ⟨items, (coverSpan tokens).getD ⟨size, size⟩⟩
  | none => .error (outcome.failure.toError tokens size)

/-- Parses a source text. Text that is no token is reported and left out. -/
def parse (source : String) : Parsed :=
  let lexing := lex source
  let bad := lexing.bad.map BadText.toError
  match parseTokens lexing.tokens (byteLength source.toList) with
  | .ok program => ⟨some program, bad⟩
  | .error e => ⟨none, bad ++ [e]⟩

end Staging
