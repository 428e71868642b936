import Staging.Scan

namespace Staging

/-- The tokens of a source text, and the stretches of it that are no token, in order. -/
structure Lexing where
  tokens : List Lexed
  bad : List BadText

def Lexing.addToken (l : Lexing) (token : Token) (span : Span) : Lexing :=
  { l with tokens := ⟨token, span⟩ :: l.tokens }

def Lexing.addBad (l : Lexing) (text : List Char) (span : Span) : Lexing :=
  { l with bad := ⟨String.ofList text, span⟩ :: l.bad }

/-- Lexes a text that starts at the given byte offset of the source. -/
def lexFrom (start : Nat) : List Char → Lexing
  | [] => ⟨[], []⟩
  | c :: cs =>
    have := (cut_suffix c cs).length_le
    let text := (c :: cs).take ((c :: cs).length - (cut c cs).rest.length)
    let span : Span := ⟨start, start + byteLength text⟩
    let later := lexFrom span.stop (cut c cs).rest
    match (cut c cs).piece with
    | .token token => later.addToken token span
    | .bad => later.addBad text span
    | .blank => later
termination_by cs => cs.length
decreasing_by simp_wf; omega

def lex (source : String) : Lexing :=
  lexFrom 0 source.toList

end Staging
