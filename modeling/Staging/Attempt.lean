import Staging.Lex

namespace Staging

/-- What a parser would have taken at some token. -/
inductive Expectation where
  /-- A token that is always written the same way. -/
  | fixed (text : String)
  | somethingElse
  | endOfInput
deriving DecidableEq

/-- The furthest place at which an attempt failed, and everything attempted there, in order
and without repeats. The place is the start of a token, or `none` behind the last one. -/
structure Furthest where
  place : Option Nat
  expected : List Expectation
deriving DecidableEq

/-- The record of a parser that never failed. -/
def Furthest.clear : Furthest :=
  ⟨none, []⟩

def isFurther : Option Nat → Option Nat → Bool
  | none, some _ => true
  | some a, some b => b < a
  | _, none => false

/-- The record of two parsers that ran one after the other. -/
def Furthest.join (a b : Furthest) : Furthest :=
  if b.expected = [] then a
  else if a.expected = [] then b
  else if a.place = b.place then
    ⟨a.place, a.expected ++ b.expected.filter fun e => !a.expected.contains e⟩
  else if isFurther b.place a.place then b
  else a

/-- What came of an attempt: a value with the tokens after it, and the failures met on the
way, which a successful attempt has too. -/
structure Outcome (α : Type) where
  value : Option (α × List Lexed)
  failure : Furthest

/-- A parser of the tokens of a source text. -/
def Attempt (α : Type) : Type :=
  List Lexed → Outcome α

def Attempt.pure {α : Type} (a : α) : Attempt α :=
  fun ts => ⟨some (a, ts), .clear⟩

def Attempt.bind {α β : Type} (p : Attempt α) (k : α → Attempt β) : Attempt β :=
  fun ts =>
    let first := p ts
    match first.value with
    | some (a, rest) =>
      let second := k a rest
      ⟨second.value, first.failure.join second.failure⟩
    | none => ⟨none, first.failure⟩

instance : Monad Attempt where
  pure := Attempt.pure
  bind := Attempt.bind

/-- Tries `p`, and `q` on the same tokens where `p` fails. -/
def Attempt.orElse {α : Type} (p q : Attempt α) : Attempt α :=
  fun ts =>
    let first := p ts
    match first.value with
    | some _ => first
    | none =>
      let second := q ts
      ⟨second.value, first.failure.join second.failure⟩

/-- The first of several parsers that succeeds. -/
def Attempt.firstOf {α : Type} : List (Attempt α) → Attempt α
  | [] => fun _ => ⟨none, .clear⟩
  | [p] => p
  | p :: ps => p.orElse (firstOf ps)

def Attempt.optional {α : Type} (p : Attempt α) : Attempt (Option α) :=
  (p.bind fun a => .pure (some a)).orElse (.pure none)

/-- Takes one token, or fails with what was expected in its place. -/
def Attempt.take {α : Type} (expected : Expectation) (f : Lexed → Option α) : Attempt α
  | [] => ⟨none, ⟨none, [expected]⟩⟩
  | t :: ts =>
    match f t with
    | some a => ⟨some (a, ts), .clear⟩
    | none => ⟨none, ⟨some t.span.start, [expected]⟩⟩

/-- Repeats `p` as long as it succeeds and takes tokens. -/
def Attempt.many {α : Type} (p : Attempt α) (ts : List Lexed) : Outcome (List α) :=
  let first := p ts
  match first.value with
  | some (a, rest) =>
    if rest.length < ts.length then
      let later := Attempt.many p rest
      ⟨later.value.map fun (as, rest) => (a :: as, rest), first.failure.join later.failure⟩
    else ⟨some ([a], rest), first.failure⟩
  | none => ⟨some ([], ts), first.failure⟩
termination_by ts.length

/-- One or more items; a separator that no item follows is left where it stands. -/
def Attempt.sepBy1 {α : Type} (sep : Attempt Unit) (p : Attempt α) : Attempt (List α) := do
  let a ← p
  let as ← Attempt.many (sep.bind fun _ => p)
  return a :: as

def Attempt.sepBy {α : Type} (sep : Attempt Unit) (p : Attempt α) : Attempt (List α) :=
  (sepBy1 sep p).orElse (.pure [])

/-- The span from the first to the last of some tokens. -/
def coverSpan (ts : List Lexed) : Option Span :=
  match ts.head?, ts.getLast? with
  | some first, some last => some ⟨first.span.start, last.span.stop⟩
  | _, _ => none

/-- Gives the value of `p` together with the span of the tokens that it took. -/
def Attempt.spanned {α : Type} (p : Attempt (Span → α)) : Attempt α :=
  fun ts =>
    let outcome := p ts
    let cover (rest : List Lexed) : Span :=
      (coverSpan (ts.take (ts.length - rest.length))).getD ⟨0, 0⟩
    ⟨outcome.value.map fun (f, rest) => (f (cover rest), rest), outcome.failure⟩

/-- Succeeds behind the last token only. -/
def Attempt.finish : Attempt Unit
  | [] => ⟨some ((), []), .clear⟩
  | t :: _ => ⟨none, ⟨some t.span.start, [.endOfInput]⟩⟩

end Staging
