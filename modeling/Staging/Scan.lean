import Staging.Quoted
import Staging.Span
import Staging.Token

namespace Staging

structure Lexed where
  token : Token
  span : Span
deriving DecidableEq

/-- A stretch of source that belongs to no token. -/
structure BadText where
  text : String
  span : Span
deriving DecidableEq

/-- What a stretch of source is. -/
inductive Piece where
  | token (token : Token)
  | bad
  | blank
deriving DecidableEq

/-- The first piece of a source text and the text after it. -/
structure Cut where
  piece : Piece
  rest : List Char

/-- What the first character of a piece announces. -/
inductive Lead where
  | blank
  | comment
  | newline
  | quote
  | percent
  | at
  | minus
  | digit
  | letter
  | mark (mark : Mark)
  | other

def isWordStart (c : Char) : Bool :=
  c.isAlpha || c = '_'

def isWordChar (c : Char) : Bool :=
  c.isAlphanum || c = '_'

def Lead.ofChar (c : Char) : Lead :=
  if isWordStart c then .letter
  else if c.isDigit then .digit
  else match c with
    | ' ' | '\t' | '\r' => .blank
    | '#' => .comment
    | '\n' => .newline
    | '"' => .quote
    | '%' => .percent
    | '@' => .at
    | '-' => .minus
    | c => match Mark.ofChar? c with
      | some m => .mark m
      | none => .other

/-- The longest word that a text starts with. -/
def wordAt (cs : List Char) : String :=
  String.ofList (cs.takeWhile isWordChar)

/-- The value of a run of decimal digits. -/
def decimalValue (digits : List Char) : Nat :=
  Nat.ofDigitChars 10 digits 0

/-- Integers of the language are signed and 64 bits wide. -/
def fitsInt (v : Int) : Bool :=
  -Int.pow 2 63 ≤ v && v < Int.pow 2 63

/-- Known dimensions are unsigned and 64 bits wide. -/
def fitsDim (n : Nat) : Bool :=
  n < Nat.pow 2 64

/-- An integer with the sign `negative`, whose digits start the text. -/
def cutInt (negative : Bool) (cs : List Char) : Cut :=
  let n : Int := decimalValue (cs.takeWhile Char.isDigit)
  let v := if negative then -n else n
  ⟨if fitsInt v then .token (.int v) else .bad, cs.dropWhile Char.isDigit⟩

/-- The inside of a string up to its closing quote, and the text behind that quote. An
unfinished string ends before a backslash that escapes nothing, or with the source. -/
def stringBody : List Char → Option (List Char) × List Char
  | [] => (none, [])
  | '"' :: cs => (some [], cs)
  | ['\\'] => (none, ['\\'])
  | '\\' :: c :: cs =>
    if c = '\n' then (none, '\\' :: c :: cs)
    else
      ((stringBody cs).1.map fun inside => '\\' :: c :: inside, (stringBody cs).2)
  | c :: cs => ((stringBody cs).1.map (c :: ·), (stringBody cs).2)

/-- The content of a string from its written form. Only quotes and backslashes may be
escaped. -/
def unescape : List Char → Option (List Char)
  | [] => some []
  | '\\' :: '"' :: cs => (unescape cs).map ('"' :: ·)
  | '\\' :: '\\' :: cs => (unescape cs).map ('\\' :: ·)
  | c :: cs => if c = '\\' then none else (unescape cs).map (c :: ·)

/-- A string, given the text behind its opening quote. -/
def cutString (cs : List Char) : Cut :=
  ⟨match (stringBody cs).1.bind unescape with
    | some content => .token (.string (String.ofList content))
    | none => .bad,
    (stringBody cs).2⟩

/-- A dimension from its digits; a dimension that is too wide spoils the type. -/
def readDim (digits : List Char) : Option Nat :=
  let n := decimalValue digits
  if fitsDim n then some n else none

/-- The inside of an array type: dimensions, element name and closing bracket. `dims` holds
the dimensions read so far, `none` once one was too wide, and `digits` those of a dimension
that has not met its `x` yet. The text stops where a type can no longer go on. -/
def shapedBody (dims : Option (List (Option Nat))) (digits : List Char) :
    List Char → Option (List (Option Nat) × List Char) × List Char
  | [] => (none, [])
  | '?' :: 'x' :: cs =>
    if digits = [] then shapedBody (dims.map (· ++ [none])) [] cs else (none, '?' :: 'x' :: cs)
  | c :: cs =>
    if c.isDigit then shapedBody dims (digits ++ [c]) cs
    else if digits = [] then
      if isWordStart c then
        match cs.dropWhile isWordChar with
        | '>' :: rest => (dims.map fun dims => (dims, c :: cs.takeWhile isWordChar), rest)
        | rest => (none, rest)
      else (none, c :: cs)
    else if c = 'x' then
      shapedBody (dims.bind fun dims => (readDim digits).map fun n => dims ++ [some n]) [] cs
    else (none, c :: cs)

def Container.ofText? (word : String) : Option Container :=
  [Container.memref, .tensor].find? fun k => k.text = word

/-- An array type, given the text behind its opening bracket. -/
def cutShaped (container : Container) (cs : List Char) : Cut :=
  ⟨match (shapedBody (some []) [] cs).1 with
    | some (dims, elem) => .token (.shaped ⟨container, dims, String.ofList elem⟩)
    | none => .bad,
    (shapedBody (some []) [] cs).2⟩

def wordToken (word : String) : Token :=
  match Keyword.ofText? word with
  | some k => .keyword k
  | none => .ident word

/-- A word: an array type where a bracket follows its container, else a keyword or name. -/
def cutWord (cs : List Char) : Cut :=
  match Container.ofText? (wordAt cs), cs.dropWhile isWordChar with
  | some container, '<' :: rest => cutShaped container rest
  | _, rest => ⟨.token (wordToken (wordAt cs)), rest⟩

/-- A value name, given the text behind its sign. -/
def cutValue (cs : List Char) : Cut :=
  if cs.head?.any isWordChar then
    ⟨.token (.value (wordAt cs)), cs.dropWhile isWordChar⟩
  else ⟨.bad, cs⟩

/-- A function symbol, given the text behind its sign. -/
def cutSymbol (cs : List Char) : Cut :=
  if cs.head?.any isWordStart then
    ⟨.token (.symbol (wordAt cs)), cs.dropWhile isWordChar⟩
  else ⟨.bad, cs⟩

/-- Cuts the first piece off a source text that starts with `c`. -/
def cut (c : Char) (cs : List Char) : Cut :=
  match Lead.ofChar c with
  | .blank => ⟨.blank, cs⟩
  | .comment => ⟨.blank, cs.dropWhile (· ≠ '\n')⟩
  | .newline => ⟨.token .newline, cs.dropWhile (· = '\n')⟩
  | .quote => cutString cs
  | .percent => cutValue cs
  | .at => cutSymbol cs
  | .minus => if cs.head?.any Char.isDigit then cutInt true cs else ⟨.bad, cs⟩
  | .digit => cutInt false (c :: cs)
  | .letter => cutWord (c :: cs)
  | .mark m => ⟨.token (.mark m), cs⟩
  | .other => ⟨.bad, cs⟩

theorem stringBody_suffix (cs : List Char) : (stringBody cs).2 <:+ cs := by
  fun_induction stringBody cs with
  | case1 => exact List.suffix_refl _
  | case2 cs => exact List.suffix_cons _ _
  | case3 => exact List.suffix_refl _
  | case4 cs => exact List.suffix_refl _
  | case5 c cs hc ih => exact ih.trans ((List.suffix_cons _ _).trans (List.suffix_cons _ _))
  | case6 c cs _ _ _ ih => exact ih.trans (List.suffix_cons _ _)

theorem shapedBody_suffix (dims : Option (List (Option Nat))) (digits cs : List Char) :
    (shapedBody dims digits cs).2 <:+ cs := by
  fun_induction shapedBody dims digits cs with
  | case1 => exact List.suffix_refl _
  | case2 dims cs ih => exact ih.trans ((List.suffix_cons _ _).trans (List.suffix_cons _ _))
  | case3 => exact List.suffix_refl _
  | case4 dims digits c cs _ hc ih => exact ih.trans (List.suffix_cons _ _)
  | case5 dims c cs _ hc hw rest hr =>
    have h := List.dropWhile_suffix isWordChar (l := cs)
    rw [hr] at h
    exact ((List.suffix_cons _ _).trans h).trans (List.suffix_cons _ _)
  | case6 =>
    exact (List.dropWhile_suffix isWordChar).trans (List.suffix_cons _ _)
  | case7 => exact List.suffix_refl _
  | case8 dims digits cs _ _ _ ih => exact ih.trans (List.suffix_cons _ _)
  | case9 => exact List.suffix_refl _

theorem cutSymbol_suffix (cs : List Char) : (cutSymbol cs).rest <:+ cs := by
  unfold cutSymbol
  split
  next => exact List.dropWhile_suffix _
  next => exact List.suffix_refl _

theorem cutValue_suffix (cs : List Char) : (cutValue cs).rest <:+ cs := by
  unfold cutValue
  split
  next => exact List.dropWhile_suffix _
  next => exact List.suffix_refl _

theorem cutWord_suffix {c : Char} (hc : isWordChar c) (cs : List Char) :
    (cutWord (c :: cs)).rest <:+ cs := by
  have hd : (c :: cs).dropWhile isWordChar = cs.dropWhile isWordChar := by
    simp [hc]
  have h := List.dropWhile_suffix isWordChar (l := cs)
  unfold cutWord
  rw [hd]
  split
  next container rest _ hr =>
    rw [hr] at h
    exact (shapedBody_suffix _ _ rest).trans ((List.suffix_cons _ _).trans h)
  next => exact h

theorem isWordChar_of_isWordStart {c : Char} (hc : isWordStart c) : isWordChar c := by
  simp only [isWordStart, isWordChar, Char.isAlphanum, Bool.or_eq_true] at *
  exact hc.imp Or.inl id

theorem Lead.ofChar_letter {c : Char} (h : Lead.ofChar c = .letter) : isWordStart c := by
  unfold Lead.ofChar at h
  grind

theorem Lead.ofChar_digit {c : Char} (h : Lead.ofChar c = .digit) : c.isDigit := by
  unfold Lead.ofChar at h
  grind

/-- A piece takes at least its first character, and what is left ends the source. -/
theorem cut_suffix (c : Char) (cs : List Char) : (cut c cs).rest <:+ cs := by
  unfold cut
  split
  next => exact List.suffix_refl _
  next => exact List.dropWhile_suffix _
  next => exact List.dropWhile_suffix _
  next => exact stringBody_suffix cs
  next => exact cutValue_suffix cs
  next => exact cutSymbol_suffix cs
  next =>
    split
    next => exact List.dropWhile_suffix _
    next => exact List.suffix_refl _
  next h =>
    have hd : (c :: cs).dropWhile Char.isDigit = cs.dropWhile Char.isDigit := by
      simp [Lead.ofChar_digit h]
    simp only [cutInt, hd]
    exact List.dropWhile_suffix _
  next h => exact cutWord_suffix (isWordChar_of_isWordStart (Lead.ofChar_letter h)) cs
  next => exact List.suffix_refl _
  next => exact List.suffix_refl _

end Staging
