import Mathlib.Data.List.Basic
import Mathlib.Data.List.Chain
import Staging.Proofs.Spelling
import Staging.Tree

namespace Staging

/-- A piece of a text that is written out: a token, a space, or the end of a line with some
empty lines behind it. -/
inductive Lexeme where
  | token (t : Token)
  | space
  | lines (empty : Nat)

def Lexeme.word (k : Keyword) : Lexeme :=
  .token (.keyword k)

def Lexeme.mark (m : Mark) : Lexeme :=
  .token (.mark m)

def Lexeme.spelled : Lexeme → List Char
  | .token t => t.spelled
  | .space => [' ']
  | .lines empty => List.replicate (empty + 1) '\n'

def Lexeme.token? : Lexeme → Option Token
  | .token t => some t
  | .space => none
  | .lines _ => some .newline

/-- The text of some lexemes. -/
def spell (ls : List Lexeme) : List Char :=
  ls.flatMap Lexeme.spelled

/-- The tokens among some lexemes, which are all that is left of them when their text is read. -/
def tokensOf (ls : List Lexeme) : List Token :=
  ls.filterMap Lexeme.token?

/-- Whether a lexeme would go on with a word character or bracket behind it. -/
def Lexeme.isTight : Lexeme → Bool
  | .token (.mark _) | .token (.shaped _) | .token (.string _) | .token .newline => false
  | .token _ => true
  | .space | .lines _ => false

/-- Whether no word goes on into a lexeme. -/
def Lexeme.isLoose : Lexeme → Bool
  | .token (.mark _) | .token (.string _) | .token (.value _) | .token (.symbol _)
  | .token .newline => true
  | .token _ => false
  | .space | .lines _ => true

def Lexeme.isLine : Lexeme → Bool
  | .token t => t = .newline
  | .space => false
  | .lines _ => true

/-- Whether two lexemes stay apart where one is written right behind the other. -/
def Lexeme.fits (l next : Lexeme) : Bool :=
  (!l.isTight || next.isLoose) && (!l.isLine || !next.isLine)

/-- A text in which neighbours stay apart. -/
def Spaced (ls : List Lexeme) : Prop :=
  ls.IsChain fun l next => l.fits next = true

section Lexemes

variable {t : Token} {l next : Lexeme} {ls ms : List Lexeme}

@[simp] theorem spell_nil : spell [] = [] :=
  rfl

@[simp] theorem spell_cons : spell (l :: ls) = l.spelled ++ spell ls :=
  rfl

@[simp] theorem spell_append : spell (ls ++ ms) = spell ls ++ spell ms :=
  List.flatMap_append

@[simp] theorem tokensOf_nil : tokensOf [] = [] :=
  rfl

@[simp] theorem tokensOf_append : tokensOf (ls ++ ms) = tokensOf ls ++ tokensOf ms :=
  List.filterMap_append

@[simp] theorem tokensOf_token : tokensOf (.token t :: ls) = t :: tokensOf ls :=
  rfl

@[simp] theorem tokensOf_word (k : Keyword) : tokensOf (.word k :: ls) = .keyword k :: tokensOf ls :=
  rfl

@[simp] theorem tokensOf_mark (m : Mark) : tokensOf (.mark m :: ls) = .mark m :: tokensOf ls :=
  rfl

@[simp] theorem tokensOf_space : tokensOf (.space :: ls) = tokensOf ls :=
  rfl

@[simp] theorem tokensOf_lines (n : Nat) : tokensOf (.lines n :: ls) = .newline :: tokensOf ls :=
  rfl

theorem Lexeme.loose_of_fits (h : l.fits next = true) (tight : l.isTight = true) :
    next.isLoose = true := by
  simp only [Lexeme.fits, tight, Bool.and_eq_true, Bool.or_eq_true] at h
  simpa using h.1

theorem Lexeme.noLine_of_fits (h : l.fits next = true) (line : l.isLine = true) :
    next.isLine = false := by
  simp only [Lexeme.fits, line, Bool.and_eq_true, Bool.or_eq_true] at h
  simpa using h.2

theorem mark_char_loose (m : Mark) : isWordChar m.char = false ∧ m.char ≠ '<' := by
  cases m <;> decide

/-- A loose lexeme starts with a character that ends every word. -/
theorem Lexeme.loose_head (loose : l.isLoose = true) (rest : List Char) :
    ∀ c ∈ (l.spelled ++ rest).head?, isWordChar c = false ∧ c ≠ '<' := by
  cases l with
  | space => simp [Lexeme.spelled, isWordChar]
  | lines n => simp [Lexeme.spelled, List.replicate_succ, isWordChar]
  | token t =>
    cases t with
    | mark m => simpa [Lexeme.spelled, Token.spelled] using mark_char_loose m
    | string content => simp [Lexeme.spelled, Token.spelled, quoted, isWordChar]
    | value name => simp [Lexeme.spelled, Token.spelled, isWordChar]
    | symbol name => simp [Lexeme.spelled, Token.spelled, isWordChar]
    | newline => simp [Lexeme.spelled, Token.spelled, isWordChar]
    | keyword | shaped | int | ident => cases loose

/-- Only a line end starts with one. -/
theorem Lexeme.head_ne_newline (proper : ∀ t, l.token? = some t → t.Proper)
    (other : l.isLine = false) (rest : List Char) : (l.spelled ++ rest).head? ≠ some '\n' := by
  cases l with
  | space => simp [Lexeme.spelled]
  | lines n => cases other
  | token t =>
    have ends : t.Ends [] := by cases t <;> simp [Token.Ends]
    obtain ⟨c, cs, split, read⟩ := Token.cut_written (proper t rfl) ends
    rw [List.append_nil] at split
    simp only [Lexeme.spelled, split, List.cons_append, List.head?_cons, ne_eq, Option.some.injEq]
    rintro rfl
    have newline : (cut '\n' cs).piece = .token .newline := rfl
    rw [read] at newline
    simp only at newline
    split at newline
    next => simp [Lexeme.isLine, Piece.token.inj newline] at other
    next => cases newline

/-- Where no line end follows, a line ends at its end. -/
theorem cut_newline {rest : List Char} (stop : rest.head? ≠ some '\n') (n : Nat) :
    cut '\n' (List.replicate n '\n' ++ rest) = ⟨.token .newline, rest⟩ := by
  have lead : Lead.ofChar '\n' = .newline := rfl
  have left : (List.replicate n '\n' ++ rest).dropWhile (· = '\n') = rest := by
    refine dropWhile_run (by simp) fun c hc => ?_
    simpa using fun he : c = '\n' => stop (he ▸ hc)
  unfold cut
  rw [lead]
  simp only [left]

/-- The first piece of a text takes what it takes, and the rest is read on its own. -/
theorem lexFrom_of_cut {start : Nat} {c : Char} {cs rest : List Char}
    (read : cut c cs = ⟨.token t, rest⟩) : ∃ span, lexFrom start (c :: cs) =
      (lexFrom span.stop rest).addToken t span := by
  rw [lexFrom, read]
  exact ⟨_, rfl⟩

theorem lexFrom_of_blank {start : Nat} {c : Char} {cs rest : List Char}
    (read : cut c cs = ⟨.blank, rest⟩) : ∃ stop, lexFrom start (c :: cs) = lexFrom stop rest := by
  rw [lexFrom, read]
  exact ⟨_, rfl⟩

theorem lexFrom_of_bad {start : Nat} {c : Char} {cs text rest : List Char}
    (split : c :: cs = text ++ rest) (read : cut c cs = ⟨.bad, rest⟩) : ∃ span,
      lexFrom start (c :: cs) = (lexFrom span.stop rest).addBad text span := by
  rw [lexFrom, read]
  simp only [split, List.length_append, Nat.add_sub_cancel_right, List.take_left]
  exact ⟨⟨start, _⟩, rfl⟩

/-- What is read of a source that is one piece. -/
def Piece.alone (piece : Piece) (source : String) : Lexing :=
  match piece with
  | .token t => ⟨[⟨t, ⟨0, byteLength source.toList⟩⟩], []⟩
  | .bad => ⟨[], [⟨source, ⟨0, byteLength source.toList⟩⟩]⟩
  | .blank => ⟨[], []⟩

theorem lex_alone {source : String} {c : Char} {cs : List Char} {piece : Piece}
    (whole : source.toList = c :: cs) (read : cut c cs = ⟨piece, []⟩) :
    lex source = piece.alone source := by
  have text : String.ofList (c :: cs) = source := by rw [← whole, String.ofList_toList]
  rw [lex, whole, lexFrom, read]
  cases piece <;>
    simp [Piece.alone, Lexing.addToken, Lexing.addBad, lexFrom, text, whole]

/-- A text that is spelled out of proper tokens which stay apart is read as those that are plain.
The others cannot be read. -/
theorem lexFrom_spell (spaced : Spaced ls) (proper : ∀ t ∈ tokensOf ls, t.Proper) (start : Nat) :
    (lexFrom start (spell ls)).tokens.map Lexed.token = (tokensOf ls).filter (·.Plain) ∧
      (lexFrom start (spell ls)).bad.map BadText.text =
        ((tokensOf ls).filter (¬ ·.Plain)).map fun t => String.ofList t.spelled := by
  induction ls generalizing start with
  | nil => simp [lexFrom]
  | cons l ls ih =>
    obtain ⟨fits, spaced⟩ := List.isChain_cons.mp spaced
    have later (start : Nat) := ih spaced (fun t ht => proper t (by cases l <;> simp [ht])) start
    have loose (tight : l.isTight = true) :
        ∀ c ∈ (spell ls).head?, isWordChar c = false ∧ c ≠ '<' := by
      cases ls with
      | nil => simp
      | cons next ls =>
        exact Lexeme.loose_head (Lexeme.loose_of_fits (fits next rfl) tight) _
    have onward (line : l.isLine = true) : (spell ls).head? ≠ some '\n' := by
      cases ls with
      | nil => simp
      | cons next ls =>
        refine Lexeme.head_ne_newline (fun t ht => proper t ?_)
          (Lexeme.noLine_of_fits (fits next rfl) line) _
        cases l <;> simp [tokensOf, ht]
    cases l with
    | space =>
      have read : cut ' ' (spell ls) = ⟨.blank, spell ls⟩ := rfl
      obtain ⟨stop, eq⟩ := @lexFrom_of_blank start _ _ _ read
      have whole : spell (.space :: ls) = ' ' :: spell ls := rfl
      rw [whole, eq]
      exact later stop
    | lines n =>
      have read := cut_newline (onward rfl) n
      obtain ⟨span, eq⟩ := @lexFrom_of_cut _ start _ _ _ read
      have whole : spell (.lines n :: ls) = '\n' :: (List.replicate n '\n' ++ spell ls) := rfl
      have plain : Token.newline.Plain := trivial
      obtain ⟨tokens, bad⟩ := later span.stop
      rw [whole, eq, tokensOf_lines, List.filter_cons_of_pos (by simpa using plain),
        List.filter_cons_of_neg (by simpa using plain)]
      exact ⟨congrArg (Token.newline :: ·) tokens, bad⟩
    | token t =>
      have ends : t.Ends (spell ls) := by
        cases t with
        | mark | shaped | string => trivial
        | newline => exact onward rfl
        | keyword | int | value | symbol | ident => exact loose rfl
      obtain ⟨c, cs, split, read⟩ := Token.cut_written (proper t (by simp)) ends
      have whole : spell (.token t :: ls) = t.spelled ++ spell ls := rfl
      rw [whole, tokensOf_token, split]
      by_cases plain : t.Plain
      · rw [if_pos plain] at read
        obtain ⟨span, eq⟩ := @lexFrom_of_cut _ start _ _ _ read
        obtain ⟨tokens, bad⟩ := later span.stop
        rw [eq, List.filter_cons_of_pos (by simpa using plain),
          List.filter_cons_of_neg (by simpa using plain)]
        exact ⟨congrArg (t :: ·) tokens, bad⟩
      · rw [if_neg plain] at read
        obtain ⟨span, eq⟩ := @lexFrom_of_bad start _ _ _ _ split.symm read
        obtain ⟨tokens, bad⟩ := later span.stop
        rw [eq, List.filter_cons_of_neg (by simpa using plain),
          List.filter_cons_of_pos (by simpa using plain)]
        exact ⟨tokens, congrArg (String.ofList t.spelled :: ·) bad⟩

end Lexemes

/-- Items with commas between them. -/
def commas (items : List (List Lexeme)) : List Lexeme :=
  List.intercalate [.mark .comma, .space] items

def Name.lexeme (n : Name) : Lexeme :=
  .token (.value n.text)

def valueLexemes (names : List Name) : List Lexeme :=
  commas (names.map fun n => [n.lexeme])

def TypeExpr.token : TypeExpr → Token
  | .named name => .ident name.text
  | .shaped shape _ => .shaped shape

def Attr.token : Attr → Token
  | .int v => .int v
  | .bool b => .keyword (if b then .yes else .no)
  | .text s => .string s

def AttrEntry.lexemes (e : AttrEntry) : List Lexeme :=
  [.token (.ident e.key.text), .space, .mark .equals, .space, .token e.value.token]

/-- Attributes behind a space, or nothing if there are none. -/
def attrLexemes (attrs : List AttrEntry) : List Lexeme :=
  if attrs.isEmpty then []
  else [.space, .mark .lbrace] ++ commas (attrs.map AttrEntry.lexemes) ++ [.mark .rbrace]

def typeLexemes (types : List TypeExpr) : List Lexeme :=
  [.space, .mark .colon, .space] ++ commas (types.map fun t => [.token t.token])

def resultLexemes (names : List Name) : List Lexeme :=
  if names.isEmpty then [] else valueLexemes names ++ [.space, .mark .equals, .space]

def Conversion.keyword : Conversion → Keyword
  | .toTensor => .toTensor
  | .toMemref => .toMemref

/-- The word that an operation starts with. -/
def Op.keyword : Op → Keyword
  | .alloc stack _ => if stack then .alloca else .alloc
  | .constant .. => .constant
  | .convert conversion .. => conversion.keyword
  | .ret _ => .ret
  | .compute .. => .op
  | .load .. => .load
  | .store .. => .store
  | .copy .. => .copy

/-- How an operation is written. -/
def Op.lexemes : Op → List Lexeme
  | .alloc stack type => .word (if stack then .alloca else .alloc) :: typeLexemes [type]
  | .constant value type => [.word .constant, .space, .token (.int value)] ++ typeLexemes [type]
  | .convert conversion operand type =>
    [.word conversion.keyword, .space, operand.lexeme] ++ typeLexemes [type]
  | .ret operands =>
    .word .ret :: (if operands.isEmpty then [] else .space :: valueLexemes operands)
  | .compute name operands types =>
    [.word .op, .space, .token (.string name), .mark .lparen] ++ valueLexemes operands ++
      .mark .rparen :: (if types.isEmpty then [] else typeLexemes types)
  | .load memref type => [.word .load, .space, memref.lexeme] ++ typeLexemes [type]
  | .store value memref => [.word .store, .space] ++ valueLexemes [value, memref]
  | .copy operands type =>
    [.word .copy, .space] ++ valueLexemes operands ++ (type.map fun type => typeLexemes [type]).getD []

def margin (depth : Nat) : List Lexeme :=
  List.replicate (2 * depth) .space

mutual

/-- How a statement is written, up to the end of its last line. -/
def Stmt.lexemes (depth : Nat) : Stmt → List Lexeme
  | .op results op attrs _ =>
    margin depth ++ resultLexemes results ++ op.lexemes ++ attrLexemes attrs
  | .loop results iv lower upper body attrs _ =>
    margin depth ++ resultLexemes results ++ [.word .loop, .space, iv.lexeme, .space, .mark .equals,
      .space, .token (.int lower), .space, .word .upTo, .space, .token (.int upper), .space,
      .mark .lbrace, .lines 0] ++ blockLexemes (depth + 1) body ++ margin depth ++ [.mark .rbrace] ++
      attrLexemes attrs

def blockLexemes (depth : Nat) : List Stmt → List Lexeme
  | [] => []
  | stmt :: stmts => stmt.lexemes depth ++ .lines 0 :: blockLexemes depth stmts

end

def ArgDecl.lexemes (arg : ArgDecl) : List Lexeme :=
  arg.name.lexeme :: [.mark .colon, .space, .token arg.type.token]

/-- How a function is written, up to the end of its last line. -/
def Func.lexemes (f : Func) : List Lexeme :=
  [.word .func, .space, .token (.symbol f.name.text), .mark .lparen] ++
    commas (f.args.map ArgDecl.lexemes) ++ [.mark .rparen] ++
    (if f.attrs.isEmpty then [] else [.space, .word .attributes] ++ attrLexemes f.attrs) ++
    [.space, .mark .lbrace, .lines 0] ++ blockLexemes 1 f.body ++ [.mark .rbrace]

/-- How functions are written one after the other, with empty lines between them. -/
def funcsLexemes : List Func → List Lexeme
  | [] => []
  | [f] => f.lexemes ++ [.lines 0]
  | f :: g :: rest => f.lexemes ++ .lines 1 :: funcsLexemes (g :: rest)

theorem tokensOf_commas (items : List (List Lexeme)) :
    tokensOf (commas items) = List.intercalate [.mark .comma] (items.map tokensOf) := by
  induction items with
  | nil => rfl
  | cons item items ih =>
    cases items with
    | nil => simp [commas]
    | cons next items =>
      rw [commas, List.intercalate_cons_cons, tokensOf_append, tokensOf_append]
      rw [commas] at ih
      simp [ih, List.intercalate_cons_cons]

@[simp] theorem tokensOf_margin (depth : Nat) : tokensOf (margin depth) = [] := by
  unfold margin
  induction 2 * depth with
  | zero => rfl
  | succ n ih => rw [List.replicate_succ, tokensOf_space, ih]

@[simp] theorem tokensOf_lexeme (n : Name) (ls : List Lexeme) :
    tokensOf (n.lexeme :: ls) = .value n.text :: tokensOf ls :=
  rfl

/-- What may stand behind a word. -/
structure Follows (ls : List Lexeme) : Prop where
  spaced : Spaced ls
  loose : ∀ l ∈ ls.head?, l.isLoose = true

section Spaced

variable {l : Lexeme} {ls rest : List Lexeme}

theorem spaced_tight (tight : l.isTight = true) (inner : l.isLine = false) :
    Spaced (l :: ls) ↔ Follows ls := by
  unfold Spaced
  rw [List.isChain_cons]
  constructor
  · exact fun ⟨fits, spaced⟩ => ⟨spaced, fun next h => Lexeme.loose_of_fits (fits next h) tight⟩
  · exact fun ⟨spaced, loose⟩ => ⟨fun next h => by simp [Lexeme.fits, loose next h, inner], spaced⟩

theorem spaced_free (free : l.isTight = false) (inner : l.isLine = false) :
    Spaced (l :: ls) ↔ Spaced ls := by
  unfold Spaced
  simp [List.isChain_cons, Lexeme.fits, free, inner]

@[simp] theorem spaced_space : Spaced (.space :: ls) ↔ Spaced ls :=
  spaced_free rfl rfl

@[simp] theorem spaced_mark (m : Mark) : Spaced (.mark m :: ls) ↔ Spaced ls :=
  spaced_free rfl rfl

@[simp] theorem spaced_string (s : String) : Spaced (.token (.string s) :: ls) ↔ Spaced ls :=
  spaced_free rfl rfl

@[simp] theorem spaced_word (k : Keyword) : Spaced (.word k :: ls) ↔ Follows ls :=
  spaced_tight rfl rfl

@[simp] theorem spaced_int (v : Int) : Spaced (.token (.int v) :: ls) ↔ Follows ls :=
  spaced_tight rfl rfl

@[simp] theorem spaced_ident (s : String) : Spaced (.token (.ident s) :: ls) ↔ Follows ls :=
  spaced_tight rfl rfl

@[simp] theorem spaced_symbol (s : String) : Spaced (.token (.symbol s) :: ls) ↔ Follows ls :=
  spaced_tight rfl rfl

@[simp] theorem spaced_value (n : Name) : Spaced (n.lexeme :: ls) ↔ Follows ls :=
  spaced_tight rfl rfl

@[simp] theorem follows_space : Follows (.space :: ls) ↔ Spaced ls :=
  ⟨fun h => spaced_space.mp h.spaced, fun h => ⟨spaced_space.mpr h, by simp [Lexeme.isLoose]⟩⟩

@[simp] theorem follows_mark (m : Mark) : Follows (.mark m :: ls) ↔ Spaced ls :=
  ⟨fun h => (spaced_mark m).mp h.spaced,
    fun h => ⟨(spaced_mark m).mpr h, by simp [Lexeme.mark, Lexeme.isLoose]⟩⟩

theorem TypeExpr.spaced (t : TypeExpr) (h : Follows rest) : Spaced (.token t.token :: rest) := by
  cases t with
  | named name => exact (spaced_ident name.text).mpr h
  | shaped shape span => exact (spaced_free rfl rfl).mpr h.spaced

theorem Attr.spaced (a : Attr) (h : Follows rest) : Spaced (.token a.token :: rest) := by
  cases a with
  | int v => exact (spaced_int v).mpr h
  | bool b => exact (spaced_word _).mpr h
  | text s => exact (spaced_string s).mpr h.spaced

theorem commas_spaced {items : List (List Lexeme)}
    (each : ∀ item ∈ items, ∀ rest, Follows rest → Spaced (item ++ rest)) (h : Follows rest) :
    Spaced (commas items ++ rest) := by
  induction items with
  | nil => exact h.spaced
  | cons item items ih =>
    cases items with
    | nil => simpa [commas] using each item (by simp) rest h
    | cons next items =>
      have later := ih fun item hi => each item (by simp [hi])
      rw [commas, List.intercalate_cons_cons, List.append_assoc, List.append_assoc]
      exact each item (by simp) _ ((follows_mark _).mpr (spaced_space.mpr later))

theorem valueLexemes_spaced (names : List Name) (h : Follows rest) :
    Spaced (valueLexemes names ++ rest) := by
  refine commas_spaced ?_ h
  rintro item hi rest h
  obtain ⟨name, -, rfl⟩ := List.mem_map.mp hi
  exact (spaced_value name).mpr h

theorem typeLexemes_follows (types : List TypeExpr) (h : Follows rest) :
    Follows (typeLexemes types ++ rest) := by
  refine follows_space.mpr ((spaced_mark _).mpr (spaced_space.mpr (commas_spaced ?_ h)))
  rintro item hi rest h
  obtain ⟨type, -, rfl⟩ := List.mem_map.mp hi
  exact type.spaced h

theorem attrLexemes_follows (attrs : List AttrEntry) (h : Follows rest) :
    Follows (attrLexemes attrs ++ rest) := by
  unfold attrLexemes
  split
  · exact h
  · rw [List.append_assoc, List.append_assoc]
    refine follows_space.mpr ((spaced_mark _).mpr (commas_spaced ?_ ((follows_mark _).mpr h.spaced)))
    rintro item hi rest h
    obtain ⟨entry, -, rfl⟩ := List.mem_map.mp hi
    simpa [AttrEntry.lexemes] using entry.value.spaced h

theorem resultLexemes_spaced (names : List Name) (rest : List Lexeme) (h : Spaced rest) :
    Spaced (resultLexemes names ++ rest) := by
  unfold resultLexemes
  split
  · exact h
  · rw [List.append_assoc]
    exact valueLexemes_spaced names (by simpa using h)

theorem Op.spaced (op : Op) (h : Follows rest) : Spaced (op.lexemes ++ rest) := by
  cases op with
  | alloc stack type => simpa [lexemes] using typeLexemes_follows [type] h
  | constant value type => simpa [lexemes] using typeLexemes_follows [type] h
  | convert conversion operand type => simpa [lexemes] using typeLexemes_follows [type] h
  | load memref type => simpa [lexemes] using typeLexemes_follows [type] h
  | store value memref => simpa [lexemes] using valueLexemes_spaced [value, memref] h
  | ret operands =>
    cases operands with
    | nil => simpa [lexemes] using h
    | cons operand operands => simpa [lexemes] using valueLexemes_spaced (operand :: operands) h
  | compute name operands types =>
    have suffix : Follows ((if types.isEmpty then [] else typeLexemes types) ++ rest) := by
      split
      · exact h
      · exact typeLexemes_follows types h
    have inside := valueLexemes_spaced operands ((follows_mark .rparen).mpr suffix.spaced)
    simpa [lexemes] using inside
  | copy operands type =>
    have suffix : Follows ((type.map fun type => typeLexemes [type]).getD [] ++ rest) := by
      cases type with
      | none => exact h
      | some type => exact typeLexemes_follows [type] h
    simpa [lexemes] using valueLexemes_spaced operands suffix

theorem margin_spaced (depth : Nat) : Spaced (margin depth ++ rest) ↔ Spaced rest := by
  unfold margin
  induction 2 * depth with
  | zero => rfl
  | succ n ih => rw [List.replicate_succ, List.cons_append, spaced_space, ih]

/-- What may stand behind the end of a line. -/
def Starts (ls : List Lexeme) : Prop :=
  Spaced ls ∧ ∀ l ∈ ls.head?, l.isLine = false

theorem Starts.line (h : Starts ls) (n : Nat) : Follows (.lines n :: ls) := by
  refine ⟨List.isChain_cons.mpr ⟨fun next hn => ?_, h.1⟩, by simp [Lexeme.isLoose]⟩
  simp [Lexeme.fits, Lexeme.isTight, h.2 next hn]

theorem Starts.margin (h : Spaced rest) (depth : Nat) : Starts (margin (depth + 1) ++ rest) :=
  ⟨(margin_spaced _).mpr h, by simp [Staging.margin, Nat.mul_add, List.replicate_succ, Lexeme.isLine]⟩

mutual

theorem Stmt.starts (depth : Nat) : ∀ (stmt : Stmt) {rest : List Lexeme}, Follows rest →
    Starts (stmt.lexemes (depth + 1) ++ rest)
  | .op results op attrs _, rest, h => by
    have line := resultLexemes_spaced results _ (op.spaced (attrLexemes_follows attrs h))
    simpa [Stmt.lexemes] using Starts.margin line depth
  | .loop results iv lower upper body attrs _, rest, h => by
    have close : Starts (margin (depth + 1) ++ .mark .rbrace :: (attrLexemes attrs ++ rest)) :=
      Starts.margin ((spaced_mark _).mpr (attrLexemes_follows attrs h).spaced) depth
    have inside := (block_starts (depth + 1) body close).line 0
    have line := resultLexemes_spaced results ([.word .loop, .space, iv.lexeme, .space,
      .mark .equals, .space, .token (.int lower), .space, .word .upTo, .space,
      .token (.int upper), .space, .mark .lbrace] ++ _) (by simpa using inside.spaced)
    simpa [Stmt.lexemes] using Starts.margin line depth

theorem block_starts (depth : Nat) : ∀ (stmts : List Stmt) {rest : List Lexeme}, Starts rest →
    Starts (blockLexemes (depth + 1) stmts ++ rest)
  | [], _, h => h
  | stmt :: stmts, rest, h => by
    simpa [blockLexemes] using stmt.starts depth ((block_starts depth stmts h).line 0)

end

theorem Func.starts (f : Func) (h : Spaced rest) : Starts (f.lexemes ++ rest) := by
  have close : Starts (.mark .rbrace :: rest) := ⟨(spaced_mark _).mpr h, by simp [Lexeme.mark, Lexeme.isLine]⟩
  have body := (block_starts 0 f.body close).line 0
  have attrs : Follows ((if f.attrs.isEmpty then [] else
      [.space, .word .attributes] ++ attrLexemes f.attrs) ++ [.space, .mark .lbrace] ++
      (.lines 0 :: (blockLexemes 1 f.body ++ .mark .rbrace :: rest))) := by
    split
    · simpa using body.spaced
    · have open' : Follows ([.space, .mark .lbrace] ++
          (.lines 0 :: (blockLexemes 1 f.body ++ .mark .rbrace :: rest))) := by
        simpa using body.spaced
      simpa using attrLexemes_follows f.attrs open'
  refine ⟨?_, by simp [Func.lexemes, Lexeme.word, Lexeme.isLine]⟩
  have args := @commas_spaced (.mark .rparen :: _) (f.args.map ArgDecl.lexemes) ?_
    ((follows_mark _).mpr attrs.spaced)
  · simpa [Func.lexemes] using args
  · rintro item hi rest h
    obtain ⟨arg, -, rfl⟩ := List.mem_map.mp hi
    simpa [ArgDecl.lexemes] using arg.type.spaced h

theorem funcsLexemes_starts (fs : List Func) : Starts (funcsLexemes fs) := by
  induction fs with
  | nil => exact ⟨.nil, by simp [funcsLexemes]⟩
  | cons f fs ih =>
    cases fs with
    | nil =>
      have last : Starts ([] : List Lexeme) := ⟨.nil, by simp⟩
      exact f.starts (last.line 0).spaced
    | cons g fs => exact f.starts (ih.line 1).spaced

end Spaced

end Staging
