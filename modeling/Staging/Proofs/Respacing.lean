import Mathlib.Logic.Relation
import Staging.Proofs.Lengthening
import Staging.Proofs.Seams

namespace Staging

/-- Spaces, tabs and carriage returns. -/
def IsBlanks (text : List Char) : Prop :=
  ∀ c ∈ text, c = ' ' ∨ c = '\t' ∨ c = '\r'

/-- A comment, without the end of its line. -/
def IsComment (text : List Char) : Prop :=
  ∃ inside, text = '#' :: inside ∧ '\n' ∉ inside

/-- A line with nothing on it but blanks and perhaps a comment. -/
def IsBlankLine (line : List Char) : Prop :=
  ∃ blanks comment, IsBlanks blanks ∧ (comment = [] ∨ IsComment comment) ∧
    line = blanks ++ comment ++ ['\n']

/-- Blank lines, one below the other. -/
inductive IsBlankLines : List Char → Prop
  | nil : IsBlankLines []
  | cons {line text : List Char} : IsBlankLine line → IsBlankLines text →
    IsBlankLines (line ++ text)

/-- `text` may be put between `before` and `after`. -/
inductive Inserts : (before text after : List Char) → Prop
  /-- Blanks, where one piece ends and another starts. -/
  | blanks {before text after : List Char} {pieces : List Piece}
    (place : Reads before after pieces) (blanks : IsBlanks text) : Inserts before text after
  /-- A comment in front of one of the characters of a line end. -/
  | comment {front above text below after : List Char} {pieces : List Piece}
    (place : Reads front (above ++ '\n' :: (below ++ after)) pieces)
    (newline : CutsOff (above ++ '\n' :: below) (.token .newline) after)
    (comment : IsComment text) : Inserts (front ++ above) text ('\n' :: (below ++ after))
  /-- Blank lines in a line end, in front of it or behind it. -/
  | lines {front above text below after : List Char} {pieces : List Piece}
    (place : Reads front (above ++ (below ++ after)) pieces)
    (newline : CutsOff (above ++ below) (.token .newline) after) (lines : IsBlankLines text) :
    Inserts (front ++ above) text (below ++ after)
  /-- Blank lines in front of the first item. -/
  | above {before text after : List Char} {pieces : List Piece}
    (place : Reads before after pieces) (first : ∀ t, .token t ∈ pieces → t = .newline)
    (lines : IsBlankLines text) : Inserts before text after
  /-- Blank lines behind the last item. -/
  | below {before text after : List Char} {pieces later : List Piece}
    (place : Reads before after pieces) (rest : Reads after [] later)
    (last : ∀ t, .token t ∈ later → t = .newline) (lines : IsBlankLines text) :
    Inserts before text after

/-- Two source texts that are the same but for layout that the second has and the first has not. -/
def Respaced (source source' : String) : Prop :=
  ∃ before text after, Inserts before text after ∧ source.toList = before ++ after ∧
    source'.toList = before ++ (text ++ after)

/-- There is room for layout on both sides of each token, and within a line end. -/
theorem lex_room {source : String} {l : Lexed} (h : l ∈ (lex source).tokens) :
    ∃ before token after, source.toList = before ++ (token ++ after) ∧
      l.span = ⟨byteLength before, byteLength before + byteLength token⟩ ∧
      (∀ text, IsBlanks text →
        Inserts before text (token ++ after) ∧ Inserts (before ++ token) text after) ∧
      (l.token = .newline → ∀ above below, token = above ++ below →
        (∀ text, IsBlankLines text → Inserts (before ++ above) text (below ++ after)) ∧
        (below ≠ [] → ∀ text, IsComment text →
          Inserts (before ++ above) text (below ++ after))) := by
  obtain ⟨before, token, after, pieces, whole, place, off, span⟩ := lexFrom_placed 0 _ l h
  simp only [Nat.zero_add] at span
  refine ⟨before, token, after, whole, span, fun text blanks => ⟨.blanks place blanks, ?_⟩,
    fun newline above below split => ?_⟩
  · exact .blanks (place.snoc off) blanks
  · subst split
    rw [newline] at off
    rw [List.append_assoc] at place
    refine ⟨fun text lines => .lines place off lines, fun some text comment => ?_⟩
    obtain ⟨c, below, rfl⟩ := List.exists_cons_of_ne_nil some
    obtain rfl : c = '\n' := (cutsOff_newline.mp off).2.1 c (by simp)
    exact .comment place off comment

section Blanks

variable {text cs more : List Char} {ts : List Token} {c : Char}

theorem IsBlanks.lexes (blanks : IsBlanks text) : Lexes (text ++ cs) ts ↔ Lexes cs ts := by
  induction text with
  | nil => rfl
  | cons c text ih =>
    obtain ⟨blank, later⟩ := List.forall_mem_cons.mp blanks
    have off : CutsOff [c] .blank (text ++ cs) := cutsOff_blank.mpr (.inl ⟨c, rfl, blank⟩)
    have whole := @lexes_cons _ _ ts _ off (by simp)
    rw [← ih later]
    simpa [Piece.token?] using whole

/-- What stands on a blank line is not read. -/
theorem IsBlankLine.cases {line : List Char} (h : IsBlankLine line) :
    ∃ start, line = start ++ ['\n'] ∧ '\n' ∉ start ∧
      (∀ c ∈ start.head?, isWordChar c = false ∧ c ≠ '<') ∧
      ∀ cs ts, Lexes (start ++ '\n' :: cs) ts ↔ Lexes ('\n' :: cs) ts := by
  obtain ⟨blanks, comment, hb, hc, rfl⟩ := h
  have read (cs : List Char) (ts : List Token) :
      Lexes (comment ++ '\n' :: cs) ts ↔ Lexes ('\n' :: cs) ts := by
    rcases hc with rfl | ⟨inside, rfl, none⟩
    · rfl
    · rw [lexes_comment none]
      simp
  refine ⟨blanks ++ comment, rfl, fun line => ?_, fun c hc' => ?_, fun cs ts => ?_⟩
  · rcases List.mem_append.mp line with line | line
    · exact absurd (hb '\n' line) (by decide)
    · rcases hc with rfl | ⟨inside, rfl, none⟩
      · cases line
      · simp [none] at line
  · cases blanks with
    | nil =>
      rcases hc with rfl | ⟨inside, rfl, none⟩
      · cases hc'
      · cases hc'
        decide
    | cons d blanks =>
      obtain rfl : d = c := Option.some.inj hc'
      rcases hb d List.mem_cons_self with rfl | rfl | rfl <;> decide
  · rw [List.append_assoc, hb.lexes, read]

theorem isBlankLine_newline : IsBlankLine ['\n'] :=
  ⟨[], [], by simp [IsBlanks], .inl rfl, rfl⟩

theorem dropWhile_of_head (stop : cs.head? ≠ some '\n') : cs.dropWhile (· = '\n') = cs := by
  cases cs with
  | nil => rfl
  | cons c cs => exact List.dropWhile_cons_of_neg (by simpa using stop)

/-- A line end in front of a text is read as one more, unless the text starts with another. -/
theorem Lexes.newline (read : Lexes cs ts) : Lexes ('\n' :: cs) (.newline :: ts) ∨
    (cs.head? = some '\n' ∧ Lexes ('\n' :: cs) ts) := by
  have more (cs : List Char) (ts : List Token) : Lexes ('\n' :: cs) ts ↔
      ∃ us, ts = .newline :: us ∧ Lexes (cs.dropWhile (· = '\n')) us :=
    lexes_lines (List.cons_ne_nil '\n' []) (by simp)
  by_cases line : cs.head? = some '\n'
  · obtain ⟨rest, rfl⟩ := List.head?_eq_some_iff.mp line
    obtain ⟨us, rfl, below⟩ := (more rest ts).mp read
    exact .inr ⟨rfl, (more ('\n' :: rest) _).mpr ⟨us, rfl, by simpa using below⟩⟩
  · exact .inl ((more cs _).mpr ⟨ts, rfl, by rwa [dropWhile_of_head line]⟩)

/-- Blank lines are line ends, and in front of something else one at least. -/
theorem IsBlankLines.lexes (lines : IsBlankLines text) (read : Lexes cs ts) :
    ∃ k, (text ≠ [] → cs.head? ≠ some '\n' → k ≠ 0) ∧
      Lexes (text ++ cs) (List.replicate k .newline ++ ts) := by
  induction lines with
  | nil => exact ⟨0, fun some => absurd rfl some, read⟩
  | @cons line text first _ ih =>
    obtain ⟨start, rfl, -, -, skip⟩ := first.cases
    obtain ⟨k, some, below⟩ := ih
    have whole : start ++ ['\n'] ++ text ++ cs = start ++ '\n' :: (text ++ cs) := by simp
    rw [whole]
    rcases below.newline with more | ⟨line, same⟩
    · exact ⟨k + 1, fun _ _ => Nat.succ_ne_zero k, (skip _ _).mpr more⟩
    · refine ⟨k, fun _ stop => some (fun none => stop ?_) stop, (skip _ _).mpr same⟩
      rwa [none] at line

theorem IsBlankLines.head (lines : IsBlankLines text) (some : text ≠ []) :
    ∀ c ∈ (text ++ cs).head?, isWordChar c = false ∧ c ≠ '<' := by
  cases lines with
  | nil => exact absurd rfl some
  | cons first _ =>
    obtain ⟨start, rfl, -, head, -⟩ := first.cases
    cases start with
    | nil =>
      intro c hc
      cases hc
      decide
    | cons d start => exact head

/-- Behind a comment, the first line goes on up to its end. -/
theorem IsBlankLines.dropWhile_comment (lines : IsBlankLines text) (some : text ≠ []) :
    ∃ text', text' ≠ [] ∧ IsBlankLines text' ∧
      (text ++ cs).dropWhile (· ≠ '\n') = text' ++ cs := by
  cases lines with
  | nil => exact absurd rfl some
  | @cons line text first later =>
    obtain ⟨start, rfl, none, -, -⟩ := first.cases
    refine ⟨['\n'] ++ text, by simp, .cons isBlankLine_newline later, ?_⟩
    have whole : start ++ ['\n'] ++ text ++ cs = start ++ ('\n' :: (text ++ cs)) := by simp
    have inside : ∀ c ∈ start, decide (c ≠ '\n') = true := fun c hc => by
      simpa using fun line : c = '\n' => none (line ▸ hc)
    rw [whole, dropWhile_run inside (by simp)]
    rfl

/-- Behind a line end, the lines with nothing on them belong to it. -/
theorem IsBlankLines.dropWhile_newline (lines : IsBlankLines text)
    (stop : cs.head? ≠ some '\n') :
    ∃ text', IsBlankLines text' ∧ (text ++ cs).dropWhile (· = '\n') = text' ++ cs := by
  induction lines with
  | nil => exact ⟨[], .nil, dropWhile_of_head stop⟩
  | @cons line text first later ih =>
    obtain ⟨start, rfl, none, -, -⟩ := first.cases
    cases start with
    | nil => simpa using ih
    | cons c start =>
      refine ⟨_, .cons first later, dropWhile_of_head fun line => none ?_⟩
      obtain rfl : c = '\n' := by simpa using line
      exact List.mem_cons_self

end Blanks

section Places

variable {front run after text before : List Char} {pieces later : List Piece} {ts : List Token}

/-- Blank lines, put where the lexer starts a piece or in the place of line ends there, are read as
line ends. -/
theorem IsBlankLines.resume (lines : IsBlankLines text) (some : text ≠ [])
    (all : ∀ c ∈ run, c = '\n') (place : Reads front (run ++ after) pieces) (good : .bad ∉ pieces)
    (read : Lexes after ts) : ∃ k, (run ≠ [] → after.head? ≠ .some '\n' → k ≠ 0) ∧
      Lexes (front ++ (text ++ after))
        (pieces.filterMap Piece.token? ++ (List.replicate k .newline ++ ts)) := by
  -- A line end in front takes lines with nothing on them, a comment in front the start of the first
  -- line. What either leaves are blank lines again.
  have made {text' : List Char} (lines : IsBlankLines text')
      (ne : run ≠ [] → text' ≠ []) : ∃ us, (∃ k, (run ≠ [] → after.head? ≠ .some '\n' → k ≠ 0) ∧
        us = List.replicate k .newline ++ ts) ∧ Lexes (text' ++ after) us := by
    obtain ⟨k, more, read⟩ := lines.lexes read
    exact ⟨_, ⟨k, fun here => more (ne here), rfl⟩, read⟩
  have resumes : Resumes (fun us => ∃ k, (run ≠ [] → after.head? ≠ .some '\n' → k ≠ 0) ∧
      us = List.replicate k .newline ++ ts) (run ++ after) (text ++ after) := {
    start := .inr fun t other => t.ends_of_head other (lines.head some)
    here := made lines fun _ => some
    line := fun stop _ => by
      cases run with
      | nil =>
        have stop : after.head? ≠ .some '\n' := stop
        obtain ⟨text', lines', eq⟩ := lines.dropWhile_newline stop
        rw [eq]
        exact made lines' fun here => absurd rfl here
      | cons c run => exact absurd (by rw [List.cons_append, List.head?_cons, all c (by simp)]) stop
    comment := fun _ => by
      obtain ⟨text', some', lines', eq⟩ := @IsBlankLines.dropWhile_comment text after lines some
      rw [eq]
      exact made lines' fun _ => some' }
  obtain ⟨_, ⟨k, more, rfl⟩, read⟩ := place.resume good resumes
  exact ⟨k, more, read⟩

/-- Blanks are not read. -/
theorem IsBlanks.resume (blanks : IsBlanks text) (place : Reads front after pieces)
    (good : .bad ∉ pieces) (read : Lexes after ts) :
    Lexes (front ++ (text ++ after)) (pieces.filterMap Piece.token? ++ ts) := by
  have resumes : Resumes (· = ts) after (text ++ after) := {
    start := by
      cases text with
      | nil => exact .inl rfl
      | cons c text =>
        have head : isWordChar c = false ∧ c ≠ '<' := by
          rcases blanks c List.mem_cons_self with rfl | rfl | rfl <;> decide
        exact .inr fun t other => t.ends_of_head other (by simpa using head)
    here := ⟨ts, rfl, blanks.lexes.mpr read⟩
    line := fun stop line => by
      cases text with
      | nil => exact absurd line stop
      | cons c text =>
        obtain rfl : c = '\n' := by simpa using line
        exact absurd (blanks '\n' List.mem_cons_self) (by decide)
    comment := fun ends => by
      have stop : ∀ c ∈ after.head?, decide (c ≠ '\n') = false := by simpa using ends
      have all : ∀ c ∈ text, decide (c ≠ '\n') = true := fun c hc => by
        rcases blanks c hc with rfl | rfl | rfl <;> rfl
      exact ⟨ts, rfl, by rwa [dropWhile_run all stop]⟩ }
  obtain ⟨_, rfl, again⟩ := place.resume good resumes
  exact again

theorem mem_tokens {t : Token} : t ∈ pieces.filterMap Piece.token? ↔ .token t ∈ pieces := by
  constructor
  · intro h
    obtain ⟨piece, mem, found⟩ := List.mem_filterMap.mp h
    cases piece with
    | token t' =>
      obtain rfl : t' = t := Option.some.inj found
      exact mem
    | bad | blank => cases found
  · exact fun h => List.mem_filterMap.mpr ⟨_, h, rfl⟩

theorem IsBlankLines.append {text' : List Char} (first : IsBlankLines text)
    (second : IsBlankLines text') : IsBlankLines (text ++ text') := by
  induction first with
  | nil => exact second
  | cons line _ ih =>
    rw [List.append_assoc]
    exact .cons line ih

theorem isBlankLines_newlines (all : ∀ c ∈ run, c = '\n') : IsBlankLines run := by
  induction run with
  | nil => exact .nil
  | cons c run ih =>
    obtain ⟨rfl, later⟩ := List.forall_mem_cons.mp all
    exact .cons isBlankLine_newline (ih later)

/-- Blank lines in the place of a line end are one or more line ends. -/
theorem IsBlankLines.lengthen (lines : IsBlankLines text) (some : text ≠ [])
    (place : Reads front (run ++ after) pieces) (newline : CutsOff run (.token .newline) after)
    (lexed : Lexes (front ++ (run ++ after)) ts) :
    ∃ written, Lengthened ts written ∧ Lexes (front ++ (text ++ after)) written := by
  obtain ⟨good, us, rfl, rest⟩ := place.lexes lexed
  obtain ⟨ys, rfl, below⟩ := (lexes_cons newline nofun).mp rest
  obtain ⟨ne, all, stop⟩ := cutsOff_newline.mp newline
  obtain ⟨k, more, read⟩ := lines.resume some all place good below
  obtain ⟨n, rfl⟩ := Nat.exists_eq_succ_of_ne_zero (more ne stop)
  exact ⟨_, (Lengthened.refl _).append ((Lengthened.replicate n).append (.refl ys)), read⟩

/-- What is put into the layout of a text becomes line ends next to others or around all items. -/
theorem Inserts.lexes (h : Inserts before text after) (lexed : Lexes (before ++ after) ts) :
    ∃ written, Lengthened ts written ∧ ∃ i j, Lexes (before ++ (text ++ after))
      (List.replicate i .newline ++ (written ++ List.replicate j .newline)) := by
  by_cases none : text = []
  · exact ⟨ts, .refl ts, 0, 0, by simpa [none] using lexed⟩
  -- Within a line end, all of it is taken for blank lines. Elsewhere no line end is replaced.
  have nothing : ∀ c ∈ [], c = '\n' := by simp
  cases h with
  | blanks place blanks =>
    obtain ⟨good, us, rfl, rest⟩ := place.lexes lexed
    exact ⟨_, .refl _, 0, 0, by simpa using blanks.resume place good rest⟩
  | @comment front above text below after pieces place newline comment =>
    obtain ⟨-, all, -⟩ := cutsOff_newline.mp newline
    have line : IsBlankLine (text ++ ['\n']) := ⟨[], text, by simp [IsBlanks], .inr comment, rfl⟩
    have lines : IsBlankLines (above ++ (text ++ ['\n'] ++ below)) :=
      (isBlankLines_newlines fun c hc => all c (by simp [hc])).append
        (.cons line (isBlankLines_newlines fun c hc => all c (by simp [hc])))
    obtain ⟨written, longer, read⟩ := lines.lengthen (by simp) (by simpa using place) newline
      (by simpa using lexed)
    exact ⟨written, longer, 0, 0, by simpa using read⟩
  | @lines front above text below after pieces place newline lines =>
    obtain ⟨-, all, -⟩ := cutsOff_newline.mp newline
    have whole : IsBlankLines (above ++ (text ++ below)) :=
      (isBlankLines_newlines fun c hc => all c (by simp [hc])).append
        (lines.append (isBlankLines_newlines fun c hc => all c (by simp [hc])))
    obtain ⟨written, longer, read⟩ := whole.lengthen (by simp [none]) (by simpa using place) newline
      (by simpa using lexed)
    exact ⟨written, longer, 0, 0, by simpa using read⟩
  | above place first lines =>
    obtain ⟨good, us, rfl, rest⟩ := place.lexes lexed
    obtain ⟨k, -, read⟩ := lines.resume none nothing place good rest
    refine ⟨_, .refl _, k, 0, ?_⟩
    rw [List.eq_replicate_of_mem fun t ht => first t (mem_tokens.mp ht)] at read ⊢
    simpa [← List.append_assoc, List.replicate_append_replicate, Nat.add_comm] using read
  | below place rest last lines =>
    obtain ⟨good, us, rfl, below⟩ := place.lexes lexed
    obtain ⟨k, -, read⟩ := lines.resume none nothing place good below
    obtain rfl : us = _ := ((lexes_iff 0).mp below).2.symm.trans (rest.lexFrom 0).1
    refine ⟨_, .refl _, 0, k, ?_⟩
    rw [List.eq_replicate_of_mem fun t ht => last t (mem_tokens.mp ht)] at read ⊢
    simpa [List.append_assoc, List.replicate_append_replicate, Nat.add_comm] using read

end Places

def Item.setting? : Item → Option Setting
  | .setting s => some s
  | .func _ => none

theorem Item.map_setting?_eq {items : List Item} {settings : List Setting}
    (h : items.map setting? = settings.map some) : items = settings.map .setting := by
  induction items generalizing settings with
  | nil => simp_all
  | cons item items ih =>
    cases settings with
    | nil => simp at h
    | cons s settings =>
      obtain ⟨first, rest⟩ := List.cons.inj h
      cases item with
      | setting t =>
        cases first
        exact congrArg _ (ih rest)
      | func f => cases first

theorem Respaced.parse {source source' : String} (h : Respaced source source') {p : Program}
    (parsed : parse source = ⟨some p, []⟩) :
    ∃ p', Staging.parse source' = ⟨some p', []⟩ ∧ p'.bare = p.bare := by
  obtain ⟨before, text, after, inserts, whole, whole'⟩ := h
  obtain ⟨none, read⟩ := parse_eq_ok.mp parsed
  have lexed : Lexes (before ++ after) ((lex source).tokens.map Lexed.token) := by
    rw [← whole]
    exact (lexes_iff 0).mpr ⟨none, rfl⟩
  obtain ⟨written, longer, i, j, again⟩ := inserts.lexes lexed
  rw [← whole'] at again
  obtain ⟨none', tokens⟩ := (lexes_iff 0).mp again
  obtain ⟨p', read', same⟩ := parseTokens_stretch read longer i j tokens
  exact ⟨p', parse_eq_ok.mpr ⟨none', read'⟩, same⟩

/-- The layout of a source text does not matter. Wherever blanks are put between pieces, comments
in front of line ends, blank lines next to line ends, or blank lines around all items of a source
text that is parsed without errors, it still is, as the same program but for places. -/
theorem parse_respaced {source source' : String} {p : Program}
    (parsed : parse source = ⟨some p, []⟩)
    (respaced : Relation.ReflTransGen Respaced source source') :
    ∃ p', parse source' = ⟨some p', []⟩ ∧ p'.bare = p.bare := by
  induction respaced with
  | refl => exact ⟨p, parsed, rfl⟩
  | tail _ step ih =>
    obtain ⟨q, parsed', same⟩ := ih
    obtain ⟨p', parsed'', same'⟩ := step.parse parsed'
    exact ⟨p', parsed'', same'.trans same⟩

/-- Two settings below each other, where they stand in the source. -/
def twoSettings : List Setting :=
  [⟨⟨"a", ⟨4, 5⟩⟩, .int 1, ⟨6, 7⟩, ⟨0, 7⟩⟩, ⟨⟨"b", ⟨12, 13⟩⟩, .int 2, ⟨14, 15⟩, ⟨8, 15⟩⟩]

theorem parse_respaced_settings : ∃ p, parse "set a=1\nset b=2" = ⟨some p, []⟩ ∧
    p.items = twoSettings.map .setting ∧
    Relation.ReflTransGen Respaced "set a=1\nset b=2" "\n# up\nset a=1# c\n\t\n\nset b=2" ∧
    ∃ p', parse "\n# up\nset a=1# c\n\t\n\nset b=2" = ⟨some p', []⟩ ∧ p'.bare = p.bare := by
  have place : Reads "set a=1".toList "\nset b=2".toList [.token (.keyword .setting), .blank,
      .token (.ident "a"), .token (.mark .equals), .token (.int 1)] :=
    @Reads.cons "set".toList " a=1".toList _ _ _
      (cutsOff_of_cut (by decide +kernel) (by decide +kernel)) <|
    @Reads.cons " ".toList "a=1".toList _ _ _
      (cutsOff_of_cut (by decide +kernel) (by decide +kernel)) <|
    @Reads.cons "a".toList "=1".toList _ _ _
      (cutsOff_of_cut (by decide +kernel) (by decide +kernel)) <|
    @Reads.cons "=".toList "1".toList _ _ _
      (cutsOff_of_cut (by decide +kernel) (by decide +kernel)) <|
    @Reads.cons "1".toList [] _ _ _
      (cutsOff_of_cut (by decide +kernel) (by decide +kernel)) (.nil _)
  have newline : CutsOff "\n".toList (.token .newline) "set b=2".toList :=
    cutsOff_newline.mpr ⟨by decide, by simp, by decide +kernel⟩
  have named (word : String) (inside : '\n' ∉ word.toList) :
      IsBlankLine ('#' :: word.toList ++ ['\n']) :=
    ⟨[], _, nofun, .inr ⟨_, rfl, inside⟩, rfl⟩
  have tab : IsBlankLine "\t\n".toList := ⟨['\t'], [], by simp [IsBlanks], .inl rfl, rfl⟩
  have below : Respaced "set a=1\nset b=2" "set a=1# c\n\t\n\nset b=2" :=
    ⟨_, _, _, @Inserts.lines "set a=1".toList [] _ "\n".toList "set b=2".toList _ place newline
      (.cons (named " c" (by decide)) (.cons tab .nil)), by decide, by decide⟩
  have above : Respaced "set a=1# c\n\t\n\nset b=2" "\n# up\nset a=1# c\n\t\n\nset b=2" :=
    ⟨_, _, _, @Inserts.above [] _ "set a=1# c\n\t\n\nset b=2".toList _ (.nil _) nofun
      (.cons isBlankLine_newline (.cons (named " up" (by decide)) .nil)), by decide, by decide⟩
  have respaced := Relation.ReflTransGen.trans (.single below) (.single above)
  have clean : (parse "set a=1\nset b=2").errors = [] := by decide +kernel
  have settings : (parse "set a=1\nset b=2").program.map (fun p => p.items.map Item.setting?) =
      some (twoSettings.map some) := by decide +kernel
  obtain ⟨p, program, items⟩ := Option.map_eq_some_iff.mp settings
  have parsed : parse "set a=1\nset b=2" = ⟨some p, []⟩ := by
    rw [← program, ← clean]
  exact ⟨p, parsed, Item.map_setting?_eq items, respaced, parse_respaced parsed respaced⟩

end Staging
