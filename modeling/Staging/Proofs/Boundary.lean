import Staging.Diagnostic
import Staging.Parse

namespace Staging

/-- The offset stands between two characters of a text or at one of its ends. -/
def IsBoundary (cs : List Char) (offset : Nat) : Prop :=
  ∃ before, before <+: cs ∧ byteLength before = offset

/-- The source text of a span. There is none where the span ends inside a character or behind the
text. -/
def textAt (source : String) (span : Span) : Option String := do
  if span.start ≤ span.stop ∧ span.stop ≤ byteLength source.toList then
    let before ← charsBefore span.start source.toList
    let upTo ← charsBefore span.stop source.toList
    return String.ofList (upTo.drop before.length)
  else none

/-- What the lexer takes a token from: it cuts off what stands around the name of a value or a
function, the content of a string and the dimensions of an array type. -/
def Token.Fits : Token → List Char → Prop
  | .value name, text => text = '%' :: name.toList
  | .symbol name, text => text = '@' :: name.toList
  | .ident name, text => text = name.toList
  | .string _, text => ∃ inside, text = '"' :: inside ++ ['"']
  | .shaped shape, text => ∃ inside, text = shape.container.text.toList ++ '<' :: inside ++ ['>']
  | _, _ => True

section Offsets

variable {cs before text after : List Char} {offset : Nat}

theorem charsBefore_byteLength (before after : List Char) :
    charsBefore (byteLength before) (before ++ after) = some before := by
  induction before with
  | nil => cases after <;> rfl
  | cons c before ih =>
    obtain ⟨n, hn⟩ := Nat.exists_eq_add_of_lt (Nat.lt_add_right (byteLength before) c.utf8Size_pos)
    have size : byteLength (c :: before) = n + 1 := by
      rw [byteLength_cons]
      omega
    have rest : n + 1 - c.utf8Size = byteLength before := by
      rw [byteLength_cons] at size
      omega
    have fits : c.utf8Size ≤ n + 1 := by
      rw [byteLength_cons] at size
      omega
    rw [size, List.cons_append, charsBefore, if_pos fits, rest, ih]
    rfl

theorem isBoundary_zero : IsBoundary cs 0 :=
  ⟨[], List.nil_prefix, rfl⟩

theorem isBoundary_end : IsBoundary cs (byteLength cs) :=
  ⟨cs, List.prefix_rfl, rfl⟩

theorem IsBoundary.lineColumn {source : String} (h : IsBoundary source.toList offset) :
    (lineColumn? source offset).isSome = true := by
  obtain ⟨before, ⟨after, whole⟩, rfl⟩ := h
  rw [lineColumn?, ← whole, charsBefore_byteLength]
  rfl

theorem textAt_eq {source : String} (whole : source.toList = before ++ text ++ after) :
    textAt source ⟨byteLength before, byteLength (before ++ text)⟩ = some (String.ofList text) := by
  have low : byteLength before ≤ byteLength (before ++ text) := by
    rw [byteLength_append]
    omega
  have high : byteLength (before ++ text) ≤ byteLength source.toList := by
    rw [whole, byteLength_append _ after]
    omega
  have start : charsBefore (byteLength before) source.toList = some before := by
    rw [whole, List.append_assoc, charsBefore_byteLength]
  have stop : charsBefore (byteLength (before ++ text)) source.toList = some (before ++ text) := by
    rw [whole, charsBefore_byteLength]
  simp [textAt, low, high, start, stop]

end Offsets

section Cuts

variable {cs rest inside : List Char} {c : Char}

theorem stringBody_text (h : (stringBody cs).1 = some inside) :
    cs = inside ++ '"' :: (stringBody cs).2 := by
  fun_induction stringBody cs generalizing inside with
  | case1 => cases h
  | case2 cs =>
    cases h
    rfl
  | case3 => cases h
  | case4 cs => cases h
  | case5 c cs _ ih =>
    obtain ⟨more, hm, rfl⟩ := Option.map_eq_some_iff.mp h
    simp only [List.cons_append, ← ih hm]
  | case6 c cs _ _ _ ih =>
    obtain ⟨more, hm, rfl⟩ := Option.map_eq_some_iff.mp h
    simp only [List.cons_append, ← ih hm]

theorem shapedBody_text {dims : Option (List (Option Nat))} {digits : List Char}
    (h : (shapedBody dims digits cs).1.isSome = true) :
    ∃ inside, cs = inside ++ '>' :: (shapedBody dims digits cs).2 := by
  fun_induction shapedBody dims digits cs with
  | case1 => cases h
  | case2 dims cs ih =>
    obtain ⟨inside, eq⟩ := ih h
    exact ⟨'?' :: 'x' :: inside, by rw [List.cons_append, List.cons_append, ← eq]⟩
  | case3 => cases h
  | case4 dims digits c cs _ _ ih =>
    obtain ⟨inside, eq⟩ := ih h
    exact ⟨c :: inside, by rw [List.cons_append, ← eq]⟩
  | case5 dims c cs _ _ _ rest closed =>
    refine ⟨c :: cs.takeWhile isWordChar, ?_⟩
    rw [List.cons_append, ← closed, List.takeWhile_append_dropWhile]
  | case6 => cases h
  | case7 => cases h
  | case8 dims digits cs _ _ _ ih =>
    obtain ⟨inside, eq⟩ := ih h
    exact ⟨'x' :: inside, by rw [List.cons_append, ← eq]⟩
  | case9 => cases h

theorem cutString_fits {t : Token} (h : (cutString cs).piece = .token t) :
    ∃ text, '"' :: cs = text ++ (cutString cs).rest ∧ t.Fits text := by
  unfold cutString at h ⊢
  cases body : (stringBody cs).1 with
  | none => simp [body] at h
  | some inside =>
    simp only [body, Option.bind_some] at h
    split at h
    next content _ =>
      cases h
      refine ⟨'"' :: inside ++ ['"'], ?_, inside, rfl⟩
      simp only [List.cons_append, List.append_assoc, List.nil_append, ← stringBody_text body]
    next => cases h

theorem cutShaped_fits {container : Container} {t : Token}
    (h : (cutShaped container cs).piece = .token t) :
    ∃ inside, cs = inside ++ '>' :: (cutShaped container cs).rest ∧
      ∃ dims elem, t = .shaped ⟨container, dims, elem⟩ := by
  unfold cutShaped at h ⊢
  cases body : (shapedBody (some []) [] cs).1 with
  | none => simp [body] at h
  | some found =>
    simp only [body, Piece.token.injEq] at h
    obtain ⟨inside, eq⟩ := @shapedBody_text cs (some []) [] (by simp [body])
    exact ⟨inside, eq, found.1, _, h.symm⟩

theorem ofText?_text {word : String} {container : Container}
    (h : Container.ofText? word = some container) : container.text = word := by
  simpa using List.find?_some h

/-- A word that opens no array type is a token of its own text. -/
theorem wordToken_fits (word : String) : (wordToken word).Fits word.toList := by
  unfold wordToken
  split
  · trivial
  · rfl

theorem cutWord_fits {t : Token} (h : (cutWord cs).piece = .token t) :
    ∃ text, cs = text ++ (cutWord cs).rest ∧ t.Fits text := by
  have whole := @List.takeWhile_append_dropWhile _ isWordChar cs
  unfold cutWord at h ⊢
  split at h
  next container rest named opened =>
    obtain ⟨inside, eq, dims, elem, rfl⟩ := cutShaped_fits h
    refine ⟨container.text.toList ++ '<' :: inside ++ ['>'], ?_, inside, rfl⟩
    rw [← whole, opened, ofText?_text named, wordAt, String.toList_ofList]
    simp only [List.append_assoc, List.cons_append, List.nil_append, ← eq]
  next =>
    cases h
    exact ⟨cs.takeWhile isWordChar, whole.symm, by simpa [wordAt] using wordToken_fits (wordAt cs)⟩

theorem cutValue_fits {t : Token} (h : (cutValue cs).piece = .token t) :
    ∃ text, '%' :: cs = text ++ (cutValue cs).rest ∧ t.Fits text := by
  unfold cutValue at h ⊢
  split at h
  next some =>
    cases h
    refine ⟨'%' :: cs.takeWhile isWordChar, ?_, by simp [Token.Fits, wordAt]⟩
    rw [if_pos some, List.cons_append, List.takeWhile_append_dropWhile]
  next => cases h

theorem cutSymbol_fits {t : Token} (h : (cutSymbol cs).piece = .token t) :
    ∃ text, '@' :: cs = text ++ (cutSymbol cs).rest ∧ t.Fits text := by
  unfold cutSymbol at h ⊢
  split at h
  next some =>
    cases h
    refine ⟨'@' :: cs.takeWhile isWordChar, ?_, by simp [Token.Fits, wordAt]⟩
    rw [if_pos some, List.cons_append, List.takeWhile_append_dropWhile]
  next => cases h

theorem cutInt_fits {negative : Bool} {t : Token} (h : (cutInt negative cs).piece = .token t)
    (text : List Char) : t.Fits text := by
  have piece : ∃ v, (cutInt negative cs).piece =
      if fitsInt v then .token (.int v) else .bad := ⟨_, rfl⟩
  obtain ⟨v, piece⟩ := piece
  rw [piece] at h
  split at h
  next =>
    cases h
    trivial
  next => cases h

theorem Lead.ofChar_quote (h : Lead.ofChar c = .quote) : c = '"' := by
  unfold Lead.ofChar at h
  grind

theorem Lead.ofChar_percent (h : Lead.ofChar c = .percent) : c = '%' := by
  unfold Lead.ofChar at h
  grind

theorem Lead.ofChar_at (h : Lead.ofChar c = .at) : c = '@' := by
  unfold Lead.ofChar at h
  grind

/-- A token is made from the text that is cut off for it. -/
theorem cut_fits {t : Token} (h : (cut c cs).piece = .token t) :
    ∃ text, c :: cs = text ++ (cut c cs).rest ∧ t.Fits text := by
  obtain ⟨taken, suffix⟩ := cut_suffix c cs
  have any (free : ∀ text, t.Fits text) : ∃ text, c :: cs = text ++ (cut c cs).rest ∧ t.Fits text :=
    ⟨c :: taken, by rw [List.cons_append, suffix], free _⟩
  cases lead : Lead.ofChar c with
  | blank => simp [cut, lead] at h
  | comment => simp [cut, lead] at h
  | newline =>
    simp only [cut, lead, Piece.token.injEq] at h
    exact any fun _ => h ▸ trivial
  | quote =>
    obtain rfl := Lead.ofChar_quote lead
    simp only [cut, lead] at h ⊢
    exact cutString_fits h
  | percent =>
    obtain rfl := Lead.ofChar_percent lead
    simp only [cut, lead] at h ⊢
    exact cutValue_fits h
  | «at» =>
    obtain rfl := Lead.ofChar_at lead
    simp only [cut, lead] at h ⊢
    exact cutSymbol_fits h
  | minus =>
    simp only [cut, lead] at h
    split at h
    next => exact any (cutInt_fits h)
    next => cases h
  | digit =>
    simp only [cut, lead] at h
    exact any (cutInt_fits h)
  | letter =>
    simp only [cut, lead] at h ⊢
    exact cutWord_fits h
  | mark m =>
    simp only [cut, lead, Piece.token.injEq] at h
    exact any fun _ => h ▸ trivial
  | other => simp [cut, lead] at h

end Cuts

section Lexing

variable {source : String} {before cs rest : List Char} {span : Span}

/-- The text of a span starts between two characters and can be cut out. -/
structure Cuts (source : String) (span : Span) (text : List Char) : Prop where
  start : IsBoundary source.toList span.start
  text : textAt source span = some (String.ofList text)

theorem cuts_of_prefix {text : List Char} (whole : source.toList = before ++ (text ++ rest)) :
    Cuts source ⟨byteLength before, byteLength before + byteLength text⟩ text := by
  refine ⟨⟨before, ⟨_, whole.symm⟩, rfl⟩, ?_⟩
  rw [← byteLength_append]
  exact textAt_eq (by rw [whole, List.append_assoc])

/-- A source text without errors has no text in it that is no token. -/
theorem bad_of_parse (h : (parse source).errors = []) : (lex source).bad = [] := by
  simp only [parse] at h
  split at h
  next => exact List.map_eq_nil_iff.mp h
  next => exact List.map_eq_nil_iff.mp (List.append_eq_nil_iff.mp h).1

theorem parse_eq_ok {program : Program} : parse source = ⟨some program, []⟩ ↔
    (lex source).bad = [] ∧
      parseTokens (lex source).tokens (byteLength source.toList) = .ok program := by
  constructor
  · intro h
    refine ⟨bad_of_parse (congrArg Parsed.errors h), ?_⟩
    simp only [parse] at h
    split at h
    next read =>
      rw [read, Option.some.inj (congrArg Parsed.program h)]
    next => cases congrArg Parsed.program h
  · rintro ⟨none, read⟩
    simp only [parse, none, read, List.map_nil]

theorem take_of_append {text : List Char} (h : cs = text ++ rest) :
    cs.take (cs.length - rest.length) = text := by
  simp [h]

theorem split_cut (c : Char) (cs : List Char) : c :: cs =
    (c :: cs).take ((c :: cs).length - (cut c cs).rest.length) ++ (cut c cs).rest := by
  obtain ⟨taken, suffix⟩ := cut_suffix c cs
  have whole : c :: cs = (c :: taken) ++ (cut c cs).rest := by rw [List.cons_append, suffix]
  rw [take_of_append whole]
  exact whole

/-- A token was cut off where its source text starts, and a stretch that is no token has a source
text too. -/
theorem lexFrom_cuts (whole : source.toList = before ++ cs) :
    (∀ l ∈ (lexFrom (byteLength before) cs).tokens, ∃ c more text, Cuts source l.span text ∧
      (cut c more).piece = .token l.token ∧ c :: more = text ++ (cut c more).rest) ∧
    ∀ b ∈ (lexFrom (byteLength before) cs).bad, Cuts source b.span b.text.toList := by
  generalize hs : byteLength before = start
  fun_induction lexFrom start cs generalizing before with
  | case1 => simp
  | case2 start c cs _ text span later token piece =>
    rename_i ih
    subst hs
    have split : c :: cs = text ++ (cut c cs).rest := split_cut c cs
    have taken := split
    rw [split] at whole
    obtain ⟨tokens, bad⟩ := @ih (before ++ text) (by simpa using whole) (byteLength_append ..)
    refine ⟨fun l hl => ?_, bad⟩
    rcases List.mem_cons.mp hl with rfl | hl
    · exact ⟨c, cs, text, cuts_of_prefix whole, piece, taken⟩
    · exact tokens l hl
  | case3 start c cs _ text span later piece =>
    rename_i ih
    subst hs
    have split : c :: cs = text ++ (cut c cs).rest := split_cut c cs
    rw [split] at whole
    obtain ⟨tokens, bad⟩ := @ih (before ++ text) (by simpa using whole) (byteLength_append ..)
    refine ⟨tokens, fun b hb => ?_⟩
    rcases List.mem_cons.mp hb with rfl | hb
    · rw [String.toList_ofList]
      exact cuts_of_prefix whole
    · exact bad b hb
  | case4 start c cs _ text span later piece =>
    rename_i ih
    subst hs
    have split : c :: cs = text ++ (cut c cs).rest := split_cut c cs
    rw [split] at whole
    exact @ih (before ++ text) (by simpa using whole) (byteLength_append ..)

/-- Tokens and stretches that are no token have a source text, and it fits a token. -/
theorem lex_cuts (source : String) :
    (∀ l ∈ (lex source).tokens, ∃ text, Cuts source l.span text ∧ l.token.Fits text) ∧
    ∀ b ∈ (lex source).bad, Cuts source b.span b.text.toList := by
  obtain ⟨tokens, bad⟩ := @lexFrom_cuts source [] source.toList rfl
  refine ⟨fun l hl => ?_, bad⟩
  obtain ⟨c, more, text, cuts, piece, split⟩ := tokens l hl
  obtain ⟨taken, fitted, fits⟩ := cut_fits piece
  obtain rfl : text = taken := List.append_cancel_right (split.symm.trans fitted)
  exact ⟨text, cuts, fits⟩

end Lexing

end Staging
