import Mathlib.Data.List.TakeWhile
import Staging.Lex

namespace Staging

/-- A word of the language: a letter or underscore, then letters, digits and underscores. -/
def IsWord (s : String) : Prop :=
  ∃ c cs, s.toList = c :: cs ∧ isWordStart c = true ∧ ∀ d ∈ cs, isWordChar d = true

/-- The name of a value, which may start with a digit. -/
def IsValueName (s : String) : Prop :=
  s.toList ≠ [] ∧ ∀ c ∈ s.toList, isWordChar c = true

/-- A text that is written between quotes with no escapes but those of quotes and backslashes. -/
def IsPlain (s : String) : Prop :=
  ∀ c ∈ s.toList, c = '"' ∨ c = '\\' ∨ escapeChar c = [c]

-- The test goes through List.all, which the kernel evaluates at little cost.
instance (s : String) : Decidable (IsPlain s) :=
  decidable_of_iff (s.toList.all fun c => c = '"' ∨ c = '\\' ∨ escapeChar c = [c])
    (by simp [IsPlain])

/-- An array type that can be written: its dimensions fit, and its element name is a word. -/
def Shaped.Proper (s : Shaped) : Prop :=
  (∀ n, some n ∈ s.dims → fitsDim n = true) ∧ IsWord s.elem

/-- What holds of each token of a source text. -/
def Token.Proper : Token → Prop
  | .shaped s => s.Proper
  | .int v => fitsInt v = true
  | .value name => IsValueName name
  | .symbol name => IsWord name
  | .ident name => IsWord name ∧ Keyword.ofText? name = none
  | .keyword _ | .mark _ | .string _ | .newline => True

section Runs

variable {α : Type} {p : α → Bool} {run rest : List α}

theorem takeWhile_run (all : ∀ c ∈ run, p c = true) (stop : ∀ c ∈ rest.head?, p c = false) :
    (run ++ rest).takeWhile p = run := by
  rw [List.takeWhile_append_of_pos all]
  cases rest with
  | nil => simp
  | cons c rest => simp [stop c rfl]

theorem dropWhile_run (all : ∀ c ∈ run, p c = true) (stop : ∀ c ∈ rest.head?, p c = false) :
    (run ++ rest).dropWhile p = rest := by
  rw [List.dropWhile_append_of_pos all]
  cases rest with
  | nil => rfl
  | cons c rest => simp [stop c rfl]

end Runs

section Proper

variable {c : Char} {cs : List Char} {t : Token}

theorem isWord_wordAt (start : isWordStart c = true) : IsWord (wordAt (c :: cs)) := by
  refine ⟨c, cs.takeWhile isWordChar, ?_, start, fun d hd => List.mem_takeWhile_imp hd⟩
  simp [wordAt, isWordChar_of_isWordStart start]

theorem fitsDim_of_readDim {digits : List Char} {n : Nat} (h : readDim digits = some n) :
    fitsDim n = true := by
  by_cases fits : fitsDim (decimalValue digits) = true
  · obtain rfl : decimalValue digits = n := by simpa [readDim, fits] using h
    exact fits
  · simp [readDim, fits] at h

theorem shapedBody_proper {dims : Option (List (Option Nat))} {digits elem : List Char}
    {read : List (Option Nat)}
    (fits : ∀ read, dims = some read → ∀ n, some n ∈ read → fitsDim n = true)
    (h : (shapedBody dims digits cs).1 = some (read, elem)) :
    (∀ n, some n ∈ read → fitsDim n = true) ∧ IsWord (String.ofList elem) := by
  fun_induction shapedBody dims digits cs with
  | case1 => cases h
  | case2 dims cs ih =>
    refine ih (fun read hread n hn => ?_) h
    obtain ⟨before, rfl, rfl⟩ := Option.map_eq_some_iff.mp hread
    exact fits before rfl n (by simpa using hn)
  | case3 => cases h
  | case4 dims digits c cs _ hc ih => exact ih fits h
  | case5 dims c cs _ hc hw rest hr =>
    obtain ⟨before, rfl, same⟩ := Option.map_eq_some_iff.mp h
    cases same
    exact ⟨fits read rfl, c, _, String.toList_ofList, hw,
      fun d hd => List.mem_takeWhile_imp hd⟩
  | case6 => cases h
  | case7 => cases h
  | case8 dims digits cs _ _ _ ih =>
    refine ih (fun read hread n hn => ?_) h
    obtain ⟨before, rfl, hread⟩ := Option.bind_eq_some_iff.mp hread
    obtain ⟨last, hlast, rfl⟩ := Option.map_eq_some_iff.mp hread
    rcases List.mem_append.mp hn with hn | hn
    · exact fits before rfl n hn
    · obtain rfl : n = last := by simpa using hn
      exact fitsDim_of_readDim hlast
  | case9 => cases h

theorem cutInt_proper {negative : Bool} (h : (cutInt negative cs).piece = .token t) :
    t.Proper := by
  have piece : ∃ v, (cutInt negative cs).piece =
      if fitsInt v then .token (.int v) else .bad := ⟨_, rfl⟩
  obtain ⟨v, piece⟩ := piece
  rw [piece] at h
  by_cases fits : fitsInt v = true
  · obtain rfl : .int v = t := by simpa [fits] using h
    exact fits
  · simp [fits] at h

theorem cutString_proper (h : (cutString cs).piece = .token t) : t.Proper := by
  unfold cutString at h
  split at h
  next =>
    cases h
    trivial
  next => cases h

theorem cutValue_proper (h : (cutValue cs).piece = .token t) : t.Proper := by
  unfold cutValue at h
  split at h
  next start =>
    cases h
    cases cs with
    | nil => cases start
    | cons c cs =>
      have hc : isWordChar c = true := by simpa using start
      refine ⟨by simp [wordAt, hc], fun d hd => ?_⟩
      rw [wordAt, String.toList_ofList] at hd
      exact List.mem_takeWhile_imp hd
  next => cases h

theorem cutSymbol_proper (h : (cutSymbol cs).piece = .token t) : t.Proper := by
  unfold cutSymbol at h
  split at h
  next start =>
    cases h
    cases cs with
    | nil => cases start
    | cons c cs => exact isWord_wordAt (by simpa using start)
  next => cases h

theorem cutWord_proper (start : isWordStart c = true)
    (h : (cutWord (c :: cs)).piece = .token t) : t.Proper := by
  unfold cutWord at h
  split at h
  next container rest _ _ =>
    unfold cutShaped at h
    split at h
    next dims elem body =>
      cases h
      exact shapedBody_proper (by simp) body
    next => cases h
  next =>
    cases h
    unfold wordToken
    split
    next => trivial
    next none => exact ⟨isWord_wordAt start, none⟩

theorem cut_proper (h : (cut c cs).piece = .token t) : t.Proper := by
  unfold cut at h
  split at h
  next => cases h
  next => cases h
  next =>
    cases h
    trivial
  next => exact cutString_proper h
  next => exact cutValue_proper h
  next => exact cutSymbol_proper h
  next =>
    split at h
    next => exact cutInt_proper h
    next => cases h
  next => exact cutInt_proper h
  next letter => exact cutWord_proper (Lead.ofChar_letter letter) h
  next =>
    cases h
    trivial
  next => cases h

/-- Every token of a source text is proper. -/
theorem lexFrom_proper (start : Nat) (cs : List Char) :
    ∀ l ∈ (lexFrom start cs).tokens, l.token.Proper := by
  fun_induction lexFrom start cs with
  | case1 => simp
  | case2 start c cs _ text span later token piece ih =>
    intro l hl
    rcases List.mem_cons.mp hl with rfl | hl
    · exact cut_proper piece
    · exact ih l hl
  | case3 start c cs _ text span later piece ih => exact ih
  | case4 start c cs _ text span later piece ih => exact ih

end Proper

/-- How a token is written. -/
def Token.spelled : Token → List Char
  | .keyword k => k.text.toList
  | .mark m => [m.char]
  | .shaped s => s.text.toList
  | .int v => (toString v).toList
  | .string content => (quoted content).toList
  | .value name => '%' :: name.toList
  | .symbol name => '@' :: name.toList
  | .ident name => name.toList
  | .newline => ['\n']

/-- Whether a token ends where a text follows it. -/
def Token.Ends (t : Token) (rest : List Char) : Prop :=
  match t with
  | .mark _ | .shaped _ | .string _ => True
  | .newline => rest.head? ≠ some '\n'
  | _ => ∀ c ∈ rest.head?, isWordChar c = false ∧ c ≠ '<'

/-- Whether a token is written with no escapes but those that can be read again. -/
def Token.Plain : Token → Prop
  | .string content => IsPlain content
  | _ => True

instance : DecidablePred Token.Plain
  | .string content => inferInstanceAs (Decidable (IsPlain content))
  | .keyword _ | .mark _ | .shaped _ | .int _ | .value _ | .symbol _ | .ident _ | .newline =>
    isTrue trivial

section Spelled

variable {c : Char} {cs rest : List Char} {w : String}

theorem isDigit_isWordChar (h : c.isDigit = true) : isWordChar c = true := by
  simp [isWordChar, Char.isAlphanum, h]

theorem isWordStart_of_isDigit (h : c.isDigit = true) : isWordStart c = false := by
  have low : c.toNat ≤ 57 := by
    simp only [Char.isDigit, Bool.and_eq_true, decide_eq_true_eq, UInt32.le_iff_toNat_le] at h
    exact h.2
  have line : c ≠ '_' := by
    rintro rfl
    cases h
  have upper : c.isUpper = false := by
    refine Bool.eq_false_iff.mpr fun upper => ?_
    have : 65 ≤ c.toNat := UInt32.le_iff_toNat_le.mp (of_decide_eq_true upper).1
    omega
  have lower : c.isLower = false := by
    refine Bool.eq_false_iff.mpr fun lower => ?_
    have bounds := Bool.and_eq_true_iff.mp lower
    have : 97 ≤ c.toNat := UInt32.le_iff_toNat_le.mp (of_decide_eq_true bounds.1)
    omega
  have letter : c.isAlpha = false := (congrArg₂ or upper lower).trans rfl
  simp [isWordStart, letter, line]

theorem Lead.ofChar_of_isWordStart (h : isWordStart c = true) : Lead.ofChar c = .letter := by
  simp [Lead.ofChar, h]

theorem Lead.ofChar_of_isDigit (h : c.isDigit = true) : Lead.ofChar c = .digit := by
  simp [Lead.ofChar, isWordStart_of_isDigit h, h]

/-- A word is cut off as a whole where no word character and no bracket follows. -/
theorem cut_word (word : IsWord w) (ends : ∀ c ∈ rest.head?, isWordChar c = false ∧ c ≠ '<') :
    ∃ c cs, w.toList ++ rest = c :: cs ∧ cut c cs = ⟨.token (wordToken w), rest⟩ := by
  obtain ⟨c, cs, hw, start, inside⟩ := word
  refine ⟨c, cs ++ rest, by rw [hw]; rfl, ?_⟩
  have all : ∀ d ∈ c :: cs, isWordChar d = true := by
    simpa [isWordChar_of_isWordStart start] using inside
  have stop : ∀ d ∈ rest.head?, isWordChar d = false := fun d hd => (ends d hd).1
  have taken : wordAt (c :: (cs ++ rest)) = w := by
    rw [wordAt, ← List.cons_append, takeWhile_run all stop, ← hw, String.ofList_toList]
  have left : (c :: (cs ++ rest)).dropWhile isWordChar = rest := by
    rw [← List.cons_append, dropWhile_run all stop]
  unfold cut
  rw [Lead.ofChar_of_isWordStart start]
  show cutWord (c :: (cs ++ rest)) = _
  unfold cutWord
  rw [taken, left]
  split
  next bracket => exact absurd rfl (ends '<' rfl).2
  next => rfl

theorem toDigits_split (n : Nat) : ∃ c cs, Nat.toDigits 10 n = c :: cs ∧ c.isDigit = true := by
  cases h : Nat.toDigits 10 n with
  | nil => exact absurd h Nat.toDigits_ne_nil
  | cons c cs =>
    have inside : c ∈ Nat.toDigits 10 n := by simp [h]
    exact ⟨c, cs, rfl, Nat.isDigit_of_mem_toDigits (by decide) (by decide) inside⟩

theorem decimalValue_toDigits (n : Nat) : decimalValue (Nat.toDigits 10 n) = n :=
  Nat.ofDigitChars_ten_toDigits

theorem cutInt_toDigits (negative : Bool) (n : Nat)
    (fits : fitsInt (if negative then -(n : Int) else n) = true)
    (ends : ∀ c ∈ rest.head?, isWordChar c = false ∧ c ≠ '<') :
    cutInt negative (Nat.toDigits 10 n ++ rest) =
      ⟨.token (.int (if negative then -(n : Int) else n)), rest⟩ := by
  have all : ∀ d ∈ Nat.toDigits 10 n, d.isDigit = true := fun d hd =>
    Nat.isDigit_of_mem_toDigits (by decide) (by decide) hd
  have stop : ∀ d ∈ rest.head?, d.isDigit = false := fun d hd => by
    refine Bool.eq_false_iff.mpr fun digit => ?_
    exact absurd (isDigit_isWordChar digit) (by simp [(ends d hd).1])
  unfold cutInt
  rw [takeWhile_run all stop, dropWhile_run all stop, decimalValue_toDigits]
  simp only [fits, if_true]

theorem cut_int {v : Int} (fits : fitsInt v = true)
    (ends : ∀ c ∈ rest.head?, isWordChar c = false ∧ c ≠ '<') :
    ∃ c cs, (toString v).toList ++ rest = c :: cs ∧ cut c cs = ⟨.token (.int v), rest⟩ := by
  cases v with
  | ofNat n =>
    obtain ⟨c, cs, split, digit⟩ := toDigits_split n
    have spelled : (toString (Int.ofNat n)).toList = Nat.toDigits 10 n := Nat.toList_repr
    refine ⟨c, cs ++ rest, by rw [spelled, split]; rfl, ?_⟩
    unfold cut
    rw [Lead.ofChar_of_isDigit digit]
    have read := cutInt_toDigits false n fits ends
    rw [split] at read
    exact read
  | negSucc n =>
    obtain ⟨c, cs, split, digit⟩ := toDigits_split (n + 1)
    have spelled : (toString (Int.negSucc n)).toList = '-' :: Nat.toDigits 10 (n + 1) := by
      show ("-" ++ Nat.repr (n + 1)).toList = _
      rw [String.toList_append, Nat.toList_repr]
      rfl
    refine ⟨'-', Nat.toDigits 10 (n + 1) ++ rest, by rw [spelled]; rfl, ?_⟩
    have read := cutInt_toDigits true (n + 1) fits ends
    have minus : Lead.ofChar '-' = .minus := rfl
    unfold cut
    rw [minus]
    show (if (Nat.toDigits 10 (n + 1) ++ rest).head?.any Char.isDigit then _ else _) = _
    rw [if_pos (by simp [split, digit]), read]
    rfl

/-- The name of a value is cut off as a whole where no word character follows. -/
theorem cut_value (name : IsValueName w) (ends : ∀ c ∈ rest.head?, isWordChar c = false) :
    cut '%' (w.toList ++ rest) = ⟨.token (.value w), rest⟩ := by
  obtain ⟨ne, all⟩ := name
  have percent : Lead.ofChar '%' = .percent := rfl
  have head : (w.toList ++ rest).head?.any isWordChar = true := by
    cases h : w.toList with
    | nil => exact absurd h ne
    | cons c cs => simpa using all c (by simp [h])
  unfold cut
  rw [percent]
  show cutValue _ = _
  rw [cutValue, if_pos head, wordAt, takeWhile_run all ends, dropWhile_run all ends,
    String.ofList_toList]

/-- A function symbol is cut off as a whole where no word character follows. -/
theorem cut_symbol (word : IsWord w) (ends : ∀ c ∈ rest.head?, isWordChar c = false) :
    cut '@' (w.toList ++ rest) = ⟨.token (.symbol w), rest⟩ := by
  obtain ⟨c, cs, hw, start, inside⟩ := word
  have all : ∀ d ∈ w.toList, isWordChar d = true := by
    simpa [hw, isWordChar_of_isWordStart start] using inside
  have at' : Lead.ofChar '@' = .at := rfl
  unfold cut
  rw [at']
  show cutSymbol _ = _
  rw [cutSymbol, if_pos (by simp [hw, start]), wordAt, takeWhile_run all ends,
    dropWhile_run all ends, String.ofList_toList]

theorem digitChar_of_mem_toDigits {b n : Nat} (hb : 1 < b) (h : c ∈ Nat.toDigits b n) :
    ∃ d, c = Nat.digitChar d := by
  induction n using Nat.strongRecOn with
  | ind n ih =>
    rw [Nat.toDigits_eq_if hb] at h
    split at h
    next => exact ⟨n, List.mem_singleton.mp h⟩
    next large =>
      rcases List.mem_append.mp h with h | h
      · exact ih (n / b) (Nat.div_lt_self (by omega) hb) h
      · exact ⟨n % b, List.mem_singleton.mp h⟩

/-- A character between quotes is written as it is, or behind a backslash. -/
theorem escapeChar_cases (c : Char) : (c = '"' ∨ c = '\\') ∧ escapeChar c = ['\\', c] ∨
    c ≠ '"' ∧ c ≠ '\\' ∧ escapeChar c = [c] ∨
    ∃ d run, escapeChar c = '\\' :: d :: run ∧ d ≠ '"' ∧ d ≠ '\\' ∧ d ≠ '\n' ∧
      ∀ e ∈ run, e ≠ '"' ∧ e ≠ '\\' := by
  have digit (d : Nat) : d.digitChar ≠ '"' ∧ d.digitChar ≠ '\\' := by grind [Nat.digitChar]
  unfold escapeChar
  split
  next => exact Or.inl ⟨Or.inl rfl, rfl⟩
  next => exact Or.inl ⟨Or.inr rfl, rfl⟩
  next => exact Or.inr (Or.inr ⟨'n', [], rfl, by decide, by decide, by decide, by simp⟩)
  next => exact Or.inr (Or.inr ⟨'r', [], rfl, by decide, by decide, by decide, by simp⟩)
  next => exact Or.inr (Or.inr ⟨'t', [], rfl, by decide, by decide, by decide, by simp⟩)
  next => exact Or.inr (Or.inr ⟨'0', [], rfl, by decide, by decide, by decide, by simp⟩)
  next c quote slash _ _ _ _ =>
    split
    next =>
      refine Or.inr (Or.inr ⟨'u', '\x7b' :: Nat.toDigits 16 _ ++ ['\x7d'], rfl, by decide,
        by decide, by decide, fun e he => ?_⟩)
      simp only [List.cons_append, List.mem_cons, List.mem_append, List.not_mem_nil, or_false] at he
      rcases he with rfl | he | rfl
      · decide
      · obtain ⟨d, rfl⟩ := digitChar_of_mem_toDigits (by decide) he
        exact digit d
      · decide
    next => exact Or.inr (Or.inl ⟨quote, slash, rfl⟩)

theorem stringBody_run {run : List Char} (all : ∀ e ∈ run, e ≠ '"' ∧ e ≠ '\\') :
    stringBody (run ++ rest) = ((stringBody rest).1.map (run ++ ·), (stringBody rest).2) := by
  induction run with
  | nil => simp
  | cons e run ih =>
    have slash := (all e (by simp)).2
    have quote := (all e (by simp)).1
    simp [stringBody, slash, ih fun e he => all e (by simp [he]), Function.comp_def]

/-- What is written between quotes ends with the closing quote. -/
theorem stringBody_escaped (content : List Char) :
    stringBody (content.flatMap escapeChar ++ '"' :: rest) =
      (some (content.flatMap escapeChar), rest) := by
  induction content with
  | nil => simp [stringBody]
  | cons c content ih =>
    rw [List.flatMap_cons, List.append_assoc]
    rcases escapeChar_cases c with ⟨either, text⟩ | ⟨quote, slash, text⟩ |
      ⟨d, run, text, quote, slash, line, all⟩
    · rcases either with rfl | rfl <;> simp [text, stringBody, ih]
    · simp [text, stringBody, slash, ih]
    · simp [text, stringBody, line, stringBody_run all, ih]

theorem unescape_escapeChar (c : Char) (more : List Char) : unescape (escapeChar c ++ more) =
    if c = '"' ∨ c = '\\' ∨ escapeChar c = [c] then (unescape more).map (c :: ·) else none := by
  rcases escapeChar_cases c with ⟨either, text⟩ | ⟨quote, slash, text⟩ |
    ⟨d, run, text, quote, slash, line, all⟩
  · rcases either with rfl | rfl <;> simp [text, unescape]
  · simp [text, unescape, slash]
  · have other : ¬(c = '"' ∨ c = '\\') := by
      rintro (rfl | rfl)
      · exact quote (List.cons.inj (List.cons.inj text).2).1.symm
      · exact slash (List.cons.inj (List.cons.inj text).2).1.symm
    rw [not_or] at other
    simp [text, unescape, quote, slash, other]

/-- What is written between quotes is read back if it is plain. -/
theorem unescape_plain {content : List Char}
    (plain : ∀ c ∈ content, c = '"' ∨ c = '\\' ∨ escapeChar c = [c]) :
    unescape (content.flatMap escapeChar) = some content := by
  induction content with
  | nil => rfl
  | cons c content ih =>
    have later := ih fun d hd => plain d (by simp [hd])
    rw [List.flatMap_cons, unescape_escapeChar, if_pos (plain c (by simp)), later]
    rfl

/-- An escape that is no quote or backslash cannot be read. -/
theorem unescape_escaped {content : List Char}
    (escaped : ¬∀ c ∈ content, c = '"' ∨ c = '\\' ∨ escapeChar c = [c]) :
    unescape (content.flatMap escapeChar) = none := by
  induction content with
  | nil => exact absurd (by simp) escaped
  | cons c content ih =>
    rw [List.flatMap_cons, unescape_escapeChar]
    split
    next here =>
      have later := ih fun all => escaped fun d hd => (List.mem_cons.mp hd).elim (· ▸ here) (all d)
      rw [later]
      rfl
    next => rfl

theorem cut_string (content : String) : ∃ c cs, (quoted content).toList ++ rest = c :: cs ∧
    cut c cs = ⟨if IsPlain content then .token (.string content) else .bad, rest⟩ := by
  refine ⟨'"', content.toList.flatMap escapeChar ++ '"' :: rest, ?_, ?_⟩
  · simp [quoted]
  · have quote : Lead.ofChar '"' = .quote := rfl
    unfold cut
    rw [quote]
    show cutString _ = _
    simp only [cutString, stringBody_escaped, Option.bind_some]
    by_cases plain : IsPlain content
    · simp [plain, unescape_plain plain]
    · simp [plain, unescape_escaped plain]

theorem shapedBody_digits {dims : Option (List (Option Nat))} {before run : List Char}
    (digits : ∀ c ∈ run, c.isDigit = true) :
    shapedBody dims before (run ++ rest) = shapedBody dims (before ++ run) rest := by
  induction run generalizing before with
  | nil => simp
  | cons c run ih =>
    have digit : c.isDigit = true := digits c (by simp)
    have known : c ≠ '?' := by
      rintro rfl
      cases digit
    rw [List.cons_append, shapedBody, if_pos digit, ih fun d hd => digits d (by simp [hd])]
    · simp
    · simp [known]

theorem shapedBody_dims {read dims : List (Option Nat)}
    (fits : ∀ n, some n ∈ dims → fitsDim n = true) :
    shapedBody (some read) [] (dims.flatMap (fun dim => (dimText dim).toList) ++ rest) =
      shapedBody (some (read ++ dims)) [] rest := by
  induction dims generalizing read with
  | nil => simp
  | cons dim dims ih =>
    have later := @ih (read ++ [dim]) fun n hn => fits n (by simp [hn])
    rw [List.append_assoc] at later
    rw [List.flatMap_cons, List.append_assoc]
    cases dim with
    | none => simpa [dimText, shapedBody] using later
    | some n =>
      have spelled : (dimText (some n)).toList = Nat.toDigits 10 n ++ ['x'] := by
        show (Nat.repr n ++ "x").toList = _
        rw [String.toList_append, Nat.toList_repr]
        rfl
      have digits : ∀ d ∈ Nat.toDigits 10 n, d.isDigit = true := fun d hd =>
        Nat.isDigit_of_mem_toDigits (by decide) (by decide) hd
      have dim : readDim (Nat.toDigits 10 n) = some n := by
        simp [readDim, decimalValue_toDigits, fits n (by simp)]
      rw [spelled, List.append_assoc, shapedBody_digits digits, List.singleton_append, shapedBody,
        if_neg (by simp), if_neg (by simp), if_pos rfl]
      · simpa [dim] using later
      · simp

theorem shapedBody_elem {dims : Option (List (Option Nat))} (word : IsWord w) :
    shapedBody dims [] (w.toList ++ '>' :: rest) =
      (dims.map fun dims => (dims, w.toList), rest) := by
  obtain ⟨c, cs, hw, start, inside⟩ := word
  have known : c ≠ '?' := by
    rintro rfl
    cases start
  have digit : c.isDigit = false := by
    refine Bool.eq_false_iff.mpr fun digit => ?_
    simp [isWordStart_of_isDigit digit] at start
  have stop : ∀ d ∈ ('>' :: rest).head?, isWordChar d = false := by simp [isWordChar]
  rw [hw, List.cons_append, shapedBody, if_neg (by simp [digit]), if_pos rfl, if_pos start,
    dropWhile_run inside stop, takeWhile_run inside stop]
  · simp
  · simp [known]

/-- The name of a container and an opening bracket start an array type. -/
theorem cut_opened (container : Container) (cs : List Char) : ∃ d more,
    container.text.toList ++ '<' :: cs = d :: more ∧ cut d more = cutShaped container cs := by
  have letters : ∀ c ∈ container.text.toList, isWordChar c = true := by
    refine List.all_eq_true.mp ?_
    cases container <;> rfl
  have stop : ∀ c ∈ ('<' :: cs).head?, isWordChar c = false := by simp [isWordChar]
  have known : Container.ofText? container.text = some container := by cases container <;> rfl
  obtain ⟨d, more, split, start⟩ : ∃ d more, container.text.toList = d :: more ∧
      isWordStart d = true := by
    cases container
    · exact ⟨'m', "emref".toList, rfl, rfl⟩
    · exact ⟨'t', "ensor".toList, rfl, rfl⟩
  refine ⟨d, _, by rw [split]; rfl, ?_⟩
  unfold cut
  rw [Lead.ofChar_of_isWordStart start]
  show cutWord (d :: (more ++ _)) = _
  rw [← List.cons_append, ← split, cutWord, wordAt, takeWhile_run letters stop,
    dropWhile_run letters stop, String.ofList_toList, known]
  rfl

theorem cut_shaped {shape : Shaped} (proper : shape.Proper) :
    ∃ c cs, shape.text.toList ++ rest = c :: cs ∧ cut c cs = ⟨.token (.shaped shape), rest⟩ := by
  obtain ⟨container, dims, elem⟩ := shape
  obtain ⟨fits, word⟩ := proper
  have inside : shapedBody (some []) [] (dims.flatMap (fun dim => (dimText dim).toList) ++
      (elem.toList ++ '>' :: rest)) = (some (dims, elem.toList), rest) := by
    rw [shapedBody_dims fits, List.nil_append, shapedBody_elem word, Option.map_some]
  have spelled : (Shaped.text ⟨container, dims, elem⟩).toList ++ rest = container.text.toList ++
      '<' :: (dims.flatMap (fun dim => (dimText dim).toList) ++ (elem.toList ++ '>' :: rest)) := by
    simp [Shaped.text, String.toList_join, List.flatMap_map]
  obtain ⟨c, cs, split, read⟩ := cut_opened container
    (dims.flatMap (fun dim => (dimText dim).toList) ++ (elem.toList ++ '>' :: rest))
  refine ⟨c, cs, spelled.trans split, ?_⟩
  rw [read]
  simp [cutShaped, inside]

theorem keyword_isWord (k : Keyword) : IsWord k.text := by
  have letters : k.text.toList.all isWordChar = true := by cases k <;> rfl
  have start : k.text.toList.head?.any isWordStart = true := by cases k <;> rfl
  unfold IsWord
  cases split : k.text.toList with
  | nil => simp [split] at start
  | cons c cs =>
    rw [split] at letters start
    exact ⟨c, cs, rfl, start, fun d hd => List.all_eq_true.mp letters d (List.mem_cons_of_mem c hd)⟩

theorem Keyword.ofText?_text (k : Keyword) : Keyword.ofText? k.text = some k := by
  cases k <;> decide

theorem Mark.ofChar?_char (m : Mark) : Lead.ofChar m.char = .mark m := by
  cases m <;> rfl

end Spelled

/-- A proper token is cut off as a whole where it ends, if what it is written with can be read. -/
theorem Token.cut_written {t : Token} (proper : t.Proper) {rest : List Char} (ends : t.Ends rest) :
    ∃ c cs, t.spelled ++ rest = c :: cs ∧
      cut c cs = ⟨if t.Plain then .token t else .bad, rest⟩ := by
  cases t with
  | keyword k =>
    obtain ⟨c, cs, split, read⟩ := cut_word (keyword_isWord k) ends
    refine ⟨c, cs, split, read.trans ?_⟩
    rw [wordToken, Keyword.ofText?_text]
    rfl
  | mark m =>
    refine ⟨m.char, rest, rfl, ?_⟩
    unfold cut
    rw [Mark.ofChar?_char]
    rfl
  | shaped shape => exact cut_shaped proper
  | int v => exact cut_int proper ends
  | string content => exact cut_string content
  | value name => exact ⟨'%', _, rfl, cut_value proper fun c hc => (ends c hc).1⟩
  | symbol name => exact ⟨'@', _, rfl, cut_symbol proper fun c hc => (ends c hc).1⟩
  | ident name =>
    obtain ⟨c, cs, split, read⟩ := cut_word proper.1 ends
    refine ⟨c, cs, split, read.trans ?_⟩
    rw [wordToken, proper.2]
    rfl
  | newline =>
    refine ⟨'\n', rest, rfl, ?_⟩
    have lead : Lead.ofChar '\n' = .newline := rfl
    have left : rest.dropWhile (· = '\n') = rest := by
      cases rest with
      | nil => rfl
      | cons c rest =>
        have other : c ≠ '\n' := fun h => ends (congrArg some h)
        simp [other]
    unfold cut
    rw [lead]
    simp only [left]
    rfl

end Staging
