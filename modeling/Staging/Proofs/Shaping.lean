import Staging.Proofs.Layout
import Staging.Proofs.Patterns

namespace Staging

open Computability

/-- A known dimension may be written with leading zeros. -/
def SpellsDim (dim : Option Nat) (text : List Char) : Prop :=
  ∃ zeros, text = List.replicate zeros '0' ++ (dimText dim).toList ∧ (dim = none → zeros = 0)

/-- The text of an array type, up to leading zeros of its dimensions. -/
def Shaped.Spells (s : Shaped) (text : List Char) : Prop :=
  ∃ dims, List.Forall₂ SpellsDim s.dims dims ∧
    text = s.container.text.toList ++ '<' :: (dims.flatten ++ s.elem.toList ++ ['>'])

def isDimPart (part : List Char) : Bool :=
  part = ['?'] || (part ≠ [] && part.all Char.isDigit)

def readPart (part : List Char) : Option (Option Nat) :=
  if part = ['?'] then some none else (readDim part).map some

/-- Reads an array type from its parts between `x`: they are dimensions up to the first that does
not look like one, and what is left, with its `x`, is the element name. -/
def readParts (parts : List (List Char)) : Option (List (Option Nat) × List Char) :=
  ((parts.takeWhile isDimPart).mapM readPart).bind fun dims =>
    match ['x'].intercalate (parts.dropWhile isDimPart) with
    | [] => none
    | elem => some (dims, elem)

def readInside (inside : List Char) : Option (List (Option Nat) × List Char) :=
  readParts (inside.splitOn 'x')

/-- The inside of an array type, its dimensions in front. -/
inductive Inside : List Char → Prop
  | elem {word : List Char} (h : word ∈ wordPattern) : Inside word
  | dim {part inside : List Char} (h : isDimPart part = true) (more : Inside inside) :
      Inside (part ++ 'x' :: inside)

section Inside

variable {part inside word unit rest : List Char} {dims : Option (List (Option Nat))}

theorem isDimPart_cases (h : isDimPart part = true) :
    part = ['?'] ∨ part ≠ [] ∧ ∀ c ∈ part, c.isDigit = true := by
  simpa [isDimPart] using h

theorem dimPattern_cases (h : unit ∈ dimPattern) :
    ∃ part, isDimPart part = true ∧ unit = part ++ ['x'] := by
  rcases h with ⟨digits, run, _, rfl, rfl⟩ | rfl
  · exact ⟨digits, by simpa [isDimPart] using Or.inr (mem_digitsPattern.mp run), rfl⟩
  · exact ⟨['?'], rfl, rfl⟩

theorem inside_of_mem (h : inside ∈ dimPattern∗ * wordPattern) : Inside inside := by
  obtain ⟨_, dims, word, elem, rfl⟩ := Language.mem_mul.mp h
  obtain ⟨units, rfl, each⟩ := Language.mem_kstar.mp dims
  clear h dims
  induction units with
  | nil => exact .elem elem
  | cons unit units ih =>
    obtain ⟨part, dim, rfl⟩ := dimPattern_cases (each unit List.mem_cons_self)
    have more := ih fun u hu => each u (List.mem_cons_of_mem _ hu)
    simpa using Inside.dim dim more

theorem x_notMem_of_isDimPart (h : isDimPart part = true) : 'x' ∉ part := by
  rcases isDimPart_cases h with rfl | ⟨-, digits⟩
  · decide
  · exact fun x => absurd (digits 'x' x) (by decide)

theorem readInside_dim (h : isDimPart part = true) : readInside (part ++ 'x' :: inside) =
    (readPart part).bind fun dim =>
      (readInside inside).map fun read => (dim :: read.1, read.2) := by
  unfold readInside readParts
  rw [List.splitOn_append_cons_self_of_not_mem (x_notMem_of_isDimPart h),
    List.takeWhile_cons_of_pos h, List.dropWhile_cons_of_pos h, List.mapM_cons]
  cases readPart part with
  | none => rfl
  | some dim =>
    cases ((inside.splitOn 'x').takeWhile isDimPart).mapM readPart with
    | none => rfl
    | some dims =>
      cases ['x'].intercalate ((inside.splitOn 'x').dropWhile isDimPart) <;> rfl

/-- The first part of a word is empty or starts as the word does, so it is no dimension. -/
theorem readInside_elem (h : word ∈ wordPattern) : readInside word = some ([], word) := by
  obtain ⟨c, cs, split, start, -⟩ := mem_wordPattern.mp h
  rw [String.toList_ofList] at split
  subst split
  obtain ⟨first, parts, splitted, other⟩ : ∃ first parts, (c :: cs).splitOn 'x' = first :: parts ∧
      isDimPart first = false := by
    rw [List.splitOn_cons_eq_if_modifyHead]
    split
    next => exact ⟨[], _, rfl, rfl⟩
    next =>
      obtain ⟨first, parts, more⟩ := List.exists_cons_of_ne_nil (List.splitOn_ne_nil 'x' cs)
      refine ⟨c :: first, parts, by rw [more]; rfl, Bool.eq_false_iff.mpr fun dim => ?_⟩
      rcases isDimPart_cases dim with same | ⟨-, digits⟩
      · obtain rfl : c = '?' := (List.cons.inj same).1
        cases start
      · have digit := isWordStart_of_isDigit (digits c List.mem_cons_self)
        rw [start] at digit
        cases digit
  have whole : ['x'].intercalate (first :: parts) = c :: cs := by
    rw [← splitted, List.intercalate_splitOn]
  unfold readInside readParts
  rw [splitted, List.takeWhile_cons_of_neg (by simp [other]),
    List.dropWhile_cons_of_neg (by simp [other]), whole]
  rfl

theorem shapedBody_part (h : isDimPart part = true) :
    shapedBody dims [] (part ++ 'x' :: rest) =
      shapedBody (dims.bind fun dims => (readPart part).map fun dim => dims ++ [dim]) [] rest := by
  rcases isDimPart_cases h with rfl | ⟨ne, digits⟩
  · cases dims with
    | none => simp [shapedBody]
    | some dims => simp [shapedBody, readPart]
  · have known : part ≠ ['?'] := by
      rintro rfl
      exact absurd (digits '?' (by simp)) (by decide)
    rw [shapedBody_digits digits, List.nil_append, shapedBody, if_neg (by decide), if_neg ne,
      if_pos rfl, readPart, if_neg known]
    · cases dims <;> cases readDim part <;> rfl
    · simp

/-- Reading an array type from left to right, as the pattern delimits it, and reading it by its
parts between `x` give the same. -/
theorem shapedBody_inside (h : Inside inside) : shapedBody dims [] (inside ++ '>' :: rest) =
    (dims.bind fun dims => (readInside inside).map fun read => (dims ++ read.1, read.2), rest) := by
  induction h generalizing dims with
  | elem h =>
    have word := @shapedBody_elem rest _ dims (mem_wordPattern.mp h)
    rw [String.toList_ofList] at word
    rw [word, readInside_elem h]
    cases dims <;> simp
  | dim h more ih =>
    rw [List.append_assoc, List.cons_append, shapedBody_part h, ih, readInside_dim h]
    cases dims <;> cases readPart _ <;> cases readInside _ <;> simp

end Inside

section Zeros

variable {c : Char} {digits : List Char}

theorem digit_lt_ten (digit : c.isDigit = true) : c.toNat - '0'.toNat < 10 := by
  have high : c.toNat ≤ 57 :=
    UInt32.le_iff_toNat_le.mp (of_decide_eq_true (Bool.and_eq_true_iff.mp digit).2)
  have zero : '0'.toNat = 48 := rfl
  omega

theorem toDigits_digit (digit : c.isDigit = true) :
    Nat.toDigits 10 (c.toNat - '0'.toNat) = [c] := by
  have low : 48 ≤ c.toNat :=
    UInt32.le_iff_toNat_le.mp (of_decide_eq_true (Bool.and_eq_true_iff.mp digit).1)
  have zero : '0'.toNat = 48 := rfl
  have same : (c.toNat - '0'.toNat).digitChar = c := by
    refine Char.toNat_inj.mp ?_
    rw [Nat.toNat_digitChar_of_lt_ten (digit_lt_ten digit)]
    omega
  rw [Nat.toDigits_of_lt_base (digit_lt_ten digit), same]

theorem decimalValue_concat (before : List Char) (c : Char) :
    decimalValue (before ++ [c]) = 10 * decimalValue before + (c.toNat - '0'.toNat) := by
  rw [decimalValue, Nat.ofDigitChars_append]
  rfl

/-- A run of digits is its value in decimal behind leading zeros. -/
theorem digits_eq_zeros_append (ne : digits ≠ []) (all : ∀ c ∈ digits, c.isDigit = true) :
    ∃ zeros, digits = List.replicate zeros '0' ++ Nat.toDigits 10 (decimalValue digits) := by
  induction digits using List.reverseRecOn with
  | nil => exact absurd rfl ne
  | append_singleton before c ih =>
    have digit : c.isDigit = true := all c (by simp)
    rw [decimalValue_concat]
    by_cases first : before = []
    · subst first
      have none : decimalValue [] = 0 := rfl
      refine ⟨0, ?_⟩
      rw [none, Nat.mul_zero, Nat.zero_add, toDigits_digit digit]
      rfl
    · obtain ⟨zeros, split⟩ := ih first fun d hd => all d (by simp [hd])
      rcases Nat.eq_zero_or_pos (decimalValue before) with zero | pos
      · have only : before = List.replicate (zeros + 1) '0' := by
          rw [split, zero, List.replicate_succ']
          rfl
        refine ⟨zeros + 1, ?_⟩
        rw [zero, Nat.mul_zero, Nat.zero_add, toDigits_digit digit, only]
      · refine ⟨zeros, ?_⟩
        rw [← Nat.toDigits_append_toDigits (by decide) pos (digit_lt_ten digit),
          toDigits_digit digit, ← List.append_assoc, ← split]

end Zeros

section Spells

variable {part inside : List Char} {dim : Option Nat} {dims : List (Option Nat)} {elem : List Char}

theorem decimalValue_of_readDim {digits : List Char} {n : Nat} (h : readDim digits = some n) :
    decimalValue digits = n := by
  by_cases fits : fitsDim (decimalValue digits) = true
  · simpa [readDim, fits] using h
  · simp [readDim, fits] at h

theorem readPart_spells (h : isDimPart part = true) (read : readPart part = some dim) :
    SpellsDim dim (part ++ ['x']) := by
  rcases isDimPart_cases h with rfl | ⟨ne, digits⟩
  · cases read
    exact ⟨0, rfl, fun _ => rfl⟩
  · have known : part ≠ ['?'] := by
      rintro rfl
      exact absurd (digits '?' (by simp)) (by decide)
    rw [readPart, if_neg known] at read
    obtain ⟨n, value, rfl⟩ := Option.map_eq_some_iff.mp read
    have same := decimalValue_of_readDim value
    obtain ⟨zeros, split⟩ := digits_eq_zeros_append ne digits
    refine ⟨zeros, ?_, nofun⟩
    have spelled : (dimText (some n)).toList = Nat.toDigits 10 n ++ ['x'] := by
      show (Nat.repr n ++ "x").toList = _
      rw [String.toList_append, Nat.toList_repr]
      rfl
    rw [spelled, ← List.append_assoc, ← same, ← split]

theorem readInside_spells (h : Inside inside) (read : readInside inside = some (dims, elem)) :
    ∃ texts, List.Forall₂ SpellsDim dims texts ∧ inside = texts.flatten ++ elem := by
  induction h generalizing dims with
  | elem h =>
    rw [readInside_elem h] at read
    cases read
    exact ⟨[], .nil, rfl⟩
  | @dim part inside h more ih =>
    rw [readInside_dim h] at read
    obtain ⟨dim, first, read⟩ := Option.bind_eq_some_iff.mp read
    obtain ⟨later, others, same⟩ := Option.map_eq_some_iff.mp read
    cases same
    obtain ⟨texts, spelled, split⟩ := ih others
    refine ⟨(part ++ ['x']) :: texts, .cons (readPart_spells h first) spelled, ?_⟩
    rw [List.flatten_cons, split]
    simp

end Spells

section Lexing

variable {inside text rest : List Char} {s : Shaped} {c : Char} {cs : List Char}

/-- What an array type is read as. -/
def arrayPiece (container : Container) (inside : List Char) : Piece :=
  match readInside inside with
  | some (dims, elem) => .token (.shaped ⟨container, dims, String.ofList elem⟩)
  | none => .bad

theorem cut_array (container : Container) (h : inside ∈ dimPattern∗ * wordPattern) :
    ∃ c cs, container.text.toList ++ '<' :: (inside ++ '>' :: rest) = c :: cs ∧
      cut c cs = ⟨arrayPiece container inside, rest⟩ := by
  obtain ⟨c, cs, split, read⟩ := cut_opened container (inside ++ '>' :: rest)
  refine ⟨c, cs, split, ?_⟩
  rw [read, cutShaped, shapedBody_inside (inside_of_mem h), arrayPiece]
  cases readInside inside <;> rfl

/-- An array type is the token of a text that spells it. -/
theorem cut_spells (h : (cut c cs).piece = .token (.shaped s))
    (split : c :: cs = text ++ (cut c cs).rest) : s.Spells text := by
  obtain ⟨found, eq, matched⟩ := cut_matches h
  obtain rfl := List.append_cancel_right (split.symm.trans eq)
  obtain ⟨container, inside, mem, same⟩ := shaped_pattern_cases matched
  obtain ⟨d, ds, first, read⟩ := @cut_array inside (cut c cs).rest container mem
  have whole : c :: cs = d :: ds := by
    rw [split, same, ← first]
    simp
  obtain ⟨rfl, rfl⟩ := List.cons.inj whole
  rw [read] at h
  simp only [arrayPiece] at h
  split at h
  next dims elem found =>
    cases h
    obtain ⟨texts, spelled, split⟩ := readInside_spells (inside_of_mem mem) found
    exact ⟨texts, spelled, by simp [same, split]⟩
  next => cases h

end Lexing

/-- An array type is read back from its text, and the text of a token that is an array type spells
it. What stands between the brackets is read by its parts between `x`, and a text with a dimension
that is too wide is no token. -/
theorem lex_array_type :
    (∀ s : Shaped, s.Proper → lex (Token.shaped s).text =
      ⟨[⟨.shaped s, ⟨0, byteLength (Token.shaped s).text.toList⟩⟩], []⟩) ∧
    (∀ (source : String) (l : Lexed) (s : Shaped), l ∈ (lex source).tokens → l.token = .shaped s →
      s.Proper ∧ ∃ slice, textAt source l.span = some slice ∧ s.Spells slice.toList) ∧
    ∀ (container : Container) (inside : List Char) (source : String),
      inside ∈ dimPattern∗ * wordPattern →
      source.toList = container.text.toList ++ '<' :: (inside ++ ['>']) →
      lex source = match readInside inside with
        | some (dims, elem) =>
          ⟨[⟨.shaped ⟨container, dims, String.ofList elem⟩, ⟨0, byteLength source.toList⟩⟩], []⟩
        | none => ⟨[], [⟨source, ⟨0, byteLength source.toList⟩⟩]⟩ := by
  refine ⟨fun s proper => ?_, fun source l s hl shaped => ?_,
    fun container inside source mem whole => ?_⟩
  · obtain ⟨c, cs, split, read⟩ := @cut_shaped [] s proper
    rw [List.append_nil] at split
    exact @lex_alone (Token.shaped s).text _ _ _ split read
  · obtain ⟨c, more, text, cuts, piece, split⟩ :=
      (@lexFrom_cuts source [] source.toList rfl).1 l hl
    have proper := lexFrom_proper 0 source.toList l hl
    rw [shaped] at piece proper
    refine ⟨proper, String.ofList text, cuts.text, ?_⟩
    rw [String.toList_ofList]
    exact cut_spells piece split
  · obtain ⟨c, cs, split, read⟩ := @cut_array inside [] container mem
    rw [lex_alone (whole.trans split) read, arrayPiece]
    cases readInside inside <;> rfl

/-- The element name of the first array type starts and ends with `x` and has digits between them,
the second one has leading zeros, and the third one has a dimension that is too wide. -/
theorem lex_array_type_around_x :
    ((⟨.tensor, [none, some 7], "x4x5x"⟩ : Shaped).Proper ∧ lex "tensor<?x7xx4x5x>" =
      ⟨[⟨.shaped ⟨.tensor, [none, some 7], "x4x5x"⟩, ⟨0, 17⟩⟩], []⟩) ∧
    (⟨.shaped ⟨.memref, [some 7, none], "x4"⟩, ⟨0, 16⟩⟩ ∈ (lex "memref<007x?xx4>").tokens ∧
      ∃ slice, textAt "memref<007x?xx4>" ⟨0, 16⟩ = some slice ∧
        (⟨.memref, [some 7, none], "x4"⟩ : Shaped).Spells slice.toList) ∧
    ("18446744073709551616xf32".toList ∈ dimPattern∗ * wordPattern ∧
      lex "memref<18446744073709551616xf32>" =
        ⟨[], [⟨"memref<18446744073709551616xf32>", ⟨0, 32⟩⟩]⟩) := by
  have proper : (⟨.tensor, [none, some 7], "x4x5x"⟩ : Shaped).Proper :=
    ⟨by simp [fitsDim], 'x', "4x5x".toList, rfl, rfl, List.all_eq_true.mp rfl⟩
  have read : ⟨.shaped ⟨.memref, [some 7, none], "x4"⟩, ⟨0, 16⟩⟩ ∈
      (lex "memref<007x?xx4>").tokens := by decide +kernel
  have word : "f32".toList ∈ wordPattern :=
    mem_wordPattern.mpr ⟨'f', "32".toList, rfl, rfl, List.all_eq_true.mp rfl⟩
  have dim : "18446744073709551616".toList ++ ['x'] ∈ dimPattern :=
    knownDim_mem (by decide) (List.all_eq_true.mp rfl)
  have wide : "18446744073709551616xf32".toList ∈ dimPattern∗ * wordPattern :=
    dim_append_mem dim (Language.mem_mul.mpr ⟨[], Language.nil_mem_kstar _, _, word, rfl⟩)
  refine ⟨⟨proper, lex_array_type.1 _ proper⟩,
    ⟨read, (lex_array_type.2.1 _ _ _ read rfl).2⟩, wide, ?_⟩
  exact lex_array_type.2.2 .memref _ _ wide rfl

end Staging
