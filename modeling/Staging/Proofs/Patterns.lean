import Mathlib.Computability.Language
import Staging.Proofs.Boundary
import Staging.Proofs.Spelling

namespace Staging

open Computability

/-- The texts of one character of a class. -/
def oneOf (p : Char → Bool) : Language Char :=
  {cs | ∃ c, p c = true ∧ cs = [c]}

def exactly (text : String) : Language Char :=
  {text.toList}

def wordPattern : Language Char :=
  oneOf isWordStart * (oneOf isWordChar)∗

def digitsPattern : Language Char :=
  oneOf Char.isDigit * (oneOf Char.isDigit)∗

def dimPattern : Language Char :=
  digitsPattern * exactly "x" + exactly "?x"

/-- A character inside quotes, or an escape, which may stand for any character but a line feed. -/
def quotedPattern : Language Char :=
  oneOf (fun c => c != '"' && c != '\\') + exactly "\\" * oneOf (· != '\n')

/-- The texts that may be a token like this one. -/
def Token.pattern : Token → Language Char
  | .keyword k => exactly k.text
  | .mark m => exactly m.char.toString
  | .shaped _ =>
    (exactly "memref" + exactly "tensor") * exactly "<" * (dimPattern∗ * wordPattern) * exactly ">"
  | .int _ => (1 + exactly "-") * digitsPattern
  | .string _ => exactly "\"" * quotedPattern∗ * exactly "\""
  | .value _ => exactly "%" * (oneOf isWordChar * (oneOf isWordChar)∗)
  | .symbol _ => exactly "@" * wordPattern
  | .ident _ => wordPattern
  | .newline => oneOf (· == '\n') * (oneOf (· == '\n'))∗

/-- An array type cannot go on. `part` is what there is of it behind the last of its dimensions, and a
dimension that is not known is read in one piece. -/
inductive ArrayStops : (part behind : List Char) → Prop
  | front {behind : List Char} (char : ∀ c ∈ behind.head?, c.isDigit = false ∧ isWordStart c = false)
      (unknown : ¬ ['?', 'x'] <+: behind) : ArrayStops [] behind
  | digits {part behind : List Char} (run : part ∈ digitsPattern)
      (char : ∀ c ∈ behind.head?, c.isDigit = false ∧ c ≠ 'x') : ArrayStops part behind
  | elem {part behind : List Char} (word : part ∈ wordPattern)
      (char : ∀ c ∈ behind.head?, isWordChar c = false ∧ c ≠ '>') : ArrayStops part behind

section Languages

variable {p : Char → Bool} {cs : List Char} {text : String}

theorem mem_exactly : cs ∈ exactly text ↔ cs = text.toList :=
  Iff.rfl

theorem mem_many : cs ∈ (oneOf p)∗ ↔ ∀ c ∈ cs, p c = true := by
  rw [Language.mem_kstar]
  constructor
  · rintro ⟨units, rfl, each⟩ c hc
    obtain ⟨unit, hu, hc⟩ := List.mem_flatten.mp hc
    obtain ⟨d, hd, rfl⟩ := each unit hu
    rw [List.mem_singleton] at hc
    exact hc ▸ hd
  · intro all
    refine ⟨cs.map fun c => [c], by simp [← List.flatMap_def], fun unit hu => ?_⟩
    obtain ⟨c, hc, rfl⟩ := List.mem_map.mp hu
    exact ⟨c, all c hc, rfl⟩

theorem mem_some : cs ∈ oneOf p * (oneOf p)∗ ↔ cs ≠ [] ∧ ∀ c ∈ cs, p c = true := by
  rw [Language.mem_mul]
  constructor
  · rintro ⟨_, ⟨c, hc, rfl⟩, rest, all, rfl⟩
    refine ⟨by simp, fun d hd => ?_⟩
    rcases List.mem_cons.mp hd with rfl | hd
    · exact hc
    · exact mem_many.mp all d hd
  · rintro ⟨ne, all⟩
    obtain ⟨c, rest, rfl⟩ := List.exists_cons_of_ne_nil ne
    exact ⟨[c], ⟨c, all c (by simp), rfl⟩, rest, mem_many.mpr fun d hd => all d (by simp [hd]), rfl⟩

theorem mem_wordPattern : cs ∈ wordPattern ↔ IsWord (String.ofList cs) := by
  unfold wordPattern IsWord
  rw [Language.mem_mul, String.toList_ofList]
  constructor
  · rintro ⟨_, ⟨c, hc, rfl⟩, rest, all, rfl⟩
    exact ⟨c, rest, rfl, hc, mem_many.mp all⟩
  · rintro ⟨c, rest, rfl, hc, all⟩
    exact ⟨[c], ⟨c, hc, rfl⟩, rest, mem_many.mpr all, rfl⟩

theorem IsWord.all (word : IsWord (String.ofList cs)) : ∀ c ∈ cs, isWordChar c = true := by
  obtain ⟨c, rest, split, start, inside⟩ := word
  rw [String.toList_ofList] at split
  rw [split]
  intro d hd
  rcases List.mem_cons.mp hd with rfl | hd
  · exact isWordChar_of_isWordStart start
  · exact inside d hd

/-- A unit put in front of a repetition. -/
theorem append_mem_kstar {l : Language Char} {unit : List Char} (hu : unit ∈ l) (h : cs ∈ l∗) :
    unit ++ cs ∈ l∗ := by
  obtain ⟨units, rfl, each⟩ := Language.mem_kstar.mp h
  refine Language.mem_kstar.mpr ⟨unit :: units, rfl, fun u hu' => ?_⟩
  rcases List.mem_cons.mp hu' with rfl | hu'
  · exact hu
  · exact each u hu'

end Languages

section Strings

variable {cs inside rest : List Char}

theorem escape_mem {c : Char} (h : c ≠ '\n') : ['\\', c] ∈ quotedPattern := by
  unfold quotedPattern
  rw [Language.mem_add, Language.mem_mul]
  exact Or.inr ⟨['\\'], rfl, [c], ⟨c, by simpa using h, rfl⟩, rfl⟩

theorem plain_mem {c : Char} (quote : c ≠ '"') (slash : c ≠ '\\') : [c] ∈ quotedPattern := by
  unfold quotedPattern
  rw [Language.mem_add]
  exact Or.inl ⟨c, by simp [quote, slash], rfl⟩

theorem mem_of_stringBody (h : (stringBody cs).1 = some inside) : inside ∈ quotedPattern∗ := by
  fun_induction stringBody cs generalizing inside with
  | case1 => cases h
  | case2 cs =>
    cases h
    exact Language.nil_mem_kstar _
  | case3 => cases h
  | case4 cs => cases h
  | case5 c cs escapes ih =>
    obtain ⟨more, hm, rfl⟩ := Option.map_eq_some_iff.mp h
    exact append_mem_kstar (escape_mem escapes) (ih hm)
  | case6 c cs quote last escape ih =>
    obtain ⟨more, hm, rfl⟩ := Option.map_eq_some_iff.mp h
    have slash : c ≠ '\\' := by
      intro same
      cases cs with
      | nil => exact last same rfl
      | cons d cs => exact escape d cs same rfl
    exact append_mem_kstar (plain_mem quote slash) (ih hm)

/-- What is inside quotes ends at the first quote that is not escaped. -/
theorem stringBody_of_mem (h : inside ∈ quotedPattern∗) :
    stringBody (inside ++ '"' :: rest) = (some inside, rest) := by
  obtain ⟨units, rfl, each⟩ := Language.mem_kstar.mp h
  clear h
  induction units with
  | nil => simp [stringBody]
  | cons unit units ih =>
    have later := ih fun u hu => each u (List.mem_cons_of_mem unit hu)
    rw [List.flatten_cons, List.append_assoc]
    rcases each unit List.mem_cons_self with ⟨c, plain, rfl⟩ | ⟨_, rfl, _, ⟨c, escapes, rfl⟩, rfl⟩
    · simp only [bne_iff_ne, ne_eq, Bool.and_eq_true] at plain
      simp [stringBody, plain.1, plain.2, later]
    · simp only [bne_iff_ne, ne_eq] at escapes
      change stringBody (['\\', c] ++ _) = (some (['\\', c] ++ _), rest)
      simp [stringBody, escapes, later]

end Strings

section Types

variable {cs inside rest digits : List Char} {dims : Option (List (Option Nat))}

theorem mem_digitsPattern : cs ∈ digitsPattern ↔ cs ≠ [] ∧ ∀ c ∈ cs, c.isDigit = true :=
  mem_some

theorem unknownDim_mem : ['?', 'x'] ∈ dimPattern := by
  unfold dimPattern
  rw [Language.mem_add]
  exact Or.inr rfl

theorem knownDim_mem (ne : digits ≠ []) (all : ∀ c ∈ digits, c.isDigit = true) :
    digits ++ ['x'] ∈ dimPattern := by
  unfold dimPattern
  rw [Language.mem_add, Language.mem_mul]
  exact Or.inl ⟨digits, mem_digitsPattern.mpr ⟨ne, all⟩, ['x'], rfl, rfl⟩

/-- A dimension in front of the inside of an array type. -/
theorem dim_append_mem {dim : List Char} (hd : dim ∈ dimPattern)
    (h : inside ∈ dimPattern∗ * wordPattern) : dim ++ inside ∈ dimPattern∗ * wordPattern := by
  obtain ⟨dims, hdims, elem, word, rfl⟩ := Language.mem_mul.mp h
  rw [← List.append_assoc]
  exact Language.mem_mul.mpr ⟨dim ++ dims, append_mem_kstar hd hdims, elem, word, rfl⟩

theorem arrayStops_of_digits (all : ∀ c ∈ digits, c.isDigit = true) (ne : digits ≠ [])
    (char : ∀ c ∈ rest.head?, c.isDigit = false ∧ c ≠ 'x') : ArrayStops digits rest :=
  .digits (mem_digitsPattern.mpr ⟨ne, all⟩) char

/-- The inside of an array type ends with its closing bracket, or where it cannot go on. -/
theorem shapedBody_cases (all : ∀ c ∈ digits, c.isDigit = true) :
    (∃ inside, cs = inside ++ '>' :: (shapedBody dims digits cs).2 ∧
      digits ++ inside ∈ dimPattern∗ * wordPattern) ∨
    (shapedBody dims digits cs).1 = none ∧ ∃ front part,
      digits ++ cs = front ++ (part ++ (shapedBody dims digits cs).2) ∧ front ∈ dimPattern∗ ∧
        ArrayStops part (shapedBody dims digits cs).2 := by
  fun_induction shapedBody dims digits cs with
  | case1 dims digits =>
    refine Or.inr ⟨rfl, [], digits, rfl, Language.nil_mem_kstar _, ?_⟩
    by_cases none : digits = []
    · subst none
      exact .front (by simp) (by simp)
    · exact arrayStops_of_digits all none (by simp)
  | case2 dims cs ih =>
    rcases ih all with ⟨inside, eq, mem⟩ | ⟨stuck, front, part, eq, dims, stops⟩
    · have dim : ['?', 'x'] ++ inside ∈ dimPattern∗ * wordPattern := dim_append_mem unknownDim_mem mem
      exact Or.inl ⟨'?' :: 'x' :: inside, by rw [List.cons_append, List.cons_append, ← eq], dim⟩
    · refine Or.inr ⟨stuck, ['?', 'x'] ++ front, part, ?_, append_mem_kstar unknownDim_mem dims, stops⟩
      rw [List.append_assoc, ← eq]
      rfl
  | case3 dims digits cs ne =>
    exact Or.inr ⟨rfl, [], digits, rfl, Language.nil_mem_kstar _,
      arrayStops_of_digits all ne (by simp)⟩
  | case4 dims digits c cs _ digit ih =>
    have all' : ∀ d ∈ digits ++ [c], d.isDigit = true := by
      intro d hd
      rcases List.mem_append.mp hd with hd | hd
      · exact all d hd
      · exact List.mem_singleton.mp hd ▸ digit
    rcases ih all' with ⟨inside, eq, mem⟩ | ⟨stuck, front, part, eq, dims, stops⟩
    · refine Or.inl ⟨c :: inside, by rw [List.cons_append, ← eq], ?_⟩
      rwa [List.append_assoc] at mem
    · exact Or.inr ⟨stuck, front, part, by simpa using eq, dims, stops⟩
  | case5 dims c cs _ _ start rest closed =>
    refine Or.inl ⟨c :: cs.takeWhile isWordChar, ?_, ?_⟩
    · rw [List.cons_append, ← closed, List.takeWhile_append_dropWhile]
    · have word : c :: cs.takeWhile isWordChar ∈ wordPattern :=
        mem_wordPattern.mpr ⟨c, cs.takeWhile isWordChar, String.toList_ofList, start,
          fun d hd => List.mem_takeWhile_imp hd⟩
      exact Language.mem_mul.mpr ⟨[], Language.nil_mem_kstar _, _, word, rfl⟩
  | case6 dims c cs _ _ start unclosed =>
    have word : c :: cs.takeWhile isWordChar ∈ wordPattern :=
      mem_wordPattern.mpr ⟨c, cs.takeWhile isWordChar, String.toList_ofList, start,
        fun d hd => List.mem_takeWhile_imp hd⟩
    refine Or.inr ⟨rfl, [], c :: cs.takeWhile isWordChar, ?_, Language.nil_mem_kstar _,
      .elem word fun d hd => ⟨?_, ?_⟩⟩
    · simp
    · have stop := List.head?_dropWhile_not isWordChar cs
      rw [Option.mem_def.mp hd] at stop
      simpa using stop
    · rintro rfl
      obtain ⟨rest, closed⟩ := List.head?_eq_some_iff.mp (Option.mem_def.mp hd)
      exact unclosed rest closed
  | case7 dims c cs unknown digit start =>
    refine Or.inr ⟨rfl, [], [], rfl, Language.nil_mem_kstar _, .front (by simp_all) ?_⟩
    rintro ⟨rest, split⟩
    obtain ⟨rfl, rfl⟩ := List.cons.inj split
    exact unknown rest rfl rfl
  | case8 dims digits cs ne _ _ ih =>
    rcases ih (by simp) with ⟨inside, eq, mem⟩ | ⟨stuck, front, part, eq, more, stops⟩
    · refine Or.inl ⟨'x' :: inside, by rw [List.cons_append, ← eq], ?_⟩
      have dim := dim_append_mem (knownDim_mem ne all) mem
      rwa [List.append_assoc] at dim
    · refine Or.inr ⟨stuck, digits ++ ['x'] ++ front, part, ?_,
        append_mem_kstar (knownDim_mem ne all) more, stops⟩
      rw [List.append_assoc, ← eq]
      simp
  | case9 dims digits c cs _ digit ne other =>
    exact Or.inr ⟨rfl, [], digits, rfl, Language.nil_mem_kstar _,
      arrayStops_of_digits all ne (by simp_all)⟩

/-- An array type goes on up to its first closing bracket. -/
theorem bracket_notMem (h : inside ∈ dimPattern∗ * wordPattern) : '>' ∉ inside := by
  obtain ⟨dims, hdims, elem, word, rfl⟩ := Language.mem_mul.mp h
  obtain ⟨units, rfl, each⟩ := Language.mem_kstar.mp hdims
  intro bracket
  rcases List.mem_append.mp bracket with bracket | bracket
  · obtain ⟨unit, hu, bracket⟩ := List.mem_flatten.mp bracket
    rcases each unit hu with ⟨number, digits, _, rfl, rfl⟩ | rfl
    · rcases List.mem_append.mp bracket with bracket | bracket
      · exact absurd ((mem_digitsPattern.mp digits).2 '>' bracket) (by decide)
      · exact absurd bracket (by decide)
    · exact absurd bracket (by decide)
  · exact absurd ((mem_wordPattern.mp word).all '>' bracket) (by decide)

end Types

section Matches

variable {cs : List Char} {c : Char} {t : Token}

theorem cutInt_matches {negative : Bool} (ne : cs.takeWhile Char.isDigit ≠ [])
    (h : (cutInt negative cs).piece = .token t) : ∃ text,
      cs = text ++ (cutInt negative cs).rest ∧ text ∈ t.pattern ∧ '-' :: text ∈ t.pattern := by
  have digits : cs.takeWhile Char.isDigit ∈ digitsPattern :=
    mem_digitsPattern.mpr ⟨ne, fun d hd => List.mem_takeWhile_imp hd⟩
  obtain ⟨v, piece⟩ : ∃ v, (cutInt negative cs).piece =
      if fitsInt v then .token (.int v) else .bad := ⟨_, rfl⟩
  rw [piece] at h
  split at h
  case isFalse => cases h
  cases h
  refine ⟨cs.takeWhile Char.isDigit, List.takeWhile_append_dropWhile.symm, ?_, ?_⟩
  · exact Language.mem_mul.mpr ⟨[], Or.inl rfl, _, digits, rfl⟩
  · exact Language.mem_mul.mpr ⟨['-'], Or.inr rfl, _, digits, rfl⟩

theorem cutString_matches (h : (cutString cs).piece = .token t) : ∃ text,
    '"' :: cs = text ++ (cutString cs).rest ∧ text ∈ t.pattern := by
  unfold cutString at h ⊢
  cases body : (stringBody cs).1 with
  | none => simp [body] at h
  | some inside =>
    simp only [body, Option.bind_some] at h
    split at h
    next content _ =>
      cases h
      refine ⟨'"' :: inside ++ ['"'], ?_, ?_⟩
      · simp only [List.cons_append, List.append_assoc, List.nil_append, ← stringBody_text body]
      · have opened : ['"'] ++ inside ∈ exactly "\"" * quotedPattern∗ :=
          Language.mem_mul.mpr ⟨['"'], rfl, inside, mem_of_stringBody body, rfl⟩
        exact Language.mem_mul.mpr ⟨_, opened, ['"'], rfl, rfl⟩
    next => cases h

theorem Container.text_mem (container : Container) :
    container.text.toList ∈ exactly "memref" + exactly "tensor" := by
  cases container with
  | memref => exact Or.inl rfl
  | tensor => exact Or.inr rfl

theorem cutShaped_matches {container : Container} (h : (cutShaped container cs).piece = .token t) :
    ∃ inside, cs = inside ++ '>' :: (cutShaped container cs).rest ∧
      inside ∈ dimPattern∗ * wordPattern ∧
      container.text.toList ++ '<' :: (inside ++ ['>']) ∈ t.pattern := by
  unfold cutShaped at h ⊢
  cases body : (shapedBody (some []) [] cs).1 with
  | none => simp [body] at h
  | some found =>
    simp only [body, Piece.token.injEq] at h
    obtain ⟨inside, eq, mem⟩ :=
      (@shapedBody_cases cs [] (some []) (by simp)).resolve_right (by simp [body])
    rw [List.nil_append] at mem
    refine ⟨inside, eq, mem, ?_⟩
    subst h
    have name := container.text_mem
    have opened : container.text.toList ++ ['<'] ∈
        (exactly "memref" + exactly "tensor") * exactly "<" :=
      Language.mem_mul.mpr ⟨_, name, ['<'], rfl, rfl⟩
    have filled : container.text.toList ++ ['<'] ++ inside ∈
        (exactly "memref" + exactly "tensor") * exactly "<" * (dimPattern∗ * wordPattern) :=
      Language.mem_mul.mpr ⟨_, opened, inside, mem, rfl⟩
    refine Language.mem_mul.mpr ⟨_, filled, ['>'], rfl, ?_⟩
    simp only [List.append_assoc, List.cons_append, List.nil_append]

theorem wordToken_matches {word : List Char} (h : word ∈ wordPattern) :
    word ∈ (wordToken (String.ofList word)).pattern := by
  unfold wordToken
  split
  next k named =>
    have text : k.text = String.ofList word := by
      have found := List.find?_some named
      simpa using found
    exact mem_exactly.mpr (by rw [text, String.toList_ofList])
  next => exact h

theorem cutWord_matches (start : isWordStart c = true)
    (h : (cutWord (c :: cs)).piece = .token t) : ∃ text,
      c :: cs = text ++ (cutWord (c :: cs)).rest ∧ text ∈ t.pattern := by
  have whole := @List.takeWhile_append_dropWhile _ isWordChar (c :: cs)
  unfold cutWord at h ⊢
  split at h
  next container rest named opened =>
    obtain ⟨inside, eq, -, mem⟩ := cutShaped_matches h
    refine ⟨container.text.toList ++ '<' :: (inside ++ ['>']), ?_, mem⟩
    rw [← whole, opened, ofText?_text named, wordAt, String.toList_ofList]
    simp only [List.append_assoc, List.cons_append, List.nil_append, ← eq]
  next =>
    cases h
    have word : (c :: cs).takeWhile isWordChar ∈ wordPattern :=
      mem_wordPattern.mpr (isWord_wordAt start)
    exact ⟨_, whole.symm, wordToken_matches word⟩

theorem cutValue_matches (h : (cutValue cs).piece = .token t) : ∃ text,
    '%' :: cs = text ++ (cutValue cs).rest ∧ text ∈ t.pattern := by
  unfold cutValue at h ⊢
  split at h
  next some =>
    cases h
    obtain ⟨d, head, word⟩ := (Option.any_eq_true _ _).mp some
    have name : cs.takeWhile isWordChar ∈ oneOf isWordChar * (oneOf isWordChar)∗ := by
      refine mem_some.mpr ⟨fun empty => ?_, fun e he => List.mem_takeWhile_imp he⟩
      obtain ⟨rest, rfl⟩ := List.head?_eq_some_iff.mp head
      simp [word] at empty
    refine ⟨'%' :: cs.takeWhile isWordChar, ?_, Language.mem_mul.mpr ⟨['%'], rfl, _, name, rfl⟩⟩
    rw [if_pos some, List.cons_append, List.takeWhile_append_dropWhile]
  next => cases h

theorem cutSymbol_matches (h : (cutSymbol cs).piece = .token t) : ∃ text,
    '@' :: cs = text ++ (cutSymbol cs).rest ∧ text ∈ t.pattern := by
  unfold cutSymbol at h ⊢
  split at h
  next some =>
    cases h
    obtain ⟨d, head, start⟩ := (Option.any_eq_true _ _).mp some
    have name : cs.takeWhile isWordChar ∈ wordPattern := by
      obtain ⟨rest, rfl⟩ := List.head?_eq_some_iff.mp head
      exact mem_wordPattern.mpr (isWord_wordAt start)
    refine ⟨'@' :: cs.takeWhile isWordChar, ?_, Language.mem_mul.mpr ⟨['@'], rfl, _, name, rfl⟩⟩
    rw [if_pos some, List.cons_append, List.takeWhile_append_dropWhile]
  next => cases h

end Matches

section Leads

variable {c : Char}

theorem Lead.ofChar_newline (h : Lead.ofChar c = .newline) : c = '\n' := by
  unfold Lead.ofChar at h
  grind

theorem Lead.ofChar_minus (h : Lead.ofChar c = .minus) : c = '-' := by
  unfold Lead.ofChar at h
  grind

theorem Lead.ofChar_comment (h : Lead.ofChar c = .comment) : c = '#' := by
  unfold Lead.ofChar at h
  grind

theorem Lead.ofChar_blank (h : Lead.ofChar c = .blank) : c = ' ' ∨ c = '\t' ∨ c = '\r' := by
  unfold Lead.ofChar at h
  grind

theorem Lead.ofChar_mark {m : Mark} (h : Lead.ofChar c = .mark m) : c = m.char := by
  have named : Mark.ofChar? c = some m := by
    unfold Lead.ofChar at h
    grind
  have found := List.find?_some named
  exact (of_decide_eq_true found).symm

end Leads

section Longest

variable {c : Char} {cs u rest : List Char} {t : Token}

/-- The text of a token is one of those that its pattern describes. -/
theorem cut_matches (h : (cut c cs).piece = .token t) :
    ∃ text, c :: cs = text ++ (cut c cs).rest ∧ text ∈ t.pattern := by
  cases lead : Lead.ofChar c with
  | blank => simp [cut, lead] at h
  | comment => simp [cut, lead] at h
  | newline =>
    obtain rfl := Lead.ofChar_newline lead
    simp only [cut, lead, Piece.token.injEq] at h ⊢
    subst h
    refine ⟨'\n' :: cs.takeWhile (· = '\n'), ?_, mem_some.mpr ⟨by simp, fun d hd => ?_⟩⟩
    · rw [List.cons_append, List.takeWhile_append_dropWhile]
    · rcases List.mem_cons.mp hd with rfl | hd
      · rfl
      · simpa using List.mem_takeWhile_imp hd
  | quote =>
    obtain rfl := Lead.ofChar_quote lead
    simp only [cut, lead] at h ⊢
    exact cutString_matches h
  | percent =>
    obtain rfl := Lead.ofChar_percent lead
    simp only [cut, lead] at h ⊢
    exact cutValue_matches h
  | «at» =>
    obtain rfl := Lead.ofChar_at lead
    simp only [cut, lead] at h ⊢
    exact cutSymbol_matches h
  | minus =>
    obtain rfl := Lead.ofChar_minus lead
    simp only [cut, lead] at h ⊢
    split at h
    next some =>
      rw [if_pos some]
      obtain ⟨d, head, digit⟩ := (Option.any_eq_true _ _).mp some
      obtain ⟨more, rfl⟩ := List.head?_eq_some_iff.mp head
      obtain ⟨text, eq, -, mem⟩ := cutInt_matches (by simp [digit]) h
      exact ⟨'-' :: text, by rw [List.cons_append, ← eq], mem⟩
    next => cases h
  | digit =>
    have digit := Lead.ofChar_digit lead
    simp only [cut, lead] at h ⊢
    obtain ⟨text, eq, mem, -⟩ := cutInt_matches (by simp [digit]) h
    exact ⟨text, eq, mem⟩
  | letter =>
    simp only [cut, lead] at h ⊢
    exact cutWord_matches (Lead.ofChar_letter lead) h
  | mark m =>
    obtain rfl := Lead.ofChar_mark lead
    simp only [cut, lead, Piece.token.injEq] at h ⊢
    subst h
    exact ⟨[m.char], rfl, mem_exactly.mpr (by cases m <;> rfl)⟩
  | other => simp [cut, lead] at h

theorem dropWhile_suffix_of_run {p : Char → Bool} (all : ∀ d ∈ u, p d = true) :
    (u ++ rest).dropWhile p <:+ rest := by
  rw [List.dropWhile_append_of_pos all]
  exact List.dropWhile_suffix p

theorem cutWord_suffix_dropWhile (cs : List Char) :
    (cutWord cs).rest <:+ cs.dropWhile isWordChar := by
  unfold cutWord
  split
  next container rest _ opened =>
    rw [opened]
    exact (shapedBody_suffix _ _ rest).trans (List.suffix_cons _ _)
  next => exact List.suffix_refl _

theorem cut_of_word (hu : u ∈ wordPattern) (split : c :: cs = u ++ rest) :
    cut c cs = cutWord (c :: cs) := by
  obtain ⟨d, more, first, start, -⟩ := mem_wordPattern.mp hu
  rw [String.toList_ofList] at first
  rw [first, List.cons_append] at split
  have same : c = d := (List.cons.inj split).1
  simp only [cut, same, Lead.ofChar_of_isWordStart start]

/-- No word is longer than what is cut off for a letter. -/
theorem cut_suffix_of_word (hu : u ∈ wordPattern) (split : c :: cs = u ++ rest) :
    (cut c cs).rest <:+ rest := by
  rw [cut_of_word hu split]
  refine (cutWord_suffix_dropWhile (c :: cs)).trans ?_
  rw [split]
  exact dropWhile_suffix_of_run (mem_wordPattern.mp hu).all

theorem Keyword.text_mem (k : Keyword) : k.text.toList ∈ wordPattern := by
  refine mem_wordPattern.mpr ?_
  rw [String.ofList_toList]
  exact keyword_isWord k

/-- Only one bracket closes an array type. -/
theorem eq_of_bracket {x y r s : List Char} (hx : '>' ∉ x) (hy : '>' ∉ y)
    (h : x ++ '>' :: r = y ++ '>' :: s) : r = s := by
  have other : ∀ {z : List Char}, '>' ∉ z → ∀ d ∈ z, (d != '>') = true := by
    intro z hz d hd
    have ne : d ≠ '>' := fun same => hz (same ▸ hd)
    simpa using ne
  have closed : ∀ {z t : List Char}, '>' ∉ z →
      (z ++ '>' :: t).dropWhile (· != '>') = ('>' :: t).dropWhile (· != '>') :=
    fun hz => List.dropWhile_append_of_pos (other hz)
  have left := closed (z := x) (t := r) hx
  have right := closed (z := y) (t := s) hy
  rw [h, right] at left
  exact (List.cons.inj left).2.symm

theorem shaped_pattern_cases {shape : Shaped} (h : u ∈ (Token.shaped shape).pattern) :
    ∃ (container : Container) (inside : List Char), inside ∈ dimPattern∗ * wordPattern ∧
      u = container.text.toList ++ '<' :: (inside ++ ['>']) := by
  obtain ⟨_, filled, _, rfl, rfl⟩ := Language.mem_mul.mp h
  obtain ⟨_, opened, inside, mem, rfl⟩ := Language.mem_mul.mp filled
  obtain ⟨name, named, _, rfl, rfl⟩ := Language.mem_mul.mp opened
  rcases named with rfl | rfl
  · exact ⟨.memref, inside, mem, by simp [Container.text]⟩
  · exact ⟨.tensor, inside, mem, by simp [Container.text]⟩

theorem cut_suffix_of_shaped {shape : Shaped} (h : (cut c cs).piece = .token t)
    (hu : u ∈ (Token.shaped shape).pattern) (split : c :: cs = u ++ rest) :
    (cut c cs).rest <:+ rest := by
  obtain ⟨container, inside, mem, rfl⟩ := shaped_pattern_cases hu
  have split : c :: cs = container.text.toList ++ '<' :: (inside ++ '>' :: rest) := by
    rw [split]
    simp
  obtain ⟨d, more, first, read⟩ := cut_opened container (inside ++ '>' :: rest)
  obtain ⟨rfl, rfl⟩ := List.cons.inj (split.trans first)
  rw [read] at h ⊢
  obtain ⟨found, eq, mem', -⟩ := cutShaped_matches h
  have same := eq_of_bracket (bracket_notMem mem) (bracket_notMem mem') eq
  rw [← same]

theorem cut_suffix_of_int {v : Int} (hu : u ∈ (Token.int v).pattern)
    (split : c :: cs = u ++ rest) : (cut c cs).rest <:+ rest := by
  obtain ⟨sign, signed, digits, run, rfl⟩ := Language.mem_mul.mp hu
  obtain ⟨ne, all⟩ := mem_digitsPattern.mp run
  obtain ⟨d, more, rfl⟩ := List.exists_cons_of_ne_nil ne
  have digit : d.isDigit = true := all d List.mem_cons_self
  rcases signed with rfl | rfl
  · have same : c = d := (List.cons.inj split).1
    have cutted : cut c cs = cutInt false (c :: cs) := by
      simp only [cut, same, Lead.ofChar_of_isDigit digit]
    rw [cutted, split]
    exact dropWhile_suffix_of_run all
  · have same : c = '-' := (List.cons.inj split).1
    have behind : cs = d :: more ++ rest := (List.cons.inj split).2
    have minus : Lead.ofChar '-' = .minus := rfl
    have cutted : cut c cs = cutInt true cs := by
      simp [cut, same, minus, behind, digit]
    rw [cutted, behind]
    exact dropWhile_suffix_of_run all

theorem cut_suffix_of_string {content : String} (hu : u ∈ (Token.string content).pattern)
    (split : c :: cs = u ++ rest) : (cut c cs).rest <:+ rest := by
  obtain ⟨_, opened, _, rfl, rfl⟩ := Language.mem_mul.mp hu
  obtain ⟨_, rfl, inside, mem, rfl⟩ := Language.mem_mul.mp opened
  have same : c = '"' := (List.cons.inj split).1
  have behind : cs = inside ++ '"' :: rest := by
    have tail := (List.cons.inj split).2
    rw [tail]
    simp
  have quote : Lead.ofChar '"' = .quote := rfl
  have cutted : cut c cs = cutString cs := by simp only [cut, same, quote]
  rw [cutted, behind, cutString, stringBody_of_mem mem]

theorem cut_suffix_of_value {name : String} (hu : u ∈ (Token.value name).pattern)
    (split : c :: cs = u ++ rest) : (cut c cs).rest <:+ rest := by
  obtain ⟨_, rfl, word, mem, rfl⟩ := Language.mem_mul.mp hu
  obtain ⟨ne, all⟩ := mem_some.mp mem
  obtain ⟨d, more, rfl⟩ := List.exists_cons_of_ne_nil ne
  have same : c = '%' := (List.cons.inj split).1
  have behind : cs = d :: more ++ rest := (List.cons.inj split).2
  have percent : Lead.ofChar '%' = .percent := rfl
  have start := all d List.mem_cons_self
  have cutted : (cut c cs).rest = cs.dropWhile isWordChar := by
    simp [cut, same, percent, cutValue, behind, start]
  rw [cutted, behind]
  exact dropWhile_suffix_of_run all

theorem cut_suffix_of_symbol {name : String} (hu : u ∈ (Token.symbol name).pattern)
    (split : c :: cs = u ++ rest) : (cut c cs).rest <:+ rest := by
  obtain ⟨_, rfl, word, mem, rfl⟩ := Language.mem_mul.mp hu
  have all := (mem_wordPattern.mp mem).all
  obtain ⟨d, more, first, start, -⟩ := mem_wordPattern.mp mem
  rw [String.toList_ofList] at first
  have same : c = '@' := (List.cons.inj split).1
  have behind : cs = word ++ rest := (List.cons.inj split).2
  have sign : Lead.ofChar '@' = .at := rfl
  have cutted : (cut c cs).rest = cs.dropWhile isWordChar := by
    simp only [cut, same, sign, cutSymbol]
    rw [if_pos (by simp [behind, first, start])]
  rw [cutted, behind]
  exact dropWhile_suffix_of_run all

theorem cut_suffix_of_newline (hu : u ∈ Token.newline.pattern) (split : c :: cs = u ++ rest) :
    (cut c cs).rest <:+ rest := by
  obtain ⟨ne, all⟩ := mem_some.mp hu
  obtain ⟨d, more, rfl⟩ := List.exists_cons_of_ne_nil ne
  have lines : ∀ e ∈ more, decide (e = '\n') = true := fun e he => by
    simpa using all e (List.mem_cons_of_mem d he)
  have line : d = '\n' := by simpa using all d List.mem_cons_self
  have same : c = '\n' := (List.cons.inj split).1.trans line
  have behind : cs = more ++ rest := (List.cons.inj split).2
  have lead : Lead.ofChar '\n' = .newline := rfl
  have cutted : (cut c cs).rest = cs.dropWhile (· = '\n') := by simp only [cut, same, lead]
  rw [cutted, behind]
  exact dropWhile_suffix_of_run lines

/-- No pattern describes a longer text at the place where a token starts. -/
theorem cut_longest (h : (cut c cs).piece = .token t) {other : Token} (hu : u ∈ other.pattern)
    (split : c :: cs = u ++ rest) : (cut c cs).rest <:+ rest := by
  cases other with
  | keyword k =>
    obtain rfl := mem_exactly.mp hu
    exact cut_suffix_of_word k.text_mem split
  | mark m =>
    obtain rfl := mem_exactly.mp hu
    have one : m.char.toString.toList = [m.char] := by cases m <;> rfl
    rw [one] at split
    exact (List.cons.inj split).2 ▸ cut_suffix c cs
  | shaped shape => exact cut_suffix_of_shaped h hu split
  | int v => exact cut_suffix_of_int hu split
  | string content => exact cut_suffix_of_string hu split
  | value name => exact cut_suffix_of_value hu split
  | symbol name => exact cut_suffix_of_symbol hu split
  | ident name => exact cut_suffix_of_word hu split
  | newline => exact cut_suffix_of_newline hu split

end Longest

end Staging
