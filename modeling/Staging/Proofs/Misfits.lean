import Staging.Proofs.Shaping

namespace Staging

open Computability

/-- A stretch of a source text that is no token: why it is none, and how far it reaches. -/
inductive Misfit : (text behind : List Char) → Prop
  /-- A character that no token starts with, or a sign without what it is the sign of. -/
  | character {c : Char} {behind : List Char}
      (none : ∀ (t : Token) (u rest : List Char), u ∈ t.pattern → c :: behind ≠ u ++ rest) :
      Misfit [c] behind
  /-- An integer that is out of range, with all its digits. -/
  | integer {negative : Bool} {digits behind : List Char} (run : digits ∈ digitsPattern)
      (whole : ∀ c ∈ behind.head?, c.isDigit = false)
      (wide : fitsInt (if negative then -decimalValue digits else decimalValue digits) = false) :
      Misfit ((if negative then ['-'] else []) ++ digits) behind
  /-- An array type with a dimension that is too wide. -/
  | dimension {container : Container} {front digits inside behind : List Char}
      (dims : front ∈ dimPattern∗) (run : digits ∈ digitsPattern)
      (wide : fitsDim (decimalValue digits) = false) (more : inside ∈ dimPattern∗ * wordPattern) :
      Misfit (container.text.toList ++ '<' :: (front ++ (digits ++ 'x' :: inside) ++ ['>'])) behind
  /-- The start of an array type, as far as one can go. -/
  | array {container : Container} {front part behind : List Char} (dims : front ∈ dimPattern∗)
      (stops : ArrayStops part behind) :
      Misfit (container.text.toList ++ '<' :: (front ++ part)) behind
  /-- A string in which something else than a quote or a backslash is escaped. -/
  | escape {front inside behind : List Char} {c : Char} (before : front ∈ quotedPattern∗)
      (quote : c ≠ '"') (slash : c ≠ '\\') (line : c ≠ '\n') (after : inside ∈ quotedPattern∗) :
      Misfit ('"' :: (front ++ '\\' :: c :: inside) ++ ['"']) behind
  /-- The start of a string that is not closed, up to the end of the source or to a backslash that
  escapes nothing. -/
  | string {inside behind : List Char} (before : inside ∈ quotedPattern∗)
      (stops : behind = [] ∨ behind = ['\\'] ∨ ∃ more, behind = '\\' :: '\n' :: more) :
      Misfit ('"' :: inside) behind

/-- Whether a token may start with this, and go on with some text. -/
def Lead.Begins (cs : List Char) : Lead → Prop
  | .newline | .quote | .digit | .letter | .mark _ => True
  | .percent => cs.head?.any isWordChar = true
  | .at => cs.head?.any isWordStart = true
  | .minus => cs.head?.any Char.isDigit = true
  | .blank | .comment | .other => False

section Starts

variable {c : Char} {cs u rest : List Char} {t : Token}

theorem Lead.begins_of_word (hu : u ∈ wordPattern) (split : c :: cs = u ++ rest) :
    (Lead.ofChar c).Begins cs := by
  obtain ⟨d, more, first, start, -⟩ := mem_wordPattern.mp hu
  rw [String.toList_ofList] at first
  rw [first, List.cons_append] at split
  rw [(List.cons.inj split).1, Lead.ofChar_of_isWordStart start]
  trivial

/-- Where a token starts, its first character announces it. -/
theorem Lead.begins_of_pattern (hu : u ∈ t.pattern) (split : c :: cs = u ++ rest) :
    (Lead.ofChar c).Begins cs := by
  cases t with
  | keyword k =>
    obtain rfl := mem_exactly.mp hu
    exact begins_of_word k.text_mem split
  | mark m =>
    obtain rfl := mem_exactly.mp hu
    have one : m.char.toString.toList = [m.char] := by cases m <;> rfl
    have lead : Lead.ofChar m.char = .mark m := by cases m <;> rfl
    rw [one] at split
    rw [(List.cons.inj split).1, lead]
    trivial
  | shaped shape =>
    obtain ⟨container, inside, -, rfl⟩ := shaped_pattern_cases hu
    cases container <;> obtain ⟨rfl, -⟩ := List.cons.inj split <;> trivial
  | int v =>
    obtain ⟨sign, signed, digits, run, rfl⟩ := Language.mem_mul.mp hu
    obtain ⟨ne, all⟩ := mem_digitsPattern.mp run
    obtain ⟨d, more, rfl⟩ := List.exists_cons_of_ne_nil ne
    have digit : d.isDigit = true := all d List.mem_cons_self
    rcases signed with rfl | rfl
    · rw [show c = d from (List.cons.inj split).1, Lead.ofChar_of_isDigit digit]
      trivial
    · obtain ⟨rfl, rfl⟩ := List.cons.inj split
      change (List.head? (d :: more ++ rest)).any Char.isDigit = true
      simpa using digit
  | string content =>
    obtain ⟨_, opened, _, rfl, rfl⟩ := Language.mem_mul.mp hu
    obtain ⟨_, rfl, inside, -, rfl⟩ := Language.mem_mul.mp opened
    rw [show c = '"' from (List.cons.inj split).1]
    trivial
  | value name =>
    obtain ⟨_, rfl, word, mem, rfl⟩ := Language.mem_mul.mp hu
    obtain ⟨ne, all⟩ := mem_some.mp mem
    obtain ⟨d, more, rfl⟩ := List.exists_cons_of_ne_nil ne
    obtain ⟨rfl, rfl⟩ := List.cons.inj split
    change (List.head? (d :: more ++ rest)).any isWordChar = true
    simpa using all d List.mem_cons_self
  | symbol name =>
    obtain ⟨_, rfl, word, mem, rfl⟩ := Language.mem_mul.mp hu
    obtain ⟨d, more, first, start, -⟩ := mem_wordPattern.mp mem
    rw [String.toList_ofList] at first
    subst first
    obtain ⟨rfl, rfl⟩ := List.cons.inj split
    change (List.head? (d :: more ++ rest)).any isWordStart = true
    simpa using start
  | ident name => exact begins_of_word hu split
  | newline =>
    obtain ⟨ne, all⟩ := mem_some.mp hu
    obtain ⟨d, more, rfl⟩ := List.exists_cons_of_ne_nil ne
    have line : d = '\n' := by simpa using all d List.mem_cons_self
    rw [(List.cons.inj split).1, line]
    trivial

theorem Misfit.of_lead (h : ¬ (Lead.ofChar c).Begins cs) : Misfit [c] cs :=
  .character fun _ _ _ hu split => h (Lead.begins_of_pattern hu split)

end Starts

section Strings

variable {cs inside : List Char}

/-- A string that is not closed ends with the source, or in front of a backslash that escapes
nothing. -/
theorem stringBody_stops (h : (stringBody cs).1 = none) : ∃ inside ∈ quotedPattern∗,
    cs = inside ++ (stringBody cs).2 ∧ ((stringBody cs).2 = [] ∨ (stringBody cs).2 = ['\\'] ∨
      ∃ more, (stringBody cs).2 = '\\' :: '\n' :: more) := by
  have here : [] ∈ quotedPattern∗ := Language.nil_mem_kstar _
  fun_induction stringBody cs with
  | case1 => exact ⟨[], here, rfl, Or.inl rfl⟩
  | case2 => cases h
  | case3 => exact ⟨[], here, rfl, Or.inr (Or.inl rfl)⟩
  | case4 cs => exact ⟨[], here, rfl, Or.inr (Or.inr ⟨cs, rfl⟩)⟩
  | case5 c cs escapes ih =>
    obtain ⟨inside, mem, eq, stops⟩ := ih (Option.map_eq_none_iff.mp h)
    exact ⟨['\\', c] ++ inside, append_mem_kstar (escape_mem escapes) mem,
      by rw [List.append_assoc, ← eq]; rfl, stops⟩
  | case6 c cs quote last escape ih =>
    obtain ⟨inside, mem, eq, stops⟩ := ih (Option.map_eq_none_iff.mp h)
    have slash : c ≠ '\\' := by
      intro same
      cases cs with
      | nil => exact last same rfl
      | cons d cs => exact escape d cs same rfl
    exact ⟨[c] ++ inside, append_mem_kstar (plain_mem quote slash) mem,
      by rw [List.append_assoc, ← eq]; rfl, stops⟩

/-- What is inside quotes can be read unless something else than a quote or a backslash is escaped
in it. -/
theorem exists_of_unescape (mem : inside ∈ quotedPattern∗) (h : unescape inside = none) :
    ∃ front c after, inside = front ++ '\\' :: c :: after ∧ front ∈ quotedPattern∗ ∧
      (c ≠ '"' ∧ c ≠ '\\' ∧ c ≠ '\n') ∧ after ∈ quotedPattern∗ := by
  obtain ⟨units, rfl, each⟩ := Language.mem_kstar.mp mem
  clear mem
  induction units with
  | nil => cases h
  | cons unit units ih =>
    have later := fun u hu => each u (List.mem_cons_of_mem unit hu)
    have go : unescape units.flatten = none → ∃ front c after, (unit :: units).flatten =
        front ++ '\\' :: c :: after ∧ front ∈ quotedPattern∗ ∧
        (c ≠ '"' ∧ c ≠ '\\' ∧ c ≠ '\n') ∧ after ∈ quotedPattern∗ := by
      intro none
      obtain ⟨front, c, after, eq, mem, escaped, rest⟩ := ih later none
      exact ⟨unit ++ front, c, after, by rw [List.flatten_cons, eq, List.append_assoc],
        append_mem_kstar (each unit List.mem_cons_self) mem, escaped, rest⟩
    rcases each unit List.mem_cons_self with ⟨c, plain, rfl⟩ | ⟨_, rfl, _, ⟨c, escapes, rfl⟩, rfl⟩
    · simp only [bne_iff_ne, ne_eq, Bool.and_eq_true] at plain
      exact go (by simpa [unescape, plain.2] using h)
    · by_cases quote : c = '"'
      · subst quote
        exact go (by simpa [unescape] using h)
      by_cases slash : c = '\\'
      · subst slash
        exact go (by simpa [unescape] using h)
      · exact ⟨[], c, units.flatten, rfl, Language.nil_mem_kstar _,
          ⟨quote, slash, by simpa using escapes⟩, Language.mem_kstar.mpr ⟨units, rfl, later⟩⟩

theorem cutString_misfit {text : List Char} (h : (cutString cs).piece = .bad)
    (split : '"' :: cs = text ++ (cutString cs).rest) : Misfit text (cutString cs).rest := by
  have left : (cutString cs).rest = (stringBody cs).2 := rfl
  rw [left] at split ⊢
  cases body : (stringBody cs).1 with
  | none =>
    obtain ⟨inside, mem, eq, stops⟩ := stringBody_stops body
    have whole : '"' :: cs = '"' :: inside ++ (stringBody cs).2 := congrArg ('"' :: ·) eq
    rw [← List.append_cancel_right (whole.symm.trans split)]
    exact .string mem stops
  | some inside =>
    have unread : unescape inside = none := by
      cases read : unescape inside with
      | none => rfl
      | some content => simp [cutString, body, read] at h
    have eq := stringBody_text body
    obtain ⟨front, c, after, rfl, before, ⟨quote, slash, line⟩, rest⟩ :=
      exists_of_unescape (mem_of_stringBody body) unread
    have whole : '"' :: cs = '"' :: (front ++ '\\' :: c :: after) ++ ['"'] ++ (stringBody cs).2 := by
      refine (congrArg ('"' :: ·) eq).trans ?_
      simp
    rw [← List.append_cancel_right (whole.symm.trans split)]
    exact .escape before quote slash line rest

end Strings

section Types

variable {inside rest text : List Char} {container : Container}

theorem mem_of_inside (h : Inside inside) : inside ∈ dimPattern∗ * wordPattern := by
  induction h with
  | elem word => exact Language.mem_mul.mpr ⟨[], Language.nil_mem_kstar _, _, word, rfl⟩
  | @dim part inside dim _ ih =>
    have unit : part ++ ['x'] ∈ dimPattern := by
      rcases isDimPart_cases dim with rfl | ⟨ne, digits⟩
      · exact unknownDim_mem
      · exact knownDim_mem ne digits
    simpa using dim_append_mem unit ih

/-- The inside of an array type can be read unless one of its dimensions is too wide. -/
theorem exists_of_readInside (h : Inside inside) (unread : readInside inside = none) :
    ∃ front digits more, inside = front ++ (digits ++ 'x' :: more) ∧ front ∈ dimPattern∗ ∧
      digits ∈ digitsPattern ∧ fitsDim (decimalValue digits) = false ∧
      more ∈ dimPattern∗ * wordPattern := by
  induction h with
  | elem word =>
    rw [readInside_elem word] at unread
    cases unread
  | @dim part inside dim later ih =>
    rw [readInside_dim dim] at unread
    rcases isDimPart_cases dim with rfl | ⟨ne, digits⟩
    · have none : readInside inside = none := by simpa [readPart] using unread
      obtain ⟨front, digits, more, rfl, mem, found⟩ := ih none
      exact ⟨['?', 'x'] ++ front, digits, more, by simp, append_mem_kstar unknownDim_mem mem, found⟩
    · have known : part ≠ ['?'] := by
        rintro rfl
        exact absurd (digits '?' (by simp)) (by decide)
      by_cases fits : fitsDim (decimalValue part) = true
      · have none : readInside inside = none := by
          simpa [readPart, known, readDim, fits] using unread
        obtain ⟨front, digits', more, rfl, mem, found⟩ := ih none
        exact ⟨part ++ ['x'] ++ front, digits', more, by simp,
          append_mem_kstar (knownDim_mem ne digits) mem, found⟩
      · exact ⟨[], part, inside, rfl, Language.nil_mem_kstar _, mem_digitsPattern.mpr ⟨ne, digits⟩,
          by simpa using fits, mem_of_inside later⟩

theorem cutShaped_misfit (h : (cutShaped container rest).piece = .bad)
    (split : container.text.toList ++ '<' :: rest = text ++ (cutShaped container rest).rest) :
    Misfit text (cutShaped container rest).rest := by
  have left : (cutShaped container rest).rest = (shapedBody (some []) [] rest).2 := rfl
  rw [left] at split ⊢
  have unread : (shapedBody (some []) [] rest).1 = none := by
    cases read : (shapedBody (some []) [] rest).1 with
    | none => rfl
    | some found => simp [cutShaped, read] at h
  rcases @shapedBody_cases rest [] (some []) (by simp) with
    ⟨inside, eq, mem⟩ | ⟨-, front, part, eq, dims, stops⟩
  · have read := @shapedBody_inside inside (shapedBody (some []) [] rest).2 (some []) (inside_of_mem mem)
    rw [← eq] at read
    have none : readInside inside = none := by
      have first := (congrArg Prod.fst read).symm.trans unread
      simpa using first
    obtain ⟨front, digits, more, rfl, dims, run, wide, last⟩ :=
      exists_of_readInside (inside_of_mem mem) none
    have whole : container.text.toList ++ '<' :: rest = container.text.toList ++
        '<' :: (front ++ (digits ++ 'x' :: more) ++ ['>']) ++ (shapedBody (some []) [] rest).2 := by
      refine (congrArg (container.text.toList ++ '<' :: ·) eq).trans ?_
      simp
    rw [← List.append_cancel_right (whole.symm.trans split)]
    exact .dimension dims run wide last
  · have whole : container.text.toList ++ '<' :: rest =
        container.text.toList ++ '<' :: (front ++ part) ++ (shapedBody (some []) [] rest).2 := by
      refine (congrArg (container.text.toList ++ '<' :: ·) eq).trans ?_
      simp
    rw [← List.append_cancel_right (whole.symm.trans split)]
    exact .array dims stops

end Types

section Integers

variable {cs text : List Char}

theorem cutInt_misfit {negative : Bool} (ne : cs.takeWhile Char.isDigit ≠ [])
    (h : (cutInt negative cs).piece = .bad)
    (split : (if negative then ['-'] else []) ++ cs = text ++ (cutInt negative cs).rest) :
    Misfit text (cutInt negative cs).rest := by
  have left : (cutInt negative cs).rest = cs.dropWhile Char.isDigit := rfl
  rw [left] at split ⊢
  have run : cs.takeWhile Char.isDigit ∈ digitsPattern :=
    mem_digitsPattern.mpr ⟨ne, fun d hd => List.mem_takeWhile_imp hd⟩
  have stops : ∀ c ∈ (cs.dropWhile Char.isDigit).head?, c.isDigit = false := by
    intro c hc
    have stop := List.head?_dropWhile_not Char.isDigit cs
    rw [Option.mem_def.mp hc] at stop
    simpa using stop
  have wide : fitsInt (if negative then -decimalValue (cs.takeWhile Char.isDigit)
      else decimalValue (cs.takeWhile Char.isDigit)) = false := by
    by_contra fits
    rw [Bool.not_eq_false] at fits
    simp [cutInt, fits] at h
  have whole : (if negative then ['-'] else []) ++ cs =
      (if negative then ['-'] else []) ++ cs.takeWhile Char.isDigit ++ cs.dropWhile Char.isDigit := by
    rw [List.append_assoc, List.takeWhile_append_dropWhile]
  rw [← List.append_cancel_right (whole.symm.trans split)]
  exact .integer run stops wide

end Integers

/-- What is cut off as bad is no token for one of these reasons. -/
theorem cut_misfit {c : Char} {cs text : List Char} (h : (cut c cs).piece = .bad)
    (split : c :: cs = text ++ (cut c cs).rest) : Misfit text (cut c cs).rest := by
  have single : ∀ {rest : List Char}, c :: cs = text ++ rest → rest = cs → text = [c] := by
    rintro rest split rfl
    exact List.append_cancel_right (split.symm.trans (List.singleton_append).symm)
  cases lead : Lead.ofChar c with
  | blank | comment | newline | mark => simp [cut, lead] at h
  | quote =>
    obtain rfl := Lead.ofChar_quote lead
    simp only [cut, lead] at h split ⊢
    exact cutString_misfit h split
  | percent =>
    simp only [cut, lead, cutValue] at h split ⊢
    split at h
    next => cases h
    next none =>
      rw [if_neg none] at split ⊢
      rw [single split rfl]
      exact .of_lead (by rw [lead]; exact none)
  | «at» =>
    simp only [cut, lead, cutSymbol] at h split ⊢
    split at h
    next => cases h
    next none =>
      rw [if_neg none] at split ⊢
      rw [single split rfl]
      exact .of_lead (by rw [lead]; exact none)
  | minus =>
    obtain rfl := Lead.ofChar_minus lead
    simp only [cut, lead] at h split ⊢
    split at h
    next some =>
      rw [if_pos some] at split ⊢
      obtain ⟨d, head, digit⟩ := (Option.any_eq_true _ _).mp some
      obtain ⟨more, rfl⟩ := List.head?_eq_some_iff.mp head
      exact cutInt_misfit (by simp [digit]) h split
    next none =>
      rw [if_neg none] at split ⊢
      rw [single split rfl]
      exact .of_lead (by rw [lead]; exact none)
  | digit =>
    have digit := Lead.ofChar_digit lead
    simp only [cut, lead] at h split ⊢
    exact cutInt_misfit (by simp [digit]) h split
  | letter =>
    simp only [cut, lead] at h split ⊢
    obtain ⟨container, rest, opened, read⟩ : ∃ container rest,
        c :: cs = container.text.toList ++ '<' :: rest ∧
          cutWord (c :: cs) = cutShaped container rest := by
      have whole := @List.takeWhile_append_dropWhile _ isWordChar (c :: cs)
      unfold cutWord at h ⊢
      split at h
      next container rest named opened =>
        refine ⟨container, rest, ?_, rfl⟩
        rw [← whole, opened, ofText?_text named, wordAt, String.toList_ofList]
      next => cases h
    rw [read] at h split ⊢
    exact cutShaped_misfit h (opened.symm.trans split)
  | other =>
    simp only [cut, lead] at split ⊢
    rw [single split rfl]
    exact .of_lead (by rw [lead]; exact id)

end Staging
