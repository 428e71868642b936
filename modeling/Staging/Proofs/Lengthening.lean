import Staging.Proofs.Derivable

namespace Staging

/-- Some tokens, with each line end among them written once or several times. -/
inductive Lengthened : List Token → List Token → Prop
  | nil : Lengthened [] []
  | cons (t : Token) {ts us : List Token} : Lengthened ts us → Lengthened (t :: ts) (t :: us)
  | again {ts us : List Token} :
    Lengthened (.newline :: ts) us → Lengthened (.newline :: ts) (.newline :: us)

/-- However often the line ends of a phrase are written, it is a phrase, and `f` of it the same. -/
def Stretches {τ γ : Type} (tokens : τ → List Lexed) (f : τ → γ) (p : τ) : Prop :=
  ∀ written, Lengthened ((tokens p).map Lexed.token) written →
    Derivable tokens written fun q => f q = f p

section Lengthened

variable {ts us xs ys : List Token} {t : Token}

theorem Lengthened.refl (ts : List Token) : Lengthened ts ts := by
  induction ts with
  | nil => exact .nil
  | cons t ts ih => exact .cons t ih

theorem Lengthened.append (first : Lengthened xs us) {vs : List Token} (second : Lengthened ys vs) :
    Lengthened (xs ++ ys) (us ++ vs) := by
  induction first with
  | nil => exact second
  | cons t _ ih => exact .cons t ih
  | again _ ih => exact .again ih

/-- A line end may be replaced by one or more. -/
theorem Lengthened.replicate (n : Nat) :
    Lengthened [.newline] (List.replicate (n + 1) .newline) := by
  induction n with
  | zero => exact .refl _
  | succ n ih => exact .again ih

theorem lengthened_nil : Lengthened [] us ↔ us = [] := by
  constructor
  · rintro ⟨⟩
    rfl
  · rintro rfl
    exact .nil

theorem lengthened_cons (other : t ≠ .newline) :
    Lengthened (t :: ts) us ↔ ∃ vs, us = t :: vs ∧ Lengthened ts vs := by
  constructor
  · intro h
    cases h with
    | cons _ more => exact ⟨_, rfl, more⟩
    | again more => exact absurd rfl other
  · rintro ⟨vs, rfl, more⟩
    exact .cons t more

theorem lengthened_append : Lengthened (xs ++ ys) us ↔
    ∃ vs ws, us = vs ++ ws ∧ Lengthened xs vs ∧ Lengthened ys ws := by
  constructor
  · intro h
    generalize whole : xs ++ ys = ts at h
    induction h generalizing xs with
    | nil =>
      obtain ⟨rfl, rfl⟩ := List.append_eq_nil_iff.mp whole
      exact ⟨[], [], rfl, .nil, .nil⟩
    | @cons t ts us more ih =>
      cases xs with
      | nil =>
        obtain rfl : ys = t :: ts := whole
        exact ⟨[], t :: us, rfl, .nil, .cons t more⟩
      | cons x xs =>
        obtain ⟨rfl, rest⟩ := List.cons.inj whole
        obtain ⟨vs, ws, rfl, first, second⟩ := ih rest
        exact ⟨x :: vs, ws, rfl, .cons x first, second⟩
    | @again ts us more ih =>
      cases xs with
      | nil =>
        obtain rfl : ys = .newline :: ts := whole
        exact ⟨[], .newline :: us, rfl, .nil, .again more⟩
      | cons x xs =>
        -- The line end that is written again is still to come, so it stays on this side.
        obtain ⟨vs, ws, rfl, first, second⟩ := @ih (x :: xs) whole
        obtain ⟨rfl, -⟩ := List.cons.inj whole
        exact ⟨.newline :: vs, ws, rfl, .again first, second⟩
  · rintro ⟨vs, ws, rfl, first, second⟩
    exact first.append second

/-- Tokens without line ends stay as they are. -/
theorem Lengthened.eq (h : Lengthened ts us) (none : .newline ∉ ts) : us = ts := by
  induction h with
  | nil => rfl
  | cons t more ih => rw [ih fun mem => none (List.mem_cons_of_mem t mem)]
  | again => exact absurd List.mem_cons_self none

/-- Line ends stay line ends, and some stay some. -/
theorem Lengthened.lines (h : Lengthened ts us) (all : ∀ t ∈ ts, t = .newline) :
    (∀ t ∈ us, t = .newline) ∧ (ts ≠ [] → us ≠ []) := by
  induction h with
  | nil => exact ⟨all, id⟩
  | cons t more ih =>
    obtain ⟨rfl, later⟩ := List.forall_mem_cons.mp all
    exact ⟨List.forall_mem_cons.mpr ⟨rfl, (ih later).1⟩, fun _ => List.cons_ne_nil _ _⟩
  | again more ih =>
    exact ⟨List.forall_mem_cons.mpr ⟨rfl, (ih all).1⟩, fun _ => List.cons_ne_nil _ _⟩

theorem token_line (spans : List Span) :
    ∀ t ∈ (spans.map Lexed.line).map Lexed.token, t = .newline := by
  simp [Lexed.line]

theorem lines_of_token {ls : List Lexed} (all : ∀ t ∈ ls.map Lexed.token, t = .newline) :
    ls = (ls.map Lexed.span).map Lexed.line := by
  induction ls with
  | nil => rfl
  | cons l ls ih =>
    obtain ⟨line, later⟩ := List.forall_mem_cons.mp all
    obtain ⟨_, span⟩ := l
    cases line
    rw [List.map_cons, List.map_cons, ← ih later]
    rfl

/-- Line ends, however often written, are line ends. -/
theorem Lengthened.spans {spans : List Span} {ls : List Lexed}
    (h : Lengthened ((spans.map Lexed.line).map Lexed.token) (ls.map Lexed.token)) :
    ∃ spans' : List Span, ls = spans'.map .line ∧ (spans ≠ [] → spans' ≠ []) := by
  obtain ⟨all, some⟩ := h.lines (token_line spans)
  exact ⟨ls.map Lexed.span, lines_of_token all, by simpa using some⟩

end Lengthened

section Parts

variable {α β γ τ : Type} {tokens : τ → List Lexed} {f : τ → γ}

/-- A phrase without line ends is to be told from its tokens. -/
theorem stretches_inline {p : τ} (none : .newline ∉ (tokens p).map Lexed.token)
    (same : Derivable tokens ((tokens p).map Lexed.token) fun q => f q = f p) :
    Stretches tokens f p := by
  intro written longer
  rw [longer.eq none]
  exact same

theorem series_tokens (each : τ → List Lexed) (s : Series τ) :
    (s.tokens each).map Lexed.token =
      List.intercalate [.mark .comma] (s.items.map fun p => (each p).map Lexed.token) := by
  obtain ⟨first, others⟩ := s
  simp only [Series.tokens, Series.items]
  induction others generalizing first with
  | nil => simp [laterItems]
  | cons other others ih =>
    have whole : each first ++ laterItems each (other :: others) =
        each first ++ .mark .comma other.1 :: (each other.2 ++ laterItems each others) := by
      simp [laterItems]
    rw [whole, List.map_append, List.map_cons, ih]
    simp only [List.map_cons, List.intercalate_cons_cons, List.append_assoc]
    rfl

theorem items_tokens (each : τ → List Lexed) (s : Option (Series τ)) :
    (optional (Series.tokens each) s).map Lexed.token =
      List.intercalate [.mark .comma] ((itemsOf s).map fun p => (each p).map Lexed.token) := by
  cases s with
  | none => rfl
  | some s => exact series_tokens each s

theorem intercalate_inline {items : List (List Token)} (each : ∀ ts ∈ items, .newline ∉ ts) :
    .newline ∉ List.intercalate [.mark .comma] items := by
  induction items with
  | nil => simp
  | cons ts items ih =>
    obtain ⟨first, later⟩ := List.forall_mem_cons.mp each
    cases items with
    | nil => simpa using first
    | cons us items =>
      rw [List.intercalate_cons_cons]
      simp [first, ih later]

/-- Items without line ends, with commas between them. -/
theorem stretches_items {s : Option (Series τ)}
    (none : ∀ p ∈ itemsOf s, .newline ∉ (tokens p).map Lexed.token)
    (same : ∀ p ∈ itemsOf s, Derivable tokens ((tokens p).map Lexed.token) fun q => f q = f p) :
    Stretches (optional (Series.tokens tokens)) (fun q => (itemsOf q).map f) s := by
  refine stretches_inline ?_ ?_
  · rw [items_tokens]
    exact intercalate_inline (by simpa using none)
  · rw [items_tokens]
    exact .items same

theorem Stretches.optional {p : Option τ} (each : ∀ q, p = some q → Stretches tokens f q) :
    Stretches (Staging.optional tokens) (Option.map f) p := by
  intro written longer ts hts
  cases p with
  | none =>
    obtain rfl := lengthened_nil.mp longer
    exact ⟨none, map_token_nil.mp hts, rfl⟩
  | some p =>
    obtain ⟨q, rfl, same⟩ := each p rfl written longer ts hts
    exact ⟨some q, rfl, congrArg some same⟩

/-- What is made of `f` of a phrase stays the same too. -/
theorem Stretches.comp {p : τ} {g : τ → β} (h : Stretches tokens f p) (make : γ → β)
    (made : ∀ q, g q = make (f q)) : Stretches tokens g p := by
  intro written longer ts hts
  obtain ⟨q, rfl, same⟩ := h written longer ts hts
  exact ⟨q, rfl, (made q).trans ((congrArg make same).trans (made p).symm)⟩

theorem valueTokens_lexemes (names : Option (Series Name)) :
    (valueTokens names).map Lexed.token = tokensOf (valueLexemes (itemsOf names)) := by
  rw [valueTokens, items_tokens, tokensOf_valueLexemes]
  rfl

theorem OpPhrase.tokens_lexemes (p : OpPhrase) :
    p.tokens.map Lexed.token = tokensOf p.op.lexemes := by
  cases p with
  | alloc stack word type => rfl
  | constant word value place type => rfl
  | convert conversion word operand type => rfl
  | load word memref type => rfl
  | store word value comma memref => rfl
  | ret word operands =>
    rw [OpPhrase.tokens, List.map_cons, valueTokens_lexemes]
    cases operands <;> rfl
  | compute word name place lparen operands rparen types =>
    have typed : (optional (fun types : Span × Series TypeExpr => .mark .colon types.1 ::
        types.2.tokens fun t => [.type t]) types).map Lexed.token =
        tokensOf (if ((types.map fun types => types.2.items).getD []).isEmpty then []
          else typeLexemes ((types.map fun types => types.2.items).getD [])) := by
      cases types with
      | none => rfl
      | some types =>
        obtain ⟨colon, first, others⟩ := types
        change Token.mark .colon :: (Series.tokens _ ⟨first, others⟩).map Lexed.token =
          tokensOf (typeLexemes (first :: others.map Prod.snd))
        rw [series_tokens, tokensOf_typeLexemes]
        rfl
    simp only [OpPhrase.tokens, OpPhrase.op, Op.lexemes, List.map_cons, List.map_append, typed,
      valueTokens_lexemes, tokensOf_append, tokensOf_word, tokensOf_space, tokensOf_token,
      tokensOf_mark, List.cons_append, List.nil_append]
    rfl
  | copy word source target type =>
    cases target <;> cases type <;> rfl

theorem valueLexemes_inline (names : List Name) : .newline ∉ tokensOf (valueLexemes names) := by
  rw [tokensOf_valueLexemes]
  exact intercalate_inline (by simp)

theorem typeLexemes_inline (types : List TypeExpr) : .newline ∉ tokensOf (typeLexemes types) := by
  have each (t : TypeExpr) : .newline ≠ t.token := by cases t <;> exact nofun
  rw [tokensOf_typeLexemes]
  simpa using intercalate_inline (by simp [each])

theorem entry_inline (e : AttrEntry) : .newline ∉ tokensOf e.lexemes := by
  obtain ⟨key, value, span⟩ := e
  cases value <;> simp [AttrEntry.lexemes, Attr.token]

theorem op_inline (op : Op) : .newline ∉ tokensOf op.lexemes := by
  have values := valueLexemes_inline
  have types := typeLexemes_inline
  cases op with
  | alloc stack type => simpa [Op.lexemes] using types [type]
  | constant value type => simpa [Op.lexemes] using types [type]
  | convert conversion operand type => simpa [Op.lexemes, Name.lexeme] using types [type]
  | ret operands => cases operands <;> simp [Op.lexemes, values]
  | compute name operands types' => cases types' <;> simp [Op.lexemes, values, types]
  | load memref type => simpa [Op.lexemes, Name.lexeme] using types [type]
  | store value memref => simp [Op.lexemes, values]
  | copy operands type => cases type <;> simp [Op.lexemes, values, types]

theorem OpPhrase.stretches (p : OpPhrase) : Stretches OpPhrase.tokens (fun q => q.op.bare) p := by
  refine stretches_inline ?_ ?_
  · rw [p.tokens_lexemes]
    exact op_inline p.op
  · rw [p.tokens_lexemes]
    exact OpPhrase.derivable p.op p.formed

theorem results_stretches (p : Option ResultsPhrase) : Stretches (optional ResultsPhrase.tokens)
    (fun q => (resultsOf q).map Name.bare) p := by
  have same : (optional ResultsPhrase.tokens p).map Lexed.token =
      tokensOf (resultLexemes (resultsOf p)) := by
    cases p with
    | none => rfl
    | some p =>
      obtain ⟨⟨first, others⟩, equals⟩ := p
      have names := valueTokens_lexemes (some ⟨first, others⟩)
      change (Series.tokens _ ⟨first, others⟩ ++ [Lexed.mark .equals equals]).map Lexed.token =
        tokensOf (valueLexemes (first :: others.map Prod.snd) ++ [.space, .mark .equals, .space])
      rw [List.map_append, tokensOf_append]
      exact congrArg (· ++ [.mark .equals]) names
  refine stretches_inline ?_ ?_
  · rw [same, resultLexemes]
    split <;> simp [valueLexemes_inline]
  · rw [same]
    exact results_derivable _

theorem AttrsPhrase.stretches (p : AttrsPhrase) :
    Stretches AttrsPhrase.tokens (fun q => q.attrs.map AttrEntry.bare) p := by
  obtain ⟨lbrace, entries, rbrace⟩ := p
  intro written longer ts hts
  have inside : Stretches (optional (Series.tokens EntryPhrase.tokens))
      (fun q => (itemsOf q).map fun e => e.entry.bare) entries :=
    stretches_items (fun p _ => entry_inline p.entry) fun p _ => entry_derivable p.entry
  rw [AttrsPhrase.tokens, List.cons_append, List.map_cons, List.map_append,
    lengthened_cons (by simp [Lexed.mark])] at longer
  obtain ⟨_, rfl, longer⟩ := longer
  obtain ⟨_, _, rfl, list, close⟩ := lengthened_append.mp longer
  obtain rfl := close.eq (by simp [Lexed.mark])
  obtain ⟨left, us, rfl, rest⟩ := map_token_cons.mp hts
  obtain ⟨vs, ws, rfl, items, close⟩ := map_token_append.mp rest
  obtain ⟨right, _, rfl, none⟩ := map_token_cons.mp close
  obtain rfl := map_token_nil.mp none
  obtain ⟨entries', rfl, same⟩ := inside _ list vs items
  exact ⟨⟨left, entries', right⟩, by simp [AttrsPhrase.tokens, Lexed.mark],
    by simpa [AttrsPhrase.attrs, Function.comp_def] using same⟩

theorem attrs_stretches (p : Option AttrsPhrase) : Stretches (optional AttrsPhrase.tokens)
    (fun q => (attrsOf q).map AttrEntry.bare) p :=
  Stretches.comp (.optional fun q _ => q.stretches) (fun attrs => attrs.getD []) fun q => by
    cases q <;> rfl

theorem LoopHead.stretches (p : LoopHead) :
    Stretches LoopHead.tokens (fun q => (q.iv.bare, q.lower, q.upper)) p := by
  have none : .newline ∉ p.tokens.map Lexed.token := by
    simp [LoopHead.tokens, Lexed.word, Lexed.value, Lexed.mark, Lexed.int]
  refine stretches_inline none fun ts hts => ?_
  simp only [LoopHead.tokens, List.map_cons, List.map_nil, map_token_cons, map_token_nil] at hts
  obtain ⟨word, _, rfl, place, _, rfl, equals, _, rfl, lowerPlace, _, rfl, upTo, _, rfl, upperPlace,
    _, rfl, lbrace, _, rfl, rfl⟩ := hts
  exact ⟨⟨word, ⟨p.iv.text, place⟩, equals, p.lower, lowerPlace, upTo, p.upper, upperPlace, lbrace⟩,
    rfl, rfl⟩

theorem arg_inline (arg : ArgDecl) : .newline ∉ tokensOf arg.lexemes := by
  have type : .newline ≠ arg.type.token := by cases arg.type <;> exact nofun
  simp [ArgDecl.lexemes, Name.lexeme, type]

theorem args_stretches (args : Option (Series ArgPhrase)) :
    Stretches (optional (Series.tokens ArgPhrase.tokens))
      (fun q => (itemsOf q).map fun p => p.arg.bare) args :=
  stretches_items (fun p _ => arg_inline p.arg) fun p _ => arg_derivable p.arg

theorem SettingPhrase.stretches (p : SettingPhrase) :
    Stretches SettingPhrase.tokens (fun q => q.setting.bare) p := by
  obtain ⟨word, name, equals, value, place⟩ := p
  refine stretches_inline ?_ fun ts hts => ?_
  · cases value <;>
      simp [SettingPhrase.tokens, Lexed.word, Lexed.ident, Lexed.mark, SettingValue.token]
  · simp only [SettingPhrase.tokens, List.map_cons, List.map_nil, map_token_cons, map_token_nil]
      at hts
    obtain ⟨word', _, rfl, namePlace, _, rfl, equals', _, rfl, place', _, rfl, rfl⟩ := hts
    exact ⟨⟨word', ⟨name.text, namePlace⟩, equals', value, place'⟩, rfl, rfl⟩

theorem funcAttrs_stretches (attrs : Option (Span × AttrsPhrase)) :
    Stretches
      (optional fun attrs : Span × AttrsPhrase => .word .attributes attrs.1 :: attrs.2.tokens)
      (fun q => (attrsOf (q.map Prod.snd)).map AttrEntry.bare) attrs := by
  have given (attrs : Span × AttrsPhrase) :
      Stretches (fun attrs : Span × AttrsPhrase => .word .attributes attrs.1 :: attrs.2.tokens)
        (fun q => q.2.attrs.map AttrEntry.bare) attrs := by
    intro written longer ts hts
    rw [List.map_cons, lengthened_cons (by exact nofun)] at longer
    obtain ⟨_, rfl, longer⟩ := longer
    obtain ⟨word, us, rfl, rest⟩ := map_token_cons.mp hts
    obtain ⟨dict, rfl, same⟩ := attrs.2.stretches _ longer us rest
    exact ⟨(word, dict), rfl, same⟩
  exact Stretches.comp (.optional fun q _ => given q) (fun attrs => attrs.getD []) fun q => by
    cases q <;> rfl

end Parts

section Lines

variable {γ τ : Type} {tokens : τ → List Lexed} {f : τ → γ}

theorem Break.stretches (b : Break) : Stretches Break.tokens (fun _ => ()) b := by
  obtain ⟨first, more⟩ := b
  rintro written longer ts rfl
  obtain ⟨spans, rfl, some⟩ := @Lengthened.spans (first :: more) ts longer
  obtain ⟨first, more, rfl⟩ := List.exists_cons_of_ne_nil (some (by simp))
  exact ⟨⟨first, more⟩, rfl, rfl⟩

theorem later_stretches {others : List (Break × τ)}
    (each : ∀ p ∈ others.map Prod.snd, Stretches tokens f p) :
    Stretches (laterLines tokens) (fun q => q.map fun other => f other.2) others := by
  induction others with
  | nil =>
    intro written longer ts hts
    obtain rfl := lengthened_nil.mp longer
    exact ⟨[], map_token_nil.mp hts, rfl⟩
  | cons other others ih =>
    intro written longer ts hts
    obtain ⟨b, p⟩ := other
    obtain ⟨item, later⟩ := List.forall_mem_cons.mp each
    rw [laterLines, List.flatMap_cons, List.map_append, List.map_append] at longer
    obtain ⟨_, _, rfl, longer, below⟩ := lengthened_append.mp longer
    obtain ⟨_, _, rfl, line, longer⟩ := lengthened_append.mp longer
    obtain ⟨_, ws, rfl, front, behind⟩ := map_token_append.mp hts
    obtain ⟨us, vs, rfl, broken, taken⟩ := map_token_append.mp front
    obtain ⟨b', rfl, -⟩ := b.stretches _ line us broken
    obtain ⟨p', rfl, same⟩ := item _ longer vs taken
    obtain ⟨others', rfl, items⟩ := ih later _ below ws behind
    exact ⟨(b', p') :: others', by simp [laterLines], by simp [same, items]⟩

/-- Where each item of some lines may be stretched, the lines may. -/
theorem Stretches.lines {lines : Lines τ} (each : ∀ p ∈ lines.items, Stretches tokens f p) :
    Stretches (Lines.tokens tokens) (fun q => q.items.map f) lines := by
  intro written longer ts hts
  cases lines with
  | blank newlines =>
    subst hts
    obtain ⟨spans, rfl, -⟩ := longer.spans
    exact ⟨.blank spans, rfl, rfl⟩
  | full before first others after =>
    obtain ⟨item, later⟩ := List.forall_mem_cons.mp each
    simp only [Lines.tokens, List.map_append] at longer
    obtain ⟨_, _, rfl, above, longer⟩ := lengthened_append.mp longer
    obtain ⟨_, _, rfl, here, longer⟩ := lengthened_append.mp longer
    obtain ⟨_, _, rfl, between, below⟩ := lengthened_append.mp longer
    obtain ⟨us, _, rfl, rfl, rest⟩ := map_token_append.mp hts
    obtain ⟨vs, _, rfl, taken, rest⟩ := map_token_append.mp rest
    obtain ⟨ws, xs, rfl, behind, rfl⟩ := map_token_append.mp rest
    obtain ⟨before', rfl, -⟩ := above.spans
    obtain ⟨first', rfl, same⟩ := item _ here vs taken
    obtain ⟨others', rfl, items⟩ := later_stretches later _ between ws behind
    obtain ⟨after', rfl, -⟩ := below.spans
    refine ⟨.full before' first' others' after', rfl, ?_⟩
    simpa [Lines.items, same, Function.comp_def] using items

mutual

theorem StmtPhrase.stretches :
    ∀ p : StmtPhrase, Stretches StmtPhrase.tokens (fun q => q.stmt.bare) p
  | .op results op attrs => by
    intro written longer ts hts
    simp only [StmtPhrase.tokens, List.map_append] at longer
    obtain ⟨_, _, rfl, named, longer⟩ := lengthened_append.mp longer
    obtain ⟨_, _, rfl, made, dict⟩ := lengthened_append.mp longer
    obtain ⟨us, _, rfl, names, rest⟩ := map_token_append.mp hts
    obtain ⟨vs, ws, rfl, operation, entries⟩ := map_token_append.mp rest
    obtain ⟨results', rfl, sameResults⟩ := results_stretches results _ named us names
    obtain ⟨op', rfl, sameOp⟩ := op.stretches _ made vs operation
    obtain ⟨attrs', rfl, sameAttrs⟩ := attrs_stretches attrs _ dict ws entries
    exact ⟨.op results' op' attrs', by simp [StmtPhrase.tokens],
      by simp [StmtPhrase.stmt, Stmt.bare, sameResults, sameOp, sameAttrs]⟩
  | .loop results head body rbrace attrs => by
    intro written longer ts hts
    simp only [StmtPhrase.tokens, bodyTokens_eq, List.map_append, List.map_cons] at longer
    obtain ⟨_, _, rfl, named, longer⟩ := lengthened_append.mp longer
    obtain ⟨_, _, rfl, started, longer⟩ := lengthened_append.mp longer
    obtain ⟨_, _, rfl, inside, longer⟩ := lengthened_append.mp longer
    obtain ⟨_, rfl, dict⟩ := (lengthened_cons (by exact nofun)).mp longer
    obtain ⟨us, _, rfl, names, rest⟩ := map_token_append.mp hts
    obtain ⟨vs, _, rfl, loop, rest⟩ := map_token_append.mp rest
    obtain ⟨ws, _, rfl, block, rest⟩ := map_token_append.mp rest
    obtain ⟨rbrace', xs, rfl, entries⟩ := map_token_cons.mp rest
    obtain ⟨results', rfl, sameResults⟩ := results_stretches results _ named us names
    obtain ⟨head', rfl, sameHead⟩ := head.stretches _ started vs loop
    obtain ⟨body', rfl, sameBody⟩ := Stretches.lines (body_stretches body) _ inside ws block
    obtain ⟨attrs', rfl, sameAttrs⟩ := attrs_stretches attrs _ dict xs entries
    simp only [Prod.mk.injEq] at sameHead
    refine ⟨.loop results' head' body' rbrace' attrs',
      by simp [StmtPhrase.tokens, bodyTokens_eq, Lexed.mark], ?_⟩
    simp [StmtPhrase.stmt, Stmt.bare, bodyStmts_eq, bareBlock_eq_map, sameResults, sameHead,
      Function.comp_def, sameBody, sameAttrs]

theorem body_stretches : ∀ body : Lines StmtPhrase, ∀ p ∈ body.items,
    Stretches StmtPhrase.tokens (fun q => q.stmt.bare) p
  | .blank _ => fun p hp => by simp [Lines.items] at hp
  | .full _ first others _ => fun p hp => by
    rcases List.mem_cons.mp hp with here | hp
    · exact here ▸ StmtPhrase.stretches first
    · exact later_stmts_stretch others p hp

theorem later_stmts_stretch : ∀ others : List (Break × StmtPhrase), ∀ p ∈ others.map Prod.snd,
    Stretches StmtPhrase.tokens (fun q => q.stmt.bare) p
  | [] => fun p hp => by simp at hp
  | (_, stmt) :: others => fun p hp => by
    rcases List.mem_cons.mp hp with here | hp
    · exact here ▸ StmtPhrase.stretches stmt
    · exact later_stmts_stretch others p hp

end

end Lines

section Source

theorem FuncPhrase.stretches (p : FuncPhrase) :
    Stretches FuncPhrase.tokens (fun q => q.func.bare) p := by
  obtain ⟨word, name, lparen, args, rparen, attrs, lbrace, body, rbrace⟩ := p
  intro written longer ts hts
  simp only [FuncPhrase.tokens, Lexed.word, Lexed.symbol, Lexed.mark, List.map_append,
    List.map_cons, List.map_nil, ne_eq, reduceCtorEq, not_false_eq_true, lengthened_cons,
    lengthened_append, lengthened_nil] at longer
  obtain ⟨_, rfl, _, rfl, _, rfl, _, _, rfl, given, _, rfl, _, _, rfl, dict, _, rfl, _, _, rfl,
    inside, _, rfl, rfl⟩ := longer
  simp only [map_token_append, map_token_cons, map_token_nil] at hts
  obtain ⟨word', _, rfl, place, _, rfl, lparen', _, rfl, us, _, rfl, list, rparen', _, rfl, vs, _,
    rfl, entries, lbrace', _, rfl, ws, _, rfl, block, rbrace', _, rfl, rfl⟩ := hts
  obtain ⟨args', rfl, sameArgs⟩ := args_stretches args _ given us list
  obtain ⟨attrs', rfl, sameAttrs⟩ := funcAttrs_stretches attrs _ dict vs entries
  obtain ⟨body', rfl, sameBody⟩ := Stretches.lines (fun q _ => q.stretches) _ inside ws block
  refine ⟨⟨word', ⟨name.text, place⟩, lparen', args', rparen', attrs', lbrace', body', rbrace'⟩,
    rfl, ?_⟩
  simp [FuncPhrase.func, Func.bare, bareBlock_eq_map, Function.comp_def, sameArgs, sameAttrs,
    sameBody, Name.bare]

theorem ItemPhrase.stretches (p : ItemPhrase) :
    Stretches ItemPhrase.tokens (fun q => q.item.bare) p := by
  intro written longer ts hts
  cases p with
  | setting p =>
    obtain ⟨q, rfl, same⟩ := p.stretches written longer ts hts
    exact ⟨.setting q, rfl, congrArg Item.setting same⟩
  | func p =>
    obtain ⟨q, rfl, same⟩ := p.stretches written longer ts hts
    exact ⟨.func q, rfl, congrArg Item.func same⟩

/-- Line ends in front of some lines and behind them belong to them. -/
theorem lines_between {τ : Type} (tokens : τ → List Lexed) (lines : Lines τ)
    (above below : List Span) : ∃ lines' : Lines τ, lines'.items = lines.items ∧
      above.map .line ++ (lines.tokens tokens ++ below.map .line) = lines'.tokens tokens := by
  cases lines with
  | blank newlines =>
    exact ⟨.blank (above ++ (newlines ++ below)), rfl, by simp [Lines.tokens]⟩
  | full before first others after =>
    exact ⟨.full (above ++ before) first others (after ++ below), rfl, by simp [Lines.tokens]⟩

/-- Tokens that form a program still do so with line ends written several times, and with line ends
around them. The program is the same but for its places. -/
theorem parseTokens_stretch {ts us : List Lexed} {written : List Token} {size size' : Nat}
    {program : Program} (h : parseTokens ts size = .ok program)
    (longer : Lengthened (ts.map Lexed.token) written) (above below : Nat)
    (hus : us.map Lexed.token = List.replicate above .newline ++
      (written ++ List.replicate below .newline)) :
    ∃ program', parseTokens us size' = .ok program' ∧ program'.bare = program.bare := by
  obtain ⟨source, rfl, rfl⟩ := derivation_of_parseTokens h
  obtain ⟨ahead, _, rfl, lines, rest⟩ := map_token_append.mp hus
  obtain ⟨within, behind, rfl, body, lines'⟩ := map_token_append.mp rest
  obtain ⟨inner, rfl, same⟩ := Stretches.lines (fun p _ => p.stretches) _ longer within body
  obtain ⟨outer, items, whole⟩ := lines_between ItemPhrase.tokens inner (ahead.map Lexed.span)
    (behind.map Lexed.span)
  have all (n : Nat) {ls : List Lexed} (h : ls.map Lexed.token = List.replicate n .newline) :
      (ls.map Lexed.span).map Lexed.line = ls :=
    (lines_of_token (by simp [h])).symm
  rw [all above lines, all below lines'] at whole
  refine ⟨SourcePhrase.program outer size', whole ▸ SourcePhrase.parsed outer size', ?_⟩
  simpa [Program.bare, SourcePhrase.program, items, Function.comp_def] using same

end Source

end Staging
