import Staging.Proofs.Phrase

namespace Staging

/-- All tokens of a text are of some kind. -/
def Consists (P : Token → Prop) (ls : List Lexeme) : Prop :=
  ∀ t ∈ tokensOf ls, P t

/-- Whether tokens are of some kind depends only on names, numbers and strings. -/
structure Punctuated (P : Token → Prop) : Prop where
  keyword : ∀ k, P (.keyword k)
  mark : ∀ m, P (.mark m)
  newline : P .newline

section Consists

variable {P : Token → Prop} {ls ms : List Lexeme}

@[simp] theorem consists_nil : Consists P [] := by
  simp [Consists]

@[simp] theorem consists_append : Consists P (ls ++ ms) ↔ Consists P ls ∧ Consists P ms := by
  simp [Consists, or_imp, forall_and]

@[simp] theorem consists_token {t : Token} : Consists P (.token t :: ls) ↔ P t ∧ Consists P ls := by
  simp [Consists]

@[simp] theorem consists_space : Consists P (.space :: ls) ↔ Consists P ls := by
  simp [Consists]

@[simp] theorem consists_margin (depth : Nat) : Consists P (margin depth) := by
  simp [Consists]

@[simp] theorem consists_lexeme (n : Name) :
    Consists P (n.lexeme :: ls) ↔ P (.value n.text) ∧ Consists P ls :=
  consists_token

variable (fixed : Punctuated P)
include fixed

theorem Punctuated.word (k : Keyword) : Consists P (.word k :: ls) ↔ Consists P ls := by
  simp [Lexeme.word, fixed.keyword]

theorem Punctuated.sign (m : Mark) : Consists P (.mark m :: ls) ↔ Consists P ls := by
  simp [Lexeme.mark, fixed.mark]

theorem Punctuated.lines (n : Nat) : Consists P (.lines n :: ls) ↔ Consists P ls := by
  simp [Consists, fixed.newline]

theorem Punctuated.commas (items : List (List Lexeme)) :
    Consists P (commas items) ↔ ∀ item ∈ items, Consists P item := by
  induction items with
  | nil => simp [Staging.commas]
  | cons item items ih =>
    cases items with
    | nil => simp [Staging.commas]
    | cons next items =>
      rw [Staging.commas] at ih ⊢
      rw [List.intercalate_cons_cons]
      simp [fixed.sign, ih]

theorem Punctuated.values (names : List Name) :
    Consists P (valueLexemes names) ↔ ∀ name ∈ names, P (.value name.text) := by
  simp [valueLexemes, fixed.commas]

theorem Punctuated.types (types : List TypeExpr) :
    Consists P (typeLexemes types) ↔ ∀ type ∈ types, P type.token := by
  simp [typeLexemes, fixed.commas, fixed.sign]

theorem Punctuated.results (names : List Name) :
    Consists P (resultLexemes names) ↔ ∀ name ∈ names, P (.value name.text) := by
  unfold resultLexemes
  split
  next none => simp [List.isEmpty_iff.mp none]
  next => simp [fixed.values, fixed.sign]

theorem Punctuated.attrs (attrs : List AttrEntry) :
    Consists P (attrLexemes attrs) ↔ ∀ e ∈ attrs, P (.ident e.key.text) ∧ P e.value.token := by
  unfold attrLexemes
  split
  next none => simp [List.isEmpty_iff.mp none]
  next => simp [fixed.commas, fixed.sign, AttrEntry.lexemes]

theorem Punctuated.stmt (depth : Nat) (results : List Name) (op : Op) (attrs : List AttrEntry)
    (span : Span) : Consists P (Stmt.lexemes depth (.op results op attrs span)) ↔
      (∀ name ∈ results, P (.value name.text)) ∧ Consists P op.lexemes ∧
        ∀ e ∈ attrs, P (.ident e.key.text) ∧ P e.value.token := by
  simp [Stmt.lexemes, fixed.results, fixed.attrs]

theorem Punctuated.loop (depth : Nat) (results : List Name) (iv : Name) (lower upper : Int)
    (body : List Stmt) (attrs : List AttrEntry) (span : Span) :
    Consists P (Stmt.lexemes depth (.loop results iv lower upper body attrs span)) ↔
      (∀ name ∈ results, P (.value name.text)) ∧ P (.value iv.text) ∧ P (.int lower) ∧
        P (.int upper) ∧ Consists P (blockLexemes (depth + 1) body) ∧
        ∀ e ∈ attrs, P (.ident e.key.text) ∧ P e.value.token := by
  simp [Stmt.lexemes, fixed.results, fixed.attrs, fixed.word, fixed.sign, fixed.lines]

theorem Punctuated.block (depth : Nat) (stmts : List Stmt) :
    Consists P (blockLexemes depth stmts) ↔ ∀ stmt ∈ stmts, Consists P (stmt.lexemes depth) := by
  induction stmts with
  | nil => simp [blockLexemes]
  | cons stmt stmts ih => simp [blockLexemes, fixed.lines, ih]

theorem Punctuated.func (f : Func) : Consists P f.lexemes ↔ P (.symbol f.name.text) ∧
    (∀ arg ∈ f.args, P (.value arg.name.text) ∧ P arg.type.token) ∧
    (∀ e ∈ f.attrs, P (.ident e.key.text) ∧ P e.value.token) ∧ Consists P (blockLexemes 1 f.body) := by
  have attrs : Consists P (if f.attrs.isEmpty then []
      else [.space, .word .attributes] ++ attrLexemes f.attrs) ↔
        ∀ e ∈ f.attrs, P (.ident e.key.text) ∧ P e.value.token := by
    split
    next none => simp [List.isEmpty_iff.mp none]
    next => simp [fixed.attrs, fixed.word]
  have arg (a : ArgDecl) : Consists P a.lexemes ↔ P (.value a.name.text) ∧ P a.type.token := by
    simp [ArgDecl.lexemes, fixed.sign]
  simp only [Func.lexemes, consists_append, attrs, fixed.commas, List.forall_mem_map, arg]
  simp [fixed.word, fixed.sign, fixed.lines]
  tauto

theorem Punctuated.funcs (fs : List Func) :
    Consists P (funcsLexemes fs) ↔ ∀ f ∈ fs, Consists P f.lexemes := by
  induction fs with
  | nil => simp [funcsLexemes]
  | cons f fs ih =>
    cases fs with
    | nil => simp [funcsLexemes, fixed.lines]
    | cons g fs => simp [funcsLexemes, fixed.lines, ih]

end Consists

section Phrases

variable {P : Lexed → Prop} {α : Type} {each : α → List Lexed}

/-- All tokens of a phrase are of some kind. -/
def Composed (P : Lexed → Prop) (ts : List Lexed) : Prop :=
  ∀ l ∈ ts, P l

@[simp] theorem composed_nil : Composed P [] := by
  simp [Composed]

@[simp] theorem composed_cons {l : Lexed} {ts : List Lexed} :
    Composed P (l :: ts) ↔ P l ∧ Composed P ts := by
  simp [Composed]

@[simp] theorem composed_append {ts us : List Lexed} :
    Composed P (ts ++ us) ↔ Composed P ts ∧ Composed P us := by
  simp [Composed, or_imp, forall_and]

theorem composed_flatMap {β : Type} {f : β → List Lexed} {bs : List β} :
    Composed P (bs.flatMap f) ↔ ∀ b ∈ bs, Composed P (f b) := by
  simp only [Composed, List.mem_flatMap]
  exact ⟨fun h b hb l hl => h l ⟨b, hb, hl⟩, fun h l ⟨b, hb, hl⟩ => h b hb l hl⟩

theorem Series.composed {s : Series α} (h : Composed P (s.tokens each)) :
    ∀ a ∈ s.items, Composed P (each a) := by
  obtain ⟨first, others⟩ := composed_append.mp h
  intro a ha
  rcases List.mem_cons.mp ha with rfl | ha
  · exact first
  · obtain ⟨other, ho, rfl⟩ := List.mem_map.mp ha
    exact (composed_cons.mp (composed_flatMap.mp others other ho)).2

theorem composed_itemsOf {s : Option (Series α)} (h : Composed P (optional (Series.tokens each) s)) :
    ∀ a ∈ itemsOf s, Composed P (each a) := by
  cases s with
  | none => simp [itemsOf]
  | some s => exact Series.composed h

theorem Lines.composed {lines : Lines α} (h : Composed P (lines.tokens each)) :
    ∀ a ∈ lines.items, Composed P (each a) := by
  cases lines with
  | blank newlines => simp [Lines.items]
  | full before first others after =>
    simp only [Lines.tokens, composed_append] at h
    obtain ⟨-, here, later, -⟩ := h
    intro a ha
    rcases List.mem_cons.mp ha with rfl | ha
    · exact here
    · obtain ⟨other, ho, rfl⟩ := List.mem_map.mp ha
      exact (composed_append.mp (composed_flatMap.mp later other ho)).2

theorem composed_names {names : Option (Series Name)} (h : Composed P (valueTokens names)) :
    ∀ n ∈ itemsOf names, P (.value n) := fun n hn =>
  (composed_cons.mp (composed_itemsOf h n hn)).1

theorem composed_attrs {attrs : Option AttrsPhrase}
    (h : Composed P (optional AttrsPhrase.tokens attrs)) :
    ∀ e ∈ attrsOf attrs, ∃ p : EntryPhrase, p.entry = e ∧ Composed P p.tokens := by
  cases attrs with
  | none => simp [attrsOf]
  | some attrs =>
    have entries := (composed_append.mp (composed_cons.mp h).2).1
    intro e he
    obtain ⟨entry, hentry, rfl⟩ := List.mem_map.mp he
    exact ⟨entry, rfl, composed_itemsOf entries entry hentry⟩

theorem composed_results {results : Option ResultsPhrase}
    (h : Composed P (optional ResultsPhrase.tokens results)) :
    ∀ n ∈ resultsOf results, P (.value n) := by
  cases results with
  | none => simp [resultsOf]
  | some results =>
    intro n hn
    exact (composed_cons.mp (Series.composed (composed_append.mp h).1 n hn)).1

end Phrases

section Derived

variable {P : Token → Prop}

/-- The names and values of a dictionary are tokens of the phrase. -/
theorem composed_entries {attrs : Option AttrsPhrase}
    (h : Composed (fun l => P l.token) (optional AttrsPhrase.tokens attrs)) :
    ∀ e ∈ attrsOf attrs, P (.ident e.key.text) ∧ P e.value.token := by
  intro e he
  obtain ⟨entry, rfl, inner⟩ := composed_attrs h e he
  simp only [EntryPhrase.tokens, composed_cons] at inner
  exact ⟨inner.1, inner.2.2.1⟩

variable (fixed : Punctuated P)
include fixed

theorem OpPhrase.consists (p : OpPhrase) (h : Composed (fun l => P l.token) p.tokens) : Consists P p.op.lexemes := by
  cases p with
  | alloc stack word type =>
    simp only [OpPhrase.tokens, typeTokens, composed_cons] at h
    simpa [OpPhrase.op, Op.lexemes, fixed.word, fixed.types, Lexed.type] using h.2.2.1
  | constant word value place type =>
    simp only [OpPhrase.tokens, typeTokens, composed_cons] at h
    simpa [OpPhrase.op, Op.lexemes, fixed.word, fixed.types] using ⟨h.2.1, h.2.2.2.1⟩
  | convert conversion word operand type =>
    simp only [OpPhrase.tokens, typeTokens, composed_cons] at h
    simpa [OpPhrase.op, Op.lexemes, fixed.word, fixed.types] using ⟨h.2.1, h.2.2.2.1⟩
  | ret word operands =>
    simp only [OpPhrase.tokens, composed_cons] at h
    have names := composed_names h.2
    simp only [OpPhrase.op, Op.lexemes, fixed.word]
    split
    · exact consists_nil
    · simpa [fixed.values, Lexed.value] using names
  | compute word name place lparen operands rparen types =>
    simp only [OpPhrase.tokens, composed_cons, composed_append] at h
    obtain ⟨-, string, -, names, -, types'⟩ := h
    have names := composed_names names
    simp only [OpPhrase.op, Op.lexemes, List.cons_append, List.nil_append,
      fixed.word, consists_space, consists_token, fixed.sign, consists_append, fixed.values]
    refine ⟨string, names, ?_⟩
    split
    · exact consists_nil
    · rw [fixed.types]
      cases types with
      | none => simp
      | some types =>
        intro t ht
        have each := Series.composed (composed_cons.mp types').2 t ht
        exact (composed_cons.mp each).1
  | load word memref type =>
    simp only [OpPhrase.tokens, typeTokens, composed_cons] at h
    simpa [OpPhrase.op, Op.lexemes, fixed.word, fixed.types] using ⟨h.2.1, h.2.2.2.1⟩
  | store word value comma memref =>
    simp only [OpPhrase.tokens, composed_cons] at h
    simpa [OpPhrase.op, Op.lexemes, fixed.word, fixed.values] using ⟨h.2.1, h.2.2.2.1⟩
  | copy word source target type =>
    simp only [OpPhrase.tokens, composed_cons, composed_append] at h
    obtain ⟨-, first, second, last⟩ := h
    have names : ∀ n ∈ source :: (target.map Prod.snd).toList, P (.value n.text) := by
      intro n hn
      rcases List.mem_cons.mp hn with rfl | hn
      · exact first
      · cases target with
        | none => simp at hn
        | some target =>
          obtain rfl : n = target.2 := by simpa using hn
          exact (composed_cons.mp (composed_cons.mp second).2).1
    simp only [OpPhrase.op, Op.lexemes, List.cons_append, List.nil_append, fixed.word,
      consists_space, consists_append, fixed.values]
    refine ⟨names, ?_⟩
    cases type with
    | none => exact consists_nil
    | some type =>
      have inner := (composed_cons.mp (composed_cons.mp last).2).1
      simpa [fixed.types, Lexed.type] using inner

mutual

theorem StmtPhrase.consists : ∀ (p : StmtPhrase), Composed (fun l => P l.token) p.tokens → ∀ depth,
    Consists P (p.stmt.lexemes depth)
  | .op results op attrs, h, depth => by
    simp only [StmtPhrase.tokens, composed_append] at h
    obtain ⟨names, inner, entries⟩ := h
    exact (fixed.stmt depth _ _ _ _).mpr
      ⟨composed_results names, op.consists fixed inner, composed_entries entries⟩
  | .loop results head body rbrace attrs, h, depth => by
    simp only [StmtPhrase.tokens, LoopHead.tokens, composed_append, composed_cons] at h
    obtain ⟨names, ⟨-, iv, -, lower, -, upper, -⟩, inner, -, entries⟩ := h
    exact (fixed.loop depth _ _ _ _ _ _ _).mpr ⟨composed_results names, iv, lower, upper,
      bodyStmts_consists body inner (depth + 1), composed_entries entries⟩

theorem bodyStmts_consists : ∀ (body : Lines StmtPhrase), Composed (fun l => P l.token) (bodyTokens body) → ∀ depth,
    Consists P (blockLexemes depth (bodyStmts body))
  | .blank newlines, _, _ => consists_nil
  | .full before first others after, h, depth => by
    simp only [bodyTokens, composed_append] at h
    obtain ⟨-, here, later, -⟩ := h
    simp only [bodyStmts, blockLexemes, consists_append, fixed.lines]
    exact ⟨first.consists here depth, laterStmts_consists others later depth⟩

theorem laterStmts_consists : ∀ (others : List (Break × StmtPhrase)),
    Composed (fun l => P l.token) (laterTokens others) → ∀ depth, Consists P (blockLexemes depth (laterStmts others))
  | [], _, _ => consists_nil
  | (b, stmt) :: others, h, depth => by
    simp only [laterTokens, composed_append] at h
    obtain ⟨⟨-, here⟩, later⟩ := h
    simp only [laterStmts, blockLexemes, consists_append, fixed.lines]
    exact ⟨stmt.consists here depth, laterStmts_consists others later depth⟩

end

/-- A function is written with the tokens that it is derived from. -/
theorem FuncPhrase.consists (p : FuncPhrase) (h : Composed (fun l => P l.token) p.tokens) :
    Consists P p.func.lexemes := by
  simp only [FuncPhrase.tokens, composed_cons, composed_append] at h
  obtain ⟨-, name, -, args, -, attrs, -, body, -⟩ := h
  refine (fixed.func p.func).mpr ⟨name, fun arg ha => ?_, ?_, ?_⟩
  · obtain ⟨decl, hd, rfl⟩ := List.mem_map.mp ha
    have inner := composed_itemsOf args decl hd
    simp only [ArgPhrase.tokens, typeTokens, composed_cons] at inner
    exact ⟨inner.1, inner.2.2.1⟩
  · refine composed_entries ?_
    cases hattrs : p.attrs with
    | none => exact composed_nil
    | some attrs' =>
      rw [hattrs] at attrs
      exact (composed_cons.mp attrs).2
  · rw [← bodyTokens_eq] at body
    have written := bodyStmts_consists fixed p.body body 1
    rw [bodyStmts_eq] at written
    exact written

end Derived

end Staging
