import Staging.Options
import Staging.Proofs.Boundary
import Staging.Proofs.Faithful
import Staging.Proofs.Wording

namespace Staging

/-- The operands and types of an operation start at places of some kind. -/
def Op.Placed (P : Nat → Prop) : Op → Prop
  | .alloc _ type | .constant _ type => P type.span.start
  | .convert _ operand type => P operand.span.start ∧ P type.span.start
  | .ret operands => ∀ n ∈ operands, P n.span.start
  | .compute _ operands types => (∀ n ∈ operands, P n.span.start) ∧ ∀ t ∈ types, P t.span.start
  | .load memref type => P memref.span.start ∧ P type.span.start
  | .store value memref => P value.span.start ∧ P memref.span.start
  | .copy operands type => (∀ n ∈ operands, P n.span.start) ∧ ∀ t ∈ type, P t.span.start

mutual

/-- A statement and its parts start at places of some kind. -/
def Stmt.Placed (P : Nat → Prop) : Stmt → Prop
  | .op results op attrs span => (∀ n ∈ results, P n.span.start) ∧ op.Placed P ∧
      (∀ e ∈ attrs, P e.span.start) ∧ P span.start
  | .loop results iv _ _ body attrs span => (∀ n ∈ results, P n.span.start) ∧ P iv.span.start ∧
      BlockPlaced P body ∧ (∀ e ∈ attrs, P e.span.start) ∧ P span.start

def BlockPlaced (P : Nat → Prop) : List Stmt → Prop
  | [] => True
  | stmt :: stmts => stmt.Placed P ∧ BlockPlaced P stmts

end

structure Func.Placed (P : Nat → Prop) (f : Func) : Prop where
  name : P f.name.span.start
  args : ∀ arg ∈ f.args, P arg.name.span.start ∧ P arg.type.span.start
  attrs : ∀ e ∈ f.attrs, P e.span.start
  body : BlockPlaced P f.body
  span : P f.span.start

def Item.Placed (P : Nat → Prop) : Item → Prop
  | .setting s => P s.name.span.start ∧ P s.valueSpan.start
  | .func f => f.Placed P

/-- What a diagnostic points to starts at places of some kind. -/
structure Diagnostic.Placed (P : Nat → Prop) (d : Diagnostic) : Prop where
  span : P d.span.start
  related : ∀ place ∈ d.related, P place.span.start

theorem Diagnostic.placed_of_lone {P : Nat → Prop} {d : Diagnostic} (h : P d.span.start)
    (lone : d.related = []) : d.Placed P :=
  ⟨h, by simp [lone]⟩

/-- A diagnostic can be rendered if it points between characters of its source. -/
theorem Diagnostic.Placed.renders {source : String} {d : Diagnostic}
    (h : d.Placed (IsBoundary source.toList)) (path : String) :
    (d.render path source).isSome = true := by
  have place {span : Span} (at_ : IsBoundary source.toList span.start) :
      ∃ text, placeText path source span = some text := by
    obtain ⟨place, hp⟩ := Option.isSome_iff_exists.mp at_.lineColumn
    exact ⟨_, by rw [placeText, hp]; rfl⟩
  obtain ⟨text, ht⟩ := place h.span
  obtain ⟨notes, hn⟩ := Option.isSome_iff_exists.mp
    (@mapM_isSome _ _ (Related.render path source) d.related fun related hr => by
      obtain ⟨note, hnote⟩ := place (h.related related hr)
      simp [Related.render, hnote])
  simp [render, ht, hn]

section Phrases

variable {P : Nat → Prop} {ts : List Lexed}

/-- The tokens of a phrase start at places of some kind. -/
def StartsIn (P : Nat → Prop) (ts : List Lexed) : Prop :=
  Composed (fun l => P l.span.start) ts

/-- A phrase starts where its first token does. -/
theorem StartsIn.spanOf (zero : P 0) (h : StartsIn P ts) : P (spanOf ts).start := by
  unfold Staging.spanOf coverSpan
  cases ts with
  | nil => exact zero
  | cons t ts => exact h t (by simp)

theorem StartsIn.attrs {attrs : Option AttrsPhrase} (zero : P 0)
    (h : StartsIn P (optional AttrsPhrase.tokens attrs)) :
    ∀ e ∈ attrsOf attrs, P e.span.start := by
  intro e he
  obtain ⟨entry, rfl, inner⟩ := composed_attrs h e he
  exact StartsIn.spanOf zero inner

theorem OpPhrase.placed (p : OpPhrase) (h : StartsIn P p.tokens) : p.op.Placed P := by
  unfold StartsIn at h
  cases p with
  | alloc stack word type =>
    simp only [OpPhrase.tokens, typeTokens, composed_cons] at h
    exact h.2.2.1
  | constant word value place type =>
    simp only [OpPhrase.tokens, typeTokens, composed_cons] at h
    exact h.2.2.2.1
  | convert conversion word operand type =>
    simp only [OpPhrase.tokens, typeTokens, composed_cons] at h
    exact ⟨h.2.1, h.2.2.2.1⟩
  | ret word operands =>
    simp only [OpPhrase.tokens, composed_cons] at h
    exact composed_names h.2
  | compute word name place lparen operands rparen types =>
    simp only [OpPhrase.tokens, composed_cons, composed_append] at h
    obtain ⟨-, -, -, names, -, types'⟩ := h
    refine ⟨composed_names names, ?_⟩
    cases types with
    | none => simp
    | some types =>
      intro t ht
      exact (composed_cons.mp (Series.composed (composed_cons.mp types').2 t ht)).1
  | load word memref type =>
    simp only [OpPhrase.tokens, typeTokens, composed_cons] at h
    exact ⟨h.2.1, h.2.2.2.1⟩
  | store word value comma memref =>
    simp only [OpPhrase.tokens, composed_cons] at h
    exact ⟨h.2.1, h.2.2.2.1⟩
  | copy word source target type =>
    simp only [OpPhrase.tokens, composed_cons, composed_append] at h
    obtain ⟨-, first, second, last⟩ := h
    constructor
    · intro n hn
      rcases List.mem_cons.mp hn with rfl | hn
      · exact first
      · cases target with
        | none => simp at hn
        | some target =>
          obtain rfl : n = target.2 := by simpa using hn
          exact (composed_cons.mp (composed_cons.mp second).2).1
    · intro t ht
      obtain ⟨type', rfl, rfl⟩ := Option.mem_map.mp ht
      exact (composed_cons.mp (composed_cons.mp last).2).1

mutual

theorem StmtPhrase.placed (zero : P 0) : ∀ (p : StmtPhrase), StartsIn P p.tokens → p.stmt.Placed P
  | .op results op attrs, h => by
    have span := StartsIn.spanOf zero h
    simp only [StartsIn, StmtPhrase.tokens, composed_append] at h
    obtain ⟨names, inner, entries⟩ := h
    exact ⟨composed_results names, op.placed inner, StartsIn.attrs zero entries, span⟩
  | .loop results head body rbrace attrs, h => by
    have span := StartsIn.spanOf zero h
    simp only [StartsIn, StmtPhrase.tokens, LoopHead.tokens, composed_append, composed_cons] at h
    obtain ⟨names, ⟨-, iv, -⟩, inner, -, entries⟩ := h
    exact ⟨composed_results names, iv, bodyStmts_placed zero body inner,
      StartsIn.attrs zero entries, span⟩

theorem bodyStmts_placed (zero : P 0) : ∀ (body : Lines StmtPhrase),
    StartsIn P (bodyTokens body) → BlockPlaced P (bodyStmts body)
  | .blank newlines, _ => trivial
  | .full before first others after, h => by
    simp only [StartsIn, bodyTokens, composed_append] at h
    obtain ⟨-, here, later, -⟩ := h
    exact ⟨first.placed zero here, laterStmts_placed zero others later⟩

theorem laterStmts_placed (zero : P 0) : ∀ (others : List (Break × StmtPhrase)),
    StartsIn P (laterTokens others) → BlockPlaced P (laterStmts others)
  | [], _ => trivial
  | (b, stmt) :: others, h => by
    simp only [StartsIn, laterTokens, composed_append] at h
    obtain ⟨⟨-, here⟩, later⟩ := h
    exact ⟨stmt.placed zero here, laterStmts_placed zero others later⟩

end

theorem FuncPhrase.placed (zero : P 0) (p : FuncPhrase) (h : StartsIn P p.tokens) :
    p.func.Placed P := by
  have span := StartsIn.spanOf zero h
  simp only [StartsIn, FuncPhrase.tokens, composed_cons, composed_append] at h
  obtain ⟨-, name, -, args, -, attrs, -, body, -⟩ := h
  refine ⟨name, fun arg ha => ?_, ?_, ?_, span⟩
  · obtain ⟨decl, hd, rfl⟩ := List.mem_map.mp ha
    have inner := composed_itemsOf args decl hd
    simp only [ArgPhrase.tokens, typeTokens, composed_cons] at inner
    exact ⟨inner.1, inner.2.2.1⟩
  · refine StartsIn.attrs zero ?_
    cases hattrs : p.attrs with
    | none => exact composed_nil
    | some attrs' =>
      rw [hattrs] at attrs
      exact (composed_cons.mp attrs).2
  · rw [← bodyTokens_eq] at body
    have block := bodyStmts_placed zero p.body body
    rw [bodyStmts_eq] at block
    exact block

theorem ItemPhrase.placed (zero : P 0) (p : ItemPhrase) (h : StartsIn P p.tokens) :
    p.item.Placed P := by
  cases p with
  | setting p =>
    simp only [StartsIn, ItemPhrase.tokens, SettingPhrase.tokens, composed_cons] at h
    exact ⟨h.2.1, h.2.2.2.1⟩
  | func p => exact p.placed zero h

end Phrases

section Parsed

variable {source : String}

/-- Whatever is parsed starts between two characters of the source. -/
theorem parse_placed {p : Program} (h : (parse source).program = some p) :
    ∀ item ∈ p.items, item.Placed (IsBoundary source.toList) := by
  obtain ⟨phrase, tokens, rfl⟩ := derivation_of_parse h
  have starts : StartsIn (IsBoundary source.toList) phrase.tokens := fun l hl => by
    obtain ⟨_, cuts, -⟩ := (lex_cuts source).1 l (tokens ▸ hl)
    exact cuts.start
  intro item hitem
  obtain ⟨part, hpart, rfl⟩ := List.mem_map.mp hitem
  exact part.placed isBoundary_zero (Lines.composed starts part hpart)

/-- Errors of lexing and parsing point between two characters of the source. -/
theorem parse_errors_placed :
    ∀ e ∈ (parse source).errors, IsBoundary source.toList e.span.start := by
  obtain ⟨tokens, bad⟩ := lex_cuts source
  have found {e : ParseError} (h : e ∈ (lex source).bad.map BadText.toError) :
      IsBoundary source.toList e.span.start := by
    obtain ⟨text, ht, rfl⟩ := List.mem_map.mp h
    exact (bad text ht).start
  intro e he
  unfold parse at he
  cases parsed : parseTokens (lex source).tokens (byteLength source.toList) with
  | ok program =>
    simp only [parsed] at he
    exact found he
  | error last =>
    simp only [parsed, List.mem_append, List.mem_singleton] at he
    rcases he with he | rfl
    · exact found he
    · simp only [parseTokens] at parsed
      split at parsed
      next => cases parsed
      next =>
        cases parsed
        unfold Furthest.toError
        split
        next t ht =>
          obtain ⟨_, cuts, -⟩ := tokens t (List.mem_of_find?_eq_some ht)
          exact cuts.start
        next => exact isBoundary_end

end Parsed

section Settings

variable {P : Nat → Prop}

/-- Why a setting is rejected. -/
theorem Options.applySetting_error {o : Options} {s : Setting} {d : Diagnostic}
    (h : o.applySetting s = .error d) :
    (∃ name expected, d = .settingKind name expected s.valueSpan) ∨
      (∃ value, d = .badGranularity value s.valueSpan) ∨ d = .unknownSetting s.name := by
  unfold applySetting at h
  split at h
  · cases h
  · exact Or.inl ⟨_, _, (Except.error.inj h).symm⟩
  · split at h
    · cases h
    · exact Or.inr (Or.inl ⟨_, (Except.error.inj h).symm⟩)
  · exact Or.inl ⟨_, _, (Except.error.inj h).symm⟩
  · exact Or.inr (Or.inr (Except.error.inj h).symm)

/-- What is said of the settings is said of one of them. -/
theorem Options.mem_applyItems {o : Options} {items : List Item} {d : Diagnostic}
    (h : d ∈ (o.applyItems items).2) :
    ∃ s, Item.setting s ∈ items ∧ ∃ o' : Options, o'.applySetting s = .error d := by
  induction items generalizing o with
  | nil => simp [applyItems] at h
  | cons item items ih =>
    have rest {o' : Options} (h : d ∈ (o'.applyItems items).2) :
        ∃ s, Item.setting s ∈ item :: items ∧ ∃ o' : Options, o'.applySetting s = .error d := by
      obtain ⟨s, hs, rejected⟩ := ih h
      exact ⟨s, List.mem_cons_of_mem _ hs, rejected⟩
    cases item with
    | func f => exact rest h
    | setting s =>
      unfold applyItems at h
      split at h
      next => exact rest h
      next d' rejected =>
        rcases List.mem_cons.mp h with rfl | h
        · exact ⟨s, List.mem_cons_self, o, rejected⟩
        · exact rest h

theorem Options.applyItems_placed {items : List Item} (placed : ∀ item ∈ items, item.Placed P)
    (o : Options) : ∀ d ∈ (o.applyItems items).2, d.Placed P := by
  intro d hd
  obtain ⟨s, hs, o', rejected⟩ := mem_applyItems hd
  obtain ⟨name, value⟩ := placed (.setting s) hs
  rcases applySetting_error rejected with ⟨_, _, rfl⟩ | ⟨_, rfl⟩ | rfl
  · exact Diagnostic.placed_of_lone value rfl
  · exact Diagnostic.placed_of_lone value rfl
  · exact Diagnostic.placed_of_lone name rfl

end Settings

end Staging
