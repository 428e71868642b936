import Staging.Proofs.Accepting
import Staging.Proofs.Bare

namespace Staging

def Lines.map {α β : Type} (f : α → β) : Lines α → Lines β
  | .blank newlines => .blank newlines
  | .full before first others after =>
    .full before (f first) (others.map fun other => (other.1, f other.2)) after

theorem Lines.items_map {α β : Type} (f : α → β) (lines : Lines α) :
    (lines.map f).items = lines.items.map f := by
  cases lines <;> simp [Lines.map, Lines.items]

theorem Lines.tokens_map {α β : Type} (f : α → β) (each : β → List Lexed) (lines : Lines α) :
    (lines.map f).tokens each = lines.tokens fun a => each (f a) := by
  cases lines <;> simp [Lines.map, Lines.tokens, laterLines, List.flatMap_map]

/-- Such tokens, wherever they stand, are those of a phrase of which `P` holds. -/
def Derivable {τ : Type} (tokens : τ → List Lexed) (written : List Token) (P : τ → Prop) : Prop :=
  ∀ ts : List Lexed, ts.map Lexed.token = written → ∃ p, ts = tokens p ∧ P p

section Rules

variable {α β γ τ : Type} {tokens : τ → List Lexed} {f : τ → γ} {g : β → γ} {written : β → List Token}

theorem map_token_nil {ts : List Lexed} : ts.map Lexed.token = [] ↔ ts = [] :=
  List.map_eq_nil_iff

theorem map_token_cons {ts : List Lexed} {t : Token} {rest : List Token} :
    ts.map Lexed.token = t :: rest ↔
      ∃ span us, ts = ⟨t, span⟩ :: us ∧ us.map Lexed.token = rest := by
  rw [List.map_eq_cons_iff]
  constructor
  · rintro ⟨⟨_, span⟩, us, rfl, rfl, rest⟩
    exact ⟨span, us, rfl, rest⟩
  · rintro ⟨span, us, rfl, rest⟩
    exact ⟨_, us, rfl, rfl, rest⟩

theorem map_token_append {ts : List Lexed} {xs ys : List Token} :
    ts.map Lexed.token = xs ++ ys ↔
      ∃ us vs, ts = us ++ vs ∧ us.map Lexed.token = xs ∧ vs.map Lexed.token = ys :=
  List.map_eq_append_iff

theorem Derivable.series {first : β} {others : List β}
    (each : ∀ b ∈ first :: others, Derivable tokens (written b) fun p => f p = g b) :
    Derivable (Series.tokens tokens) (List.intercalate [.mark .comma] ((first :: others).map written))
      fun series => series.items.map f = (first :: others).map g := by
  induction others generalizing first with
  | nil =>
    intro ts hts
    obtain ⟨p, rfl, same⟩ := each first (by simp) ts (by simpa using hts)
    exact ⟨⟨p, []⟩, by simp [Series.tokens, laterItems], by simp [Series.items, same]⟩
  | cons second others ih =>
    intro ts hts
    rw [List.map_cons, List.map_cons, List.intercalate_cons_cons, List.append_assoc,
      map_token_append] at hts
    obtain ⟨us, vs, rfl, head, tail⟩ := hts
    obtain ⟨span, ws, rfl, later⟩ := map_token_cons.mp tail
    obtain ⟨p, rfl, same⟩ := each first (by simp) us head
    obtain ⟨⟨q, rest⟩, rfl, items⟩ := ih (fun b hb => each b (by simp [hb])) ws later
    refine ⟨⟨p, (span, q) :: rest⟩, by simp [Series.tokens, laterItems, Lexed.mark], ?_⟩
    simpa [Series.items, same] using items

/-- A list of items that is left out where there are none. -/
theorem Derivable.items {bs : List β}
    (each : ∀ b ∈ bs, Derivable tokens (written b) fun p => f p = g b) :
    Derivable (optional (Series.tokens tokens)) (List.intercalate [.mark .comma] (bs.map written))
      fun series => (itemsOf series).map f = bs.map g := by
  intro ts hts
  cases bs with
  | nil => exact ⟨none, by simpa [optional] using hts, rfl⟩
  | cons first others =>
    obtain ⟨series, rfl, same⟩ := Derivable.series each ts hts
    exact ⟨some series, rfl, same⟩

/-- Items that are written out on lines of their own. -/
theorem Derivable.lines {bs : List β}
    (each : ∀ b ∈ bs, Derivable tokens (written b) fun p => f p = g b) :
    Derivable (Lines.tokens tokens) (bs.flatMap fun b => written b ++ [.newline])
      fun lines => lines.items.map f = bs.map g := by
  have later (cs : List β) (each : ∀ b ∈ cs, Derivable tokens (written b) fun p => f p = g b)
      (ts : List Lexed)
      (hts : ts.map Lexed.token = .newline :: cs.flatMap fun b => written b ++ [.newline]) :
      ∃ others span, ts = laterLines tokens others ++ [.line span] ∧
        others.map (fun other => f other.2) = cs.map g := by
    induction cs generalizing ts with
    | nil =>
      obtain ⟨span, us, rfl, rest⟩ := map_token_cons.mp hts
      obtain rfl := map_token_nil.mp rest
      exact ⟨[], span, rfl, rfl⟩
    | cons b cs ih =>
      rw [List.flatMap_cons, List.append_assoc, map_token_cons] at hts
      obtain ⟨span, us, rfl, rest⟩ := hts
      obtain ⟨vs, ws, rfl, item, below⟩ := map_token_append.mp rest
      obtain ⟨p, rfl, same⟩ := each b (by simp) vs item
      obtain ⟨others, last, rfl, items⟩ := ih (fun b hb => each b (by simp [hb])) ws below
      exact ⟨(⟨span, []⟩, p) :: others, last, by simp [laterLines, Break.tokens, Lexed.line],
        by simp [same, items]⟩
  intro ts hts
  cases bs with
  | nil => exact ⟨.blank [], map_token_nil.mp hts, rfl⟩
  | cons b cs =>
    rw [List.flatMap_cons, List.append_assoc] at hts
    obtain ⟨vs, ws, rfl, item, below⟩ := map_token_append.mp hts
    obtain ⟨p, rfl, same⟩ := each b (by simp) vs item
    obtain ⟨others, last, rfl, items⟩ := later cs (fun b hb => each b (by simp [hb])) ws below
    exact ⟨.full [] p others [last], by simp [Lines.tokens], by simp [Lines.items, same, ← items]⟩

/-- Such lines behind the end of another. -/
theorem Derivable.block {bs : List β}
    (each : ∀ b ∈ bs, Derivable tokens (written b) fun p => f p = g b) :
    Derivable (Lines.tokens tokens) (.newline :: bs.flatMap fun b => written b ++ [.newline])
      fun lines => lines.items.map f = bs.map g := by
  intro ts hts
  obtain ⟨span, us, rfl, rest⟩ := map_token_cons.mp hts
  obtain ⟨lines, rfl, same⟩ := Derivable.lines each us rest
  cases lines with
  | blank newlines => exact ⟨.blank (span :: newlines), rfl, same⟩
  | full before first others after => exact ⟨.full (span :: before) first others after, rfl, same⟩

end Rules

section Parts

theorem tokensOf_valueLexemes (names : List Name) : tokensOf (valueLexemes names) =
    List.intercalate [.mark .comma] (names.map fun n => [.value n.text]) := by
  rw [valueLexemes, tokensOf_commas, List.map_map]
  rfl

theorem tokensOf_typeLexemes (types : List TypeExpr) : tokensOf (typeLexemes types) =
    .mark .colon :: List.intercalate [.mark .comma] (types.map fun t => [t.token]) := by
  rw [typeLexemes, tokensOf_append, tokensOf_commas, List.map_map]
  rfl

theorem name_derivable (n : Name) :
    Derivable (fun n => [.value n]) [.value n.text] fun m => m.bare = n.bare := by
  intro ts hts
  simp only [map_token_cons, map_token_nil] at hts
  obtain ⟨span, _, rfl, rfl⟩ := hts
  exact ⟨⟨n.text, span⟩, rfl, rfl⟩

theorem type_derivable (t : TypeExpr) :
    Derivable (fun t => [.type t]) [t.token] fun u => u.bare = t.bare := by
  intro ts hts
  simp only [map_token_cons, map_token_nil] at hts
  obtain ⟨span, _, rfl, rfl⟩ := hts
  cases t with
  | named n => exact ⟨.named ⟨n.text, span⟩, rfl, rfl⟩
  | shaped shape _ => exact ⟨.shaped shape span, rfl, rfl⟩

theorem colonType_derivable (t : TypeExpr) :
    Derivable typeTokens (tokensOf (typeLexemes [t])) fun type => type.2.bare = t.bare := by
  intro ts hts
  obtain ⟨colon, us, rfl, rest⟩ := map_token_cons.mp hts
  obtain ⟨type, rfl, same⟩ := type_derivable t us rest
  exact ⟨(colon, type), rfl, same⟩

theorem names_derivable (names : List Name) :
    Derivable valueTokens (tokensOf (valueLexemes names))
      fun series => (itemsOf series).map Name.bare = names.map Name.bare := by
  rw [tokensOf_valueLexemes]
  exact Derivable.items fun n _ => name_derivable n

theorem entry_derivable (e : AttrEntry) :
    Derivable EntryPhrase.tokens (tokensOf e.lexemes) fun p => p.entry.bare = e.bare := by
  intro ts hts
  simp only [AttrEntry.lexemes, tokensOf_token, tokensOf_space, tokensOf_mark, tokensOf_nil,
    map_token_cons, map_token_nil] at hts
  obtain ⟨place, _, rfl, equals, _, rfl, span, _, rfl, rfl⟩ := hts
  exact ⟨⟨⟨e.key.text, place⟩, equals, e.value, span⟩, rfl, rfl⟩

theorem attrs_derivable (attrs : List AttrEntry) :
    Derivable (optional AttrsPhrase.tokens) (tokensOf (attrLexemes attrs))
      fun p => (attrsOf p).map AttrEntry.bare = attrs.map AttrEntry.bare := by
  intro ts hts
  cases attrs with
  | nil => exact ⟨none, map_token_nil.mp hts, rfl⟩
  | cons e others =>
    rw [attrLexemes, if_neg (by simp)] at hts
    simp only [tokensOf_append, tokensOf_space, tokensOf_mark, tokensOf_nil, tokensOf_commas,
      List.map_map, List.cons_append, List.nil_append, map_token_cons, map_token_append,
      map_token_nil] at hts
    obtain ⟨lbrace, _, rfl, us, _, rfl, list, rbrace, _, rfl, rfl⟩ := hts
    obtain ⟨entries, rfl, same⟩ := Derivable.items (fun e _ => entry_derivable e) us list
    exact ⟨some ⟨lbrace, entries, rbrace⟩, by simp [optional, AttrsPhrase.tokens, Lexed.mark],
      by simpa [attrsOf, AttrsPhrase.attrs, Function.comp_def] using same⟩

theorem results_derivable (names : List Name) :
    Derivable (optional ResultsPhrase.tokens) (tokensOf (resultLexemes names))
      fun p => (resultsOf p).map Name.bare = names.map Name.bare := by
  intro ts hts
  cases names with
  | nil => exact ⟨none, map_token_nil.mp hts, rfl⟩
  | cons n others =>
    rw [resultLexemes, if_neg (by simp)] at hts
    simp only [tokensOf_append, tokensOf_valueLexemes, tokensOf_space, tokensOf_mark, tokensOf_nil,
      map_token_append, map_token_cons, map_token_nil] at hts
    obtain ⟨us, _, rfl, list, equals, _, rfl, rfl⟩ := hts
    obtain ⟨series, rfl, same⟩ := Derivable.series (fun n _ => name_derivable n) us list
    exact ⟨some ⟨series, equals⟩, by simp [optional, ResultsPhrase.tokens, Lexed.mark], same⟩

end Parts

section Stmts

theorem OpPhrase.formed (p : OpPhrase) : p.op.Formed := by
  cases p with
  | copy word source target type =>
    cases target with
    | none => exact Or.inl rfl
    | some target => exact Or.inr rfl
  | _ => trivial

mutual

theorem StmtPhrase.formed : ∀ p : StmtPhrase, p.stmt.Formed
  | .op results op attrs => by
    unfold StmtPhrase.stmt Stmt.Formed
    exact op.formed
  | .loop results head body rbrace attrs => by
    unfold StmtPhrase.stmt Stmt.Formed
    exact bodyStmts_formed body

theorem bodyStmts_formed : ∀ body : Lines StmtPhrase, BlockFormed (bodyStmts body)
  | .blank _ => trivial
  | .full _ first others _ => ⟨first.formed, laterStmts_formed others⟩

theorem laterStmts_formed : ∀ others : List (Break × StmtPhrase), BlockFormed (laterStmts others)
  | [] => trivial
  | (_, stmt) :: others => ⟨stmt.formed, laterStmts_formed others⟩

end

theorem OpPhrase.derivable (op : Op) (formed : op.Formed) :
    Derivable OpPhrase.tokens (tokensOf op.lexemes) fun p => p.op.bare = op.bare := by
  intro ts hts
  cases op with
  | alloc stack type =>
    simp only [Op.lexemes, tokensOf_word, map_token_cons] at hts
    obtain ⟨word, us, rfl, rest⟩ := hts
    obtain ⟨type, rfl, same⟩ := colonType_derivable type us rest
    exact ⟨.alloc stack word type, rfl, by simp [OpPhrase.op, Op.bare, same]⟩
  | constant value type =>
    simp only [Op.lexemes, List.cons_append, List.nil_append, tokensOf_word, tokensOf_space,
      tokensOf_token, map_token_cons] at hts
    obtain ⟨word, _, rfl, place, us, rfl, rest⟩ := hts
    obtain ⟨type, rfl, same⟩ := colonType_derivable type us rest
    exact ⟨.constant word value place type, rfl, by simp [OpPhrase.op, Op.bare, same]⟩
  | convert conversion operand type =>
    simp only [Op.lexemes, List.cons_append, List.nil_append, tokensOf_word, tokensOf_space,
      tokensOf_lexeme, map_token_cons] at hts
    obtain ⟨word, _, rfl, place, us, rfl, rest⟩ := hts
    obtain ⟨type, rfl, same⟩ := colonType_derivable type us rest
    exact ⟨.convert conversion word ⟨operand.text, place⟩ type, rfl,
      by simp [OpPhrase.op, Op.bare, same, Name.bare]⟩
  | ret operands =>
    simp only [Op.lexemes, tokensOf_word, map_token_cons] at hts
    obtain ⟨word, us, rfl, rest⟩ := hts
    have list : us.map Lexed.token = tokensOf (valueLexemes operands) := by
      rw [rest]
      cases operands <;> rfl
    obtain ⟨operands, rfl, same⟩ := names_derivable operands us list
    exact ⟨.ret word operands, rfl, by simp [OpPhrase.op, Op.bare, same]⟩
  | compute name operands types =>
    simp only [Op.lexemes, tokensOf_append, List.cons_append, List.nil_append, tokensOf_word,
      tokensOf_space, tokensOf_token, tokensOf_mark, map_token_cons, map_token_append] at hts
    obtain ⟨word, _, rfl, place, _, rfl, lparen, _, rfl, us, _, rfl, list, rparen, vs, rfl, rest⟩ := hts
    obtain ⟨operands, rfl, same⟩ := names_derivable operands us list
    cases types with
    | nil =>
      obtain rfl := map_token_nil.mp rest
      exact ⟨.compute word name place lparen operands rparen none, rfl,
        by simp [OpPhrase.op, Op.bare, same]⟩
    | cons type types =>
      rw [if_neg (by simp), tokensOf_typeLexemes, map_token_cons] at rest
      obtain ⟨colon, ws, rfl, named⟩ := rest
      obtain ⟨series, rfl, all⟩ := Derivable.series (fun t _ => type_derivable t) ws named
      exact ⟨.compute word name place lparen operands rparen (some (colon, series)), rfl,
        by simp [OpPhrase.op, Op.bare, same, all]⟩
  | load memref type =>
    simp only [Op.lexemes, List.cons_append, List.nil_append, tokensOf_word, tokensOf_space,
      tokensOf_lexeme, map_token_cons] at hts
    obtain ⟨word, _, rfl, place, us, rfl, rest⟩ := hts
    obtain ⟨type, rfl, same⟩ := colonType_derivable type us rest
    exact ⟨.load word ⟨memref.text, place⟩ type, rfl, by simp [OpPhrase.op, Op.bare, same, Name.bare]⟩
  | store value memref =>
    simp only [Op.lexemes, tokensOf_word, tokensOf_space, tokensOf_valueLexemes, List.cons_append,
      List.nil_append, map_token_cons, List.map_cons,
      List.map_nil, List.intercalate_cons_cons, List.intercalate_singleton, map_token_nil] at hts
    obtain ⟨word, _, rfl, place, _, rfl, comma, _, rfl, span, _, rfl, rfl⟩ := hts
    exact ⟨.store word ⟨value.text, place⟩ comma ⟨memref.text, span⟩, rfl, rfl⟩
  | copy operands type =>
    simp only [Op.lexemes, tokensOf_append, tokensOf_word, tokensOf_space,
      tokensOf_valueLexemes, List.cons_append, List.nil_append, map_token_cons, map_token_append] at hts
    obtain ⟨word, _, rfl, us, vs, rfl, list, rest⟩ := hts
    have typed : ∃ written, vs = optional typeTokens written ∧
        (written.map fun t => t.2.bare) = type.map TypeExpr.bare := by
      cases type with
      | none => exact ⟨none, map_token_nil.mp rest, rfl⟩
      | some type =>
        obtain ⟨written, rfl, same⟩ := colonType_derivable type vs rest
        exact ⟨some written, rfl, congrArg some same⟩
    obtain ⟨written, rfl, same⟩ := typed
    rcases formed with one | two
    · obtain ⟨n, rfl⟩ := List.length_eq_one_iff.mp one
      simp only [List.map_cons, List.map_nil, List.intercalate_singleton, map_token_cons,
        map_token_nil] at list
      obtain ⟨place, _, rfl, rfl⟩ := list
      exact ⟨.copy word ⟨n.text, place⟩ none written, rfl,
        by simp [OpPhrase.op, Op.bare, Name.bare, Function.comp_def, ← same]⟩
    · obtain ⟨n, m, rfl⟩ := List.length_eq_two.mp two
      simp only [List.map_cons, List.map_nil, List.intercalate_cons_cons, List.intercalate_singleton,
        List.cons_append, List.nil_append, map_token_cons, map_token_nil] at list
      obtain ⟨place, _, rfl, comma, _, rfl, span, _, rfl, rfl⟩ := list
      exact ⟨.copy word ⟨n.text, place⟩ (some (comma, ⟨m.text, span⟩)) written, rfl,
        by simp [OpPhrase.op, Op.bare, Name.bare, Function.comp_def, ← same]⟩

theorem tokensOf_block (depth : Nat) (stmts : List Stmt) : tokensOf (blockLexemes depth stmts) =
    stmts.flatMap fun stmt => tokensOf (stmt.lexemes depth) ++ [.newline] := by
  induction stmts with
  | nil => rfl
  | cons stmt stmts ih =>
    rw [blockLexemes, tokensOf_append, tokensOf_lines, ih, List.flatMap_cons, List.append_assoc]
    rfl

mutual

theorem StmtPhrase.derivable (depth : Nat) : ∀ stmt : Stmt, stmt.Formed →
    Derivable StmtPhrase.tokens (tokensOf (stmt.lexemes depth)) fun p => p.stmt.bare = stmt.bare
  | .op results op attrs span, formed => by
    intro ts hts
    simp only [Stmt.lexemes, tokensOf_append, tokensOf_margin, List.nil_append, List.append_assoc,
      map_token_append] at hts
    obtain ⟨us, _, rfl, named, vs, ws, rfl, operation, dict⟩ := hts
    obtain ⟨results, rfl, sameResults⟩ := results_derivable results us named
    obtain ⟨op, rfl, sameOp⟩ := OpPhrase.derivable op formed vs operation
    obtain ⟨attrs, rfl, sameAttrs⟩ := attrs_derivable attrs ws dict
    exact ⟨.op results op attrs, by simp [StmtPhrase.tokens],
      by simp [StmtPhrase.stmt, Stmt.bare, sameResults, sameOp, sameAttrs]⟩
  | .loop results iv lower upper body attrs span, formed => by
    intro ts hts
    simp only [Stmt.lexemes, tokensOf_append, tokensOf_margin, tokensOf_word, tokensOf_space,
      tokensOf_lexeme, tokensOf_mark, tokensOf_token, tokensOf_lines, List.cons_append,
      List.nil_append, List.append_assoc, map_token_append, map_token_cons] at hts
    obtain ⟨us, _, rfl, named, word, _, rfl, place, _, rfl, equals, _, rfl, lowerPlace, _, rfl, upTo, _,
      rfl, upperPlace, _, rfl, lbrace, _, rfl, newline, _, rfl, vs, _, rfl, block, rbrace, ws, rfl,
      dict⟩ := hts
    obtain ⟨results, rfl, sameResults⟩ := results_derivable results us named
    obtain ⟨attrs, rfl, sameAttrs⟩ := attrs_derivable attrs ws dict
    obtain ⟨inner, tokens, sameBody⟩ := Derivable.block (block_derivable (depth + 1) body formed)
      (⟨.newline, newline⟩ :: vs) (by rw [List.map_cons, block, tokensOf_block])
    refine ⟨.loop results ⟨word, ⟨iv.text, place⟩, equals, lower, lowerPlace, upTo, upper, upperPlace,
      lbrace⟩ inner rbrace attrs, ?_, ?_⟩
    · simp [StmtPhrase.tokens, bodyTokens_eq, ← tokens, LoopHead.tokens, Lexed.word, Lexed.value, Lexed.mark,
        Lexed.int]
    · simp [StmtPhrase.stmt, Stmt.bare, bodyStmts_eq, bareBlock_eq_map, sameResults, ← sameBody, sameAttrs,
        Name.bare, Function.comp_def]

theorem block_derivable (depth : Nat) : ∀ stmts : List Stmt, BlockFormed stmts →
    ∀ stmt ∈ stmts, Derivable StmtPhrase.tokens (tokensOf (stmt.lexemes depth))
      fun p => p.stmt.bare = stmt.bare
  | [], _ => by simp
  | stmt :: stmts, formed => List.forall_mem_cons.mpr
    ⟨StmtPhrase.derivable depth stmt formed.1, block_derivable depth stmts formed.2⟩

end

theorem arg_derivable (arg : ArgDecl) :
    Derivable ArgPhrase.tokens (tokensOf arg.lexemes) fun p => p.arg.bare = arg.bare := by
  intro ts hts
  obtain ⟨place, us, rfl, rest⟩ := map_token_cons.mp hts
  obtain ⟨type, rfl, same⟩ := colonType_derivable arg.type us rest
  exact ⟨⟨⟨arg.name.text, place⟩, type⟩, rfl, by simp [ArgPhrase.arg, ArgDecl.bare, same, Name.bare]⟩

theorem FuncPhrase.derivable (f : Func) (formed : BlockFormed f.body) :
    Derivable FuncPhrase.tokens (tokensOf f.lexemes) fun p => p.func.bare = f.bare := by
  intro ts hts
  simp only [Func.lexemes, tokensOf_append, tokensOf_word, tokensOf_space, tokensOf_token, tokensOf_mark,
    tokensOf_commas, tokensOf_lines, tokensOf_nil, List.map_map, List.cons_append, List.nil_append,
    List.append_assoc, map_token_append, map_token_cons, map_token_nil] at hts
  obtain ⟨word, _, rfl, place, _, rfl, lparen, _, rfl, us, _, rfl, list, rparen, _, rfl, vs, _, rfl, dict,
    lbrace, _, rfl, newline, _, rfl, ws, _, rfl, block, rbrace, _, rfl, rfl⟩ := hts
  obtain ⟨args, rfl, sameArgs⟩ := Derivable.items (fun arg _ => arg_derivable arg) us list
  have given : ∃ attrs : Option (Span × AttrsPhrase),
      vs = optional (fun attrs => .word .attributes attrs.1 :: attrs.2.tokens) attrs ∧
        (attrsOf (attrs.map Prod.snd)).map AttrEntry.bare = f.attrs.map AttrEntry.bare := by
    cases attrs : f.attrs with
    | nil =>
      rw [attrs] at dict
      exact ⟨none, map_token_nil.mp dict, rfl⟩
    | cons e others =>
      rw [attrs, if_neg (by simp)] at dict
      obtain ⟨word, xs, rfl, entries⟩ := map_token_cons.mp dict
      obtain ⟨_ | attrs, rfl, same⟩ := attrs_derivable (e :: others) xs entries
      · cases same
      · exact ⟨some (word, attrs), rfl, same⟩
  obtain ⟨attrs, rfl, sameAttrs⟩ := given
  obtain ⟨body, tokens, sameBody⟩ := Derivable.block (block_derivable 1 f.body formed)
    (⟨.newline, newline⟩ :: ws) (by rw [List.map_cons, block, tokensOf_block])
  refine ⟨⟨word, ⟨f.name.text, place⟩, lparen, args, rparen, attrs, lbrace, body, rbrace⟩, ?_, ?_⟩
  · simp [FuncPhrase.tokens, ← tokens, Lexed.word, Lexed.symbol, Lexed.mark]
  · simp [FuncPhrase.func, Func.bare, bareBlock_eq_map, ← sameArgs, ← sameAttrs, ← sameBody, Name.bare,
      Function.comp_def]

theorem tokensOf_funcs (fs : List Func) : tokensOf (funcsLexemes fs) =
    fs.flatMap fun f => tokensOf f.lexemes ++ [.newline] := by
  induction fs with
  | nil => rfl
  | cons f fs ih =>
    cases fs with
    | nil => simp [funcsLexemes]
    | cons g fs =>
      rw [funcsLexemes, tokensOf_append, tokensOf_lines, ih]
      simp

theorem SourcePhrase.derivable (fs : List Func) (formed : ∀ f ∈ fs, BlockFormed f.body) :
    Derivable SourcePhrase.tokens (tokensOf (funcsLexemes fs)) fun source =>
      ∃ gs : List Func, source.items.map ItemPhrase.item = gs.map .func ∧
        gs.map Func.bare = fs.map Func.bare := by
  rw [tokensOf_funcs]
  intro ts hts
  obtain ⟨lines, rfl, same⟩ := Derivable.lines (fun f hf => FuncPhrase.derivable f (formed f hf)) ts hts
  refine ⟨lines.map .func, (lines.tokens_map ItemPhrase.func ItemPhrase.tokens).symm, lines.items.map FuncPhrase.func, ?_,
    by simpa [Function.comp_def] using same⟩
  rw [lines.items_map, List.map_map, List.map_map]
  rfl

/-- Functions that are written out of proper tokens are read back. -/
theorem parse_spell (fs : List Func) (formed : ∀ f ∈ fs, BlockFormed f.body)
    (proper : ∀ t ∈ tokensOf (funcsLexemes fs), t.Proper ∧ t.Plain) :
    ∃ (gs : List Func) (span : Span), gs.map Func.bare = fs.map Func.bare ∧
      parse (String.ofList (spell (funcsLexemes fs))) = ⟨some ⟨gs.map .func, span⟩, []⟩ := by
  obtain ⟨tokens, bad⟩ := lexFrom_spell (funcsLexemes_starts fs).1 (fun t ht => (proper t ht).1) 0
  have all : (tokensOf (funcsLexemes fs)).filter (¬ ·.Plain) = [] :=
    List.filter_eq_nil_iff.mpr fun t ht => by simpa using (proper t ht).2
  rw [List.filter_eq_self.mpr fun t ht => by simpa using (proper t ht).2] at tokens
  rw [all, List.map_nil, List.map_eq_nil_iff] at bad
  have read : lex (String.ofList (spell (funcsLexemes fs))) =
      lexFrom 0 (spell (funcsLexemes fs)) := by
    rw [lex, String.toList_ofList]
  obtain ⟨source, derived, gs, items, same⟩ := SourcePhrase.derivable fs formed _ tokens
  have parsed := derived ▸ source.parsed (byteLength (spell (funcsLexemes fs)))
  refine ⟨gs, (source.program (byteLength (spell (funcsLexemes fs)))).span, same, ?_⟩
  simp only [parse, read, bad, String.toList_ofList, List.map_nil, parsed, SourcePhrase.program, items]

end Stmts

end Staging
