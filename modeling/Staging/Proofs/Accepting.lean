import Staging.Proofs.Grammatical

namespace Staging

open Attempt (Gives Takes Accepts bind_fails)

/-- Items on lines of their own. -/
def parseLines {α : Type} (p : Attempt α) : Attempt (List α) := do
  parseNewlines
  let body ← Attempt.sepBy parseBreak p
  parseNewlines
  return body

theorem parseBlock_eq (stmt : Attempt Stmt) :
    parseBlock stmt = between .lbrace .rbrace (parseLines stmt) :=
  rfl

section Lines

theorem newlines_takes : parseNewlines.Takes (List.map Lexed.line) fun _ => () := by
  intro ts _ rest h
  have single : parseNewline.Takes (fun span => [.line span]) fun _ => () := by
    intro ts _ rest h
    obtain ⟨span, rfl⟩ := gives_newline.mp h
    exact ⟨span, rfl, rfl⟩
  obtain ⟨_, mid, many, made⟩ := gives_bind.mp h
  obtain ⟨rfl, rfl⟩ := gives_pure.mp made
  obtain ⟨newlines, rfl, rfl⟩ := single.many _ _ _ many
  exact ⟨newlines, by simp [← List.map_eq_flatMap], rfl⟩

theorem newlines_gives (newlines : List Span) {r : List Lexed} (h : NoBreak r) :
    parseNewlines.Gives (newlines.map .line ++ r) () r := by
  have single (span : Span) : parseNewline.Accepts (fun span => [.line span]) (fun _ => ()) Always span :=
    fun rest _ => gives_newline.mpr ⟨span, rfl⟩
  have many := Accepts.many newlines NoBreak (fun span _ => single span)
    (fun _ => by simp) (fun _ _ => trivial) (fun _ _ => trivial) (fun _ hr => token_fails hr) r h
  rw [← List.map_eq_flatMap] at many
  exact gives_bind.mpr ⟨_, _, many, gives_pure.mpr ⟨rfl, rfl⟩⟩

theorem break_takes : parseBreak.Takes Break.tokens fun _ => () := by
  intro ts _ rest h
  obtain ⟨_, mid, first, more⟩ := gives_bind.mp h
  obtain ⟨span, rfl⟩ := gives_newline.mp first
  obtain ⟨newlines, rfl, -⟩ := newlines_takes _ _ _ more
  exact ⟨⟨span, newlines⟩, rfl, rfl⟩

theorem break_gives (b : Break) {r : List Lexed} (h : NoBreak r) :
    parseBreak.Gives (b.tokens ++ r) () r :=
  gives_bind.mpr ⟨(), _, gives_newline.mpr ⟨b.first, rfl⟩, newlines_gives b.more h⟩

variable {α τ : Type} {p : Attempt α} {tokens : τ → List Lexed} {value : τ → α}
  {close : List Lexed → Prop}

theorem lines_takes (hp : p.Takes tokens value) :
    (parseLines p).Takes (Lines.tokens tokens) fun lines => lines.items.map value := by
  intro ts as rest h
  simp only [parseLines, gives_bind, gives_pure] at h
  obtain ⟨_, _, first, body, _, items, _, _, last, rfl, rfl⟩ := h
  obtain ⟨before, rfl, -⟩ := newlines_takes _ _ _ first
  obtain ⟨after, rfl, -⟩ := newlines_takes _ _ _ last
  rcases items.of_orElse with items | ⟨-, items⟩
  · obtain ⟨⟨t, others⟩, rfl, rfl⟩ := break_takes.sepBy1 hp _ _ _ items
    exact ⟨.full before t others after, by simp [Lines.tokens, laterLines], by simp [Lines.items]⟩
  · obtain ⟨rfl, rfl⟩ := gives_pure.mp items
    exact ⟨.blank (before ++ after), by simp [Lines.tokens], rfl⟩

theorem lines_accepts (apart : Separable tokens close) {lines : Lines τ}
    (each : ∀ t ∈ lines.items, p.Accepts tokens value (LineEnds close) t)
    (stop : ∀ r, close r → (p r).value = none) :
    (parseLines p).Accepts (Lines.tokens tokens) (fun lines => lines.items.map value) close lines := by
  intro rest hrest
  simp only [parseLines, gives_bind, gives_pure]
  cases lines with
  | blank newlines =>
    refine ⟨(), rest, newlines_gives newlines (apart.stop rest hrest), [], rest, ?_, (), rest,
      newlines_gives [] (apart.stop rest hrest), rfl, rfl⟩
    exact Gives.orElse_right (bind_fails (stop rest hrest)) (gives_pure.mpr ⟨rfl, rfl⟩)
  | full before first others after =>
    have whole : (Lines.full before first others after).tokens tokens ++ rest =
        before.map .line ++ ((tokens first ++ laterLines tokens others) ++ (after.map .line ++ rest)) := by
      simp [Lines.tokens]
    rw [whole]
    have start : NoBreak ((tokens first ++ laterLines tokens others) ++ (after.map .line ++ rest)) := by
      rw [List.append_assoc]
      exact apart.inline first _
    -- Behind the last item there are line ends only, which stay where they are.
    have items : (Attempt.sepBy1 parseBreak p).Gives
        ((tokens first ++ laterLines tokens others) ++ (after.map .line ++ rest))
        (value first :: others.map fun other => value other.2) (after.map .line ++ rest) := by
      refine Accepts.sepBy1 Break.tokens (fun r => r = after.map .line ++ rest) (each first (by simp [Lines.items]))
        (fun other h => each other.2 (List.mem_cons_of_mem _ (List.mem_map_of_mem h)))
        (fun b t r => break_gives b (apart.inline t r)) (fun _ => List.cons_ne_nil _ _)
        (fun _ _ => .inl rfl) ?_ ?_ _ rfl
      · rintro r rfl
        exact lineEnds_later tokens [] after hrest
      · rintro r rfl
        cases after with
        | nil => exact bind_fails (bind_fails (token_fails (apart.stop rest hrest)))
        | cons span after =>
          have taken := break_gives ⟨span, after⟩ (apart.stop rest hrest)
          refine Attempt.fails_of_not_gives fun a rest found => ?_
          obtain ⟨_, mid, first, second⟩ := gives_bind.mp found
          obtain ⟨-, rfl⟩ := Prod.mk.inj (Option.some.inj (taken.symm.trans first))
          cases (stop _ hrest).symm.trans second
    exact ⟨(), _, newlines_gives before start, _, _, Gives.orElse_left items, (), rest,
      newlines_gives after (apart.stop rest hrest), by simp [Lines.items], rfl⟩

end Lines

section Stmts

theorem spanOf_taken (xs : List Lexed) {ts rest : List Lexed} (h : ts = xs ++ rest) :
    spanOf (ts.take (ts.length - rest.length)) = spanOf xs := by
  rw [h, take_taken]

theorem loop_takes {stmt : Attempt Stmt} (h : stmt.Takes StmtPhrase.tokens StmtPhrase.stmt) :
    (parseLoop stmt).Takes (fun p : LoopHead × Lines StmtPhrase × Span =>
        p.1.tokens ++ (p.2.1.tokens StmtPhrase.tokens ++ [.mark .rbrace p.2.2]))
      (fun p results attrs span => .loop results p.1.iv p.1.lower p.1.upper
        (p.2.1.items.map StmtPhrase.stmt) attrs span) := by
  intro ts make rest found
  simp only [parseLoop, gives_bind, gives_keyword, gives_value, gives_mark, gives_int, gives_pure,
    parseBlock_eq] at found
  obtain ⟨_, _, ⟨word, rfl⟩, iv, _, rfl, _, _, ⟨equals, rfl⟩, lower, _, ⟨lowerPlace, rfl⟩, _, _,
    ⟨upTo, rfl⟩, upper, _, ⟨upperPlace, rfl⟩, _, _, block, rfl, rfl⟩ := found
  obtain ⟨⟨lbrace, body, rbrace⟩, rfl, rfl⟩ := between_takes (lines_takes h) _ _ _ block
  exact ⟨(⟨word, iv, equals, lower, lowerPlace, upTo, upper, upperPlace, lbrace⟩, body, rbrace),
    by simp [LoopHead.tokens], rfl⟩

theorem stmt_takes (depth : Nat) :
    (parseStmt depth).Takes StmtPhrase.tokens StmtPhrase.stmt := by
  induction depth with
  | zero => rintro ts stmt rest ⟨⟩
  | succ depth ih =>
    intro ts stmt rest found
    simp only [parseStmt, gives_spanned, gives_bind, gives_pure] at found
    obtain ⟨_, ⟨_, _, named, _, _, making, _, _, dict, rfl, rfl⟩, rfl⟩ := found
    obtain ⟨results, rfl, rfl⟩ := results_takes _ _ _ named
    obtain ⟨attrs, rfl, rfl⟩ := attrs_takes _ _ _ dict
    rcases making.of_orElse with making | ⟨-, making⟩
    · obtain ⟨_, _, taken, made⟩ := gives_bind.mp making
      obtain ⟨rfl, rfl⟩ := gives_pure.mp made
      obtain ⟨op, rfl, rfl⟩ := parseOp_takes _ _ _ taken
      refine ⟨.op results op attrs, by simp [StmtPhrase.tokens], ?_⟩
      rw [spanOf_taken (StmtPhrase.op results op attrs).tokens (by simp [StmtPhrase.tokens])]
      rfl
    · obtain ⟨⟨head, body, rbrace⟩, rfl, rfl⟩ := loop_takes ih _ _ _ making
      refine ⟨.loop results head body rbrace attrs, by simp [StmtPhrase.tokens, bodyTokens_eq], ?_⟩
      rw [spanOf_taken (StmtPhrase.loop results head body rbrace attrs).tokens
        (by simp [StmtPhrase.tokens, bodyTokens_eq]), StmtPhrase.stmt, bodyStmts_eq]

theorem stmt_fails (depth : Nat) (r : List Lexed) (h : Closes r) : (parseStmt depth r).value = none := by
  refine Attempt.fails_of_not_gives fun stmt rest taken => ?_
  obtain ⟨p, rfl, -⟩ := stmt_takes depth _ _ _ taken
  rcases p.next_tokens rest with ⟨_, first⟩ | ⟨_, first⟩ <;> cases h.symm.trans first

theorem length_le_lines {τ : Type} (tokens : τ → List Lexed) {p : τ} {body : Lines τ}
    (h : p ∈ body.items) : (tokens p).length ≤ (body.tokens tokens).length := by
  cases body with
  | blank newlines => cases h
  | full before first others after =>
    rcases List.mem_cons.mp h with rfl | h
    · simp only [Lines.tokens, List.length_append]
      omega
    · obtain ⟨other, hother, rfl⟩ := List.mem_map.mp h
      obtain ⟨before, after, rfl⟩ := List.append_of_mem hother
      simp only [Lines.tokens, laterLines, List.flatMap_append, List.flatMap_cons, List.length_append]
      omega

/-- A block is taken if the statements in it are. -/
theorem stmts_accepts {depth : Nat} {body : Lines StmtPhrase}
    (each : ∀ p ∈ body.items,
      (parseStmt depth).Accepts StmtPhrase.tokens StmtPhrase.stmt StmtEnds p) :
    (parseLines (parseStmt depth)).Accepts (Lines.tokens StmtPhrase.tokens)
      (fun body => body.items.map StmtPhrase.stmt) Closes body :=
  lines_accepts stmts_separable (fun p hp => (each p hp).mono fun _ => LineEnds.stmtEnds)
    (stmt_fails depth)

theorem loop_accepts {depth : Nat} {head : LoopHead} {body : Lines StmtPhrase} {rest : List Lexed}
    (each : ∀ p ∈ body.items,
      (parseStmt depth).Accepts StmtPhrase.tokens StmtPhrase.stmt StmtEnds p) (rbrace : Span) :
    (parseLoop (parseStmt depth)).Gives
      (head.tokens ++ (body.tokens StmtPhrase.tokens ++ .mark .rbrace rbrace :: rest))
      (fun results attrs span => .loop results head.iv head.lower head.upper
        (body.items.map StmtPhrase.stmt) attrs span) rest := by
  have block := between_accepts .lbrace .rbrace (stmts_accepts each) closes_rbrace head.lbrace rbrace
    rest
  simp only [parseLoop, gives_bind, gives_keyword, gives_value, gives_mark, gives_int, gives_pure,
    parseBlock_eq]
  exact ⟨(), _, ⟨head.word, rfl⟩, _, _, rfl, (), _, ⟨head.equals, rfl⟩, _, _, ⟨head.lowerPlace, rfl⟩,
    (), _, ⟨head.upTo, rfl⟩, _, _, ⟨head.upperPlace, rfl⟩, _, _, block, rfl, rfl⟩

theorem op_fails_on_loop (head : LoopHead) (r : List Lexed) :
    (parseOp (head.tokens ++ r)).value = none := by
  refine Attempt.fails_of_not_gives fun op rest taken => ?_
  obtain ⟨op, same, -⟩ := parseOp_takes _ _ _ taken
  exact op.noLoop head same.symm

theorem StmtPhrase.accepted (depth : Nat) (p : StmtPhrase) (deep : p.tokens.length ≤ depth) :
    (parseStmt depth).Accepts tokens stmt StmtEnds p := by
  induction depth generalizing p with
  | zero =>
    rcases p.next_tokens [] with ⟨_, first⟩ | ⟨_, first⟩ <;>
      simp [List.length_eq_zero_iff.mp (Nat.le_zero.mp deep)] at first
  | succ depth ih =>
    intro rest hrest
    simp only [parseStmt, gives_spanned, gives_bind, gives_pure]
    rw [take_taken]
    cases p with
    | op results op attrs =>
      have whole : (StmtPhrase.op results op attrs).tokens ++ rest =
          optional ResultsPhrase.tokens results ++ (op.tokens ++
            (optional AttrsPhrase.tokens attrs ++ rest)) := by
        simp [tokens]
      rw [whole]
      have operation := op.accepted _ (attrs_opEnds attrs hrest)
      exact ⟨_, ⟨_, _, results_accepts results _ (op_noValue op _), _, _,
        Gives.orElse_left (gives_bind.mpr ⟨_, _, operation, gives_pure.mpr ⟨rfl, rfl⟩⟩), _, _,
        attrs_accepts attrs rest hrest.2, rfl, rfl⟩, rfl⟩
    | loop results head body rbrace attrs =>
      have inside (q : StmtPhrase) (hq : q ∈ body.items) :
          (parseStmt depth).Accepts tokens stmt StmtEnds q := by
        refine ih q ?_
        have := length_le_lines StmtPhrase.tokens hq
        simp only [tokens, bodyTokens_eq, List.length_append, List.length_cons] at deep
        omega
      have whole : (StmtPhrase.loop results head body rbrace attrs).tokens ++ rest =
          optional ResultsPhrase.tokens results ++ (head.tokens ++ (body.tokens tokens ++
            .mark .rbrace rbrace :: (optional AttrsPhrase.tokens attrs ++ rest))) := by
        simp [tokens, bodyTokens_eq]
      rw [whole]
      refine ⟨_, ⟨_, _, results_accepts results _ (fun _ value => by cases value), _, _,
        Gives.orElse_right (bind_fails (op_fails_on_loop head _)) (loop_accepts inside rbrace), _, _,
        attrs_accepts attrs rest hrest.2, rfl, rfl⟩, ?_⟩
      rw [stmt, bodyStmts_eq]

end Stmts

section Items

theorem args_takes : (between .lparen .rparen (.sepBy parseComma parseArg)).Takes
    (fun t : Span × Option (Series ArgPhrase) × Span => .mark .lparen t.1 ::
      (optional (Series.tokens ArgPhrase.tokens) t.2.1 ++ [.mark .rparen t.2.2]))
    (fun t => (itemsOf t.2.1).map ArgPhrase.arg) :=
  between_takes parseArg_exact.takes.sepBy

theorem args_accepts (args : Option (Series ArgPhrase)) (lparen rparen : Span) (rest : List Lexed) :
    (between .lparen .rparen (.sepBy parseComma parseArg)).Gives
      (.mark .lparen lparen :: (optional (Series.tokens ArgPhrase.tokens) args ++
        .mark .rparen rparen :: rest)) ((itemsOf args).map ArgPhrase.arg) rest :=
  between_accepts .lparen .rparen (Accepts.sepBy (fun r => next r = some (.mark .rparen)) args
    parseArg_exact.accepts (fun r hr comma => by cases hr.symm.trans comma)
    fun r hr => bind_fails (value_fails fun _ value => by cases hr.symm.trans value))
    (fun _ _ => rfl) lparen rparen rest

theorem funcAttrs_takes : (orEmpty do
      parseKeyword .attributes
      parseAttrs).Takes
    (optional fun attrs : Span × AttrsPhrase => .word .attributes attrs.1 :: attrs.2.tokens)
    (fun attrs => attrsOf (attrs.map Prod.snd)) := by
  have given : (do
      parseKeyword .attributes
      parseAttrs).Takes (fun attrs : Span × AttrsPhrase => .word .attributes attrs.1 :: attrs.2.tokens)
      fun attrs => attrs.2.attrs := by
    intro ts attrs rest h
    simp only [gives_bind, gives_keyword] at h
    obtain ⟨_, _, ⟨word, rfl⟩, dict⟩ := h
    obtain ⟨attrs, rfl, rfl⟩ := parseAttrs_takes _ _ _ dict
    exact ⟨(word, attrs), rfl, rfl⟩
  intro ts attrs rest h
  obtain ⟨attrs, rfl, rfl⟩ := given.orEmpty _ _ _ h
  exact ⟨attrs, rfl, by cases attrs <;> rfl⟩

theorem funcAttrs_accepts (attrs : Option (Span × AttrsPhrase)) : (orEmpty do
      parseKeyword .attributes
      parseAttrs).Accepts
    (optional fun attrs : Span × AttrsPhrase => .word .attributes attrs.1 :: attrs.2.tokens)
    (fun attrs => attrsOf (attrs.map Prod.snd)) (fun r => next r = some (.mark .lbrace)) attrs := by
  have given (attrs : Span × AttrsPhrase) : (do
      parseKeyword .attributes
      parseAttrs).Accepts (fun attrs : Span × AttrsPhrase => .word .attributes attrs.1 :: attrs.2.tokens)
      (fun attrs => attrs.2.attrs) Always attrs :=
    fun rest _ => gives_bind.mpr ⟨(), _, gives_keyword.mpr ⟨attrs.1, rfl⟩,
      parseAttrs_accepts attrs.2 rest trivial⟩
  have whole : (orEmpty do
      parseKeyword .attributes
      parseAttrs).Accepts
      (optional fun attrs : Span × AttrsPhrase => .word .attributes attrs.1 :: attrs.2.tokens)
      (fun attrs => (attrs.map fun attrs => attrs.2.attrs).getD [])
      (fun r => next r = some (.mark .lbrace)) attrs :=
    Accepts.orEmpty Always (fun attrs _ => given attrs) (fun _ _ => trivial)
      fun r hr => word_fails fun word => by cases hr.symm.trans word
  cases attrs <;> exact whole

theorem func_takes (depth : Nat) :
    (parseFunc depth).Takes FuncPhrase.tokens fun p => .func p.func := by
  intro ts item rest h
  simp only [parseFunc, gives_spanned, gives_bind, gives_keyword, gives_symbol, gives_pure,
    parseBlock_eq] at h
  obtain ⟨_, ⟨_, _, ⟨word, rfl⟩, name, _, rfl, _, _, list, _, _, dict, _, _, block, rfl, rfl⟩,
    rfl⟩ := h
  obtain ⟨⟨lparen, args, rparen⟩, rfl, rfl⟩ := args_takes _ _ _ list
  obtain ⟨attrs, rfl, rfl⟩ := funcAttrs_takes _ _ _ dict
  obtain ⟨⟨lbrace, body, rbrace⟩, rfl, rfl⟩ := between_takes (lines_takes (stmt_takes depth)) _ _ _ block
  refine ⟨⟨word, name, lparen, args, rparen, attrs, lbrace, body, rbrace⟩, by simp [FuncPhrase.tokens], ?_⟩
  rw [spanOf_taken (FuncPhrase.tokens
    ⟨word, name, lparen, args, rparen, attrs, lbrace, body, rbrace⟩) (by simp [FuncPhrase.tokens])]
  rfl

theorem func_accepts {depth : Nat} (p : FuncPhrase) (deep : p.tokens.length ≤ depth) :
    (parseFunc depth).Accepts FuncPhrase.tokens (fun p => .func p.func) Always p := by
  intro rest _
  have inside (q : StmtPhrase) (hq : q ∈ p.body.items) :
      (parseStmt depth).Accepts StmtPhrase.tokens StmtPhrase.stmt StmtEnds q := by
    refine q.accepted depth ?_
    have := length_le_lines StmtPhrase.tokens hq
    simp only [FuncPhrase.tokens, List.length_append, List.length_cons] at deep
    omega
  have block := between_accepts .lbrace .rbrace (stmts_accepts inside) closes_rbrace p.lbrace p.rbrace
    rest
  simp only [parseFunc, gives_spanned, gives_bind, gives_keyword, gives_symbol, gives_pure,
    parseBlock_eq]
  rw [take_taken]
  have whole : p.tokens ++ rest = .word .func p.word :: .symbol p.name :: .mark .lparen p.lparen ::
      (optional (Series.tokens ArgPhrase.tokens) p.args ++ .mark .rparen p.rparen ::
        (optional (fun attrs => .word .attributes attrs.1 :: attrs.2.tokens) p.attrs ++
          .mark .lbrace p.lbrace :: (p.body.tokens StmtPhrase.tokens ++
            .mark .rbrace p.rbrace :: rest))) := by
    simp [FuncPhrase.tokens]
  rw [whole]
  exact ⟨_, ⟨(), _, ⟨p.word, rfl⟩, p.name, _, rfl, _, _, args_accepts p.args p.lparen p.rparen _, _, _,
    funcAttrs_accepts p.attrs _ rfl, _, _, block, rfl, rfl⟩, rfl⟩

@[simp] theorem gives_settingValue {found : SettingValue × Span} {ts rest : List Lexed} :
    parseSettingValue.Gives ts found rest ↔ ts = ⟨found.1.token, found.2⟩ :: rest := by
  have literal : parseSettingLiteral.Gives ts found rest ↔
      (∀ name, found.1 ≠ .ident name) ∧ ts = ⟨found.1.token, found.2⟩ :: rest := by
    unfold parseSettingLiteral
    rw [gives_take]
    constructor
    · rintro ⟨⟨token, span⟩, rfl, taken⟩
      split at taken
      all_goals first | (next written => cases written; cases taken; exact ⟨nofun, rfl⟩) | cases taken
    · rintro ⟨noIdent, rfl⟩
      obtain ⟨v | (_ | _) | s | n, place⟩ := found
      · exact ⟨_, rfl, rfl⟩
      · exact ⟨_, rfl, rfl⟩
      · exact ⟨_, rfl, rfl⟩
      · exact ⟨_, rfl, rfl⟩
      · exact absurd rfl (noIdent n)
  constructor
  · intro h
    rcases h.of_orElse with h | ⟨-, h⟩
    · exact (literal.mp h).2
    · obtain ⟨n, mid, taken, made⟩ := gives_bind.mp h
      obtain ⟨rfl, rfl⟩ := gives_pure.mp made
      exact gives_ident.mp taken
  · rintro rfl
    obtain ⟨v, place⟩ := found
    cases v with
    | ident name =>
      refine Gives.orElse_right rfl (gives_bind.mpr ⟨⟨name, place⟩, rest, gives_ident.mpr rfl, ?_⟩)
      exact gives_pure.mpr ⟨rfl, rfl⟩
    | _ => exact Gives.orElse_left (literal.mpr ⟨nofun, rfl⟩)

theorem setting_exact : parseSetting.Exact SettingPhrase.tokens fun p => .setting p.setting := by
  intro ts item rest
  simp only [parseSetting, gives_spanned, gives_bind, gives_keyword, gives_ident, gives_mark,
    gives_settingValue, gives_pure]
  constructor
  · rintro ⟨_, ⟨_, _, ⟨word, rfl⟩, name, _, rfl, _, _, ⟨equals, rfl⟩, v, _, rfl, rfl, rfl⟩, rfl⟩
    exact ⟨⟨word, name, equals, v.1, v.2⟩, rfl, congrArg (fun span => Item.setting ⟨name, v.1, v.2, span⟩)
      (spanOf_taken _ rfl)⟩
  · rintro ⟨p, rfl, rfl⟩
    exact ⟨_, ⟨(), _, ⟨p.word, rfl⟩, p.name, _, rfl, (), _, ⟨p.equals, rfl⟩, (p.value, p.place), _, rfl,
      rfl, rfl⟩, congrArg (fun span => Item.setting ⟨p.name, p.value, p.place, span⟩) (spanOf_taken _ rfl)⟩

theorem item_takes (depth : Nat) :
    (parseSetting.orElse (parseFunc depth)).Takes ItemPhrase.tokens ItemPhrase.item := by
  intro ts item rest h
  rcases h.of_orElse with h | ⟨-, h⟩
  · obtain ⟨p, rfl, rfl⟩ := setting_exact.takes _ _ _ h
    exact ⟨.setting p, rfl, rfl⟩
  · obtain ⟨p, rfl, rfl⟩ := func_takes depth _ _ _ h
    exact ⟨.func p, rfl, rfl⟩

theorem item_accepts {depth : Nat} (p : ItemPhrase) (deep : p.tokens.length ≤ depth) :
    (parseSetting.orElse (parseFunc depth)).Accepts ItemPhrase.tokens ItemPhrase.item Always p := by
  intro rest _
  cases p with
  | setting p => exact Gives.orElse_left (setting_exact.accepts p rest trivial)
  | func p =>
    refine Gives.orElse_right ?_ (func_accepts p deep rest trivial)
    refine Attempt.fails_of_not_gives fun item rest taken => ?_
    obtain ⟨q, same, -⟩ := setting_exact.takes _ _ _ taken
    cases congrArg List.head? same

@[simp] theorem gives_finish {ts rest : List Lexed} {u : Unit} :
    Attempt.finish.Gives ts u rest ↔ ts = [] ∧ rest = [] := by
  unfold Gives
  cases ts <;> simp [Attempt.finish, eq_comm]

/-- The items of a source text are those on its lines, with nothing behind them. -/
theorem gives_items {depth : Nat} {ts : List Lexed} {items : List Item} {rest : List Lexed} :
    (parseItems depth).Gives ts items rest ↔
      (parseLines (parseSetting.orElse (parseFunc depth))).Gives ts items [] ∧ rest = [] := by
  simp only [parseItems, parseLines, gives_bind, gives_finish, gives_pure]
  constructor
  · rintro ⟨_, _, before, found, _, lines, _, _, after, _, _, ⟨rfl, rfl⟩, rfl, rfl⟩
    exact ⟨⟨_, _, before, found, _, lines, _, _, after, rfl, rfl⟩, rfl⟩
  · rintro ⟨⟨_, _, before, found, _, lines, _, _, after, rfl, rfl⟩, rfl⟩
    exact ⟨_, _, before, found, _, lines, _, _, after, (), _, ⟨rfl, rfl⟩, rfl, rfl⟩

theorem item_length_le {p : ItemPhrase} {source : SourcePhrase} (h : p ∈ source.items) :
    p.tokens.length ≤ source.tokens.length :=
  length_le_lines ItemPhrase.tokens h

theorem SourcePhrase.accepted (source : SourcePhrase) :
    (parseItems source.tokens.length).Gives source.tokens (source.items.map ItemPhrase.item) [] := by
  have each (p : ItemPhrase) (hp : p ∈ source.items) :
      (parseSetting.orElse (parseFunc source.tokens.length)).Accepts ItemPhrase.tokens ItemPhrase.item
        (LineEnds (· = [])) p :=
    (item_accepts p (item_length_le hp)).mono fun _ _ => trivial
  have taken := lines_accepts items_separable each (fun r hr => by subst hr; rfl) [] rfl
  rw [List.append_nil] at taken
  exact gives_items.mpr ⟨taken, rfl⟩

theorem derivation_of_parseTokens {ts : List Lexed} {size : Nat} {program : Program}
    (h : parseTokens ts size = .ok program) :
    ∃ source : SourcePhrase, source.tokens = ts ∧ source.program size = program := by
  simp only [parseTokens] at h
  split at h
  next items rest found =>
    obtain ⟨taken, -⟩ := gives_items.mp found
    obtain ⟨source, rfl, rfl⟩ := lines_takes (item_takes _) _ _ _ taken
    rw [List.append_nil] at h ⊢
    exact ⟨source, rfl, Except.ok.inj h⟩
  next => cases h

theorem SourcePhrase.parsed (source : SourcePhrase) (size : Nat) :
    parseTokens source.tokens size = .ok (source.program size) := by
  have accepted : (parseItems source.tokens.length source.tokens).value = some _ := source.accepted
  unfold parseTokens
  simp only [accepted]
  rfl

/-- The tokens of a source text form a program just when they derive from the grammar. They have one
derivation at most, and the program is the one of that derivation. -/
theorem parseTokens_iff_derivation (ts : List Lexed) (size : Nat) :
    (∀ program, parseTokens ts size = .ok program ↔
      ∃ source : SourcePhrase, source.tokens = ts ∧ source.program size = program) ∧
    ∀ source other : SourcePhrase, source.tokens = ts → other.tokens = ts → source = other := by
  refine ⟨fun program => ⟨derivation_of_parseTokens, ?_⟩, fun source other h h' =>
    SourcePhrase.tokens_injective (h.trans h'.symm)⟩
  rintro ⟨source, rfl, rfl⟩
  exact source.parsed size

end Items

end Staging
