import Staging.Proofs.Phrase

namespace Staging

/-- The token that comes next. -/
def next (ts : List Lexed) : Option Token :=
  ts.head?.map Lexed.token

/-- A phrase can be told from all others by its tokens, wherever `follow` holds of what stands
behind. -/
def Determined {τ : Type} (tokens : τ → List Lexed) (follow : List Lexed → Prop) (a : τ) : Prop :=
  ∀ b r s, follow r → follow s → tokens a ++ r = tokens b ++ s → a = b ∧ r = s

/-- No list goes on. -/
def NoComma (r : List Lexed) : Prop :=
  next r ≠ some (.mark .comma)

/-- Whether an operation can go on with a token. -/
def Token.continuesOp : Token → Bool
  | .mark .comma | .mark .colon | .value _ => true
  | _ => false

/-- An operation does not go on. -/
def OpEnds (r : List Lexed) : Prop :=
  ∀ t, next r = some t → t.continuesOp = false

/-- There is no dictionary. -/
def NoDict (r : List Lexed) : Prop :=
  next r ≠ some (.mark .lbrace)

/-- A statement does not go on. -/
def StmtEnds (r : List Lexed) : Prop :=
  OpEnds r ∧ NoDict r

@[simp] theorem next_nil : next [] = none :=
  rfl

@[simp] theorem next_cons (t : Lexed) (ts : List Lexed) : next (t :: ts) = some t.token :=
  rfl

theorem OpEnds.noComma {r : List Lexed} (h : OpEnds r) : NoComma r :=
  fun comma => by simpa [Token.continuesOp] using h _ comma

section Rules

variable {α τ : Type} {each : α → List Lexed} {tokens : τ → List Lexed}
  {follow follow' : List Lexed → Prop}

theorem Determined.mono {a : τ} (h : Determined tokens follow a) (sub : ∀ r, follow' r → follow r) :
    Determined tokens follow' a :=
  fun b r s hr hs => h b r s (sub r hr) (sub s hs)

theorem Determined.optional {phrase : Option τ}
    (h : ∀ a, phrase = some a → Determined tokens follow a)
    (starts : ∀ a r, ¬ follow (tokens a ++ r)) :
    Determined (Staging.optional tokens) follow phrase := by
  intro other r s hr hs same
  cases phrase with
  | none =>
    cases other with
    | none => exact ⟨rfl, same⟩
    | some b =>
      obtain rfl : r = tokens b ++ s := same
      exact absurd hr (starts b s)
  | some a =>
    cases other with
    | none =>
      obtain rfl : tokens a ++ r = s := same
      exact absurd hs (starts a r)
    | some b =>
      obtain ⟨rfl, rest⟩ := h a rfl b r s hr hs same
      exact ⟨rfl, rest⟩

/-- The items behind the first one, each after its comma. -/
theorem others_determined {others : List (Span × α)}
    (h : ∀ a ∈ others.map Prod.snd, Determined each (fun _ => True) a) :
    Determined (laterItems each) NoComma others := by
  induction others with
  | nil =>
    intro others r s hr hs same
    cases others with
    | nil => exact ⟨rfl, same⟩
    | cons other others =>
      obtain rfl : r = _ := same
      exact absurd rfl hr
  | cons other others ih =>
    obtain ⟨comma, a⟩ := other
    intro others' r s hr hs same
    cases others' with
    | nil =>
      obtain rfl : _ = s := same
      exact absurd rfl hs
    | cons other' others' =>
      obtain ⟨comma', b⟩ := other'
      simp only [laterItems, List.flatMap_cons, List.cons_append, List.cons.injEq, Lexed.mark,
        Lexed.mk.injEq, true_and, List.append_assoc] at same
      obtain ⟨rfl, items⟩ := same
      obtain ⟨rfl, later⟩ := h a (by simp) b _ _ trivial trivial items
      obtain ⟨rfl, rest⟩ := ih (fun a ha => h a (by simp [ha])) others' r s hr hs later
      exact ⟨rfl, rest⟩

theorem Determined.series {series : Series α}
    (h : ∀ a ∈ series.items, Determined each (fun _ => True) a) :
    Determined (Series.tokens each) NoComma series := by
  obtain ⟨first, others⟩ := series
  rintro ⟨first', others'⟩ r s hr hs same
  simp only [Series.tokens, List.append_assoc] at same
  obtain ⟨rfl, later⟩ := h first (by simp [Series.items]) first' _ _ trivial trivial same
  obtain ⟨rfl, rest⟩ := others_determined (fun a ha => h a (List.mem_cons_of_mem _ ha)) others' r s
    hr hs later
  exact ⟨rfl, rest⟩

end Rules

section Lines

variable {α : Type} {each : α → List Lexed} {close : List Lexed → Prop}

/-- No line ends. -/
def NoBreak (r : List Lexed) : Prop :=
  next r ≠ some .newline

/-- A line ends, or the block does. -/
def LineEnds (close : List Lexed → Prop) (r : List Lexed) : Prop :=
  next r = some .newline ∨ close r

theorem newlines_determined (newlines newlines' : List Span) {r s : List Lexed} (hr : NoBreak r)
    (hs : NoBreak s) (same : newlines.map .line ++ r = newlines'.map .line ++ s) :
    newlines = newlines' ∧ r = s := by
  induction newlines generalizing newlines' with
  | nil =>
    cases newlines' with
    | nil => exact ⟨rfl, same⟩
    | cons newline newlines' =>
      obtain rfl : r = _ := same
      exact absurd rfl hr
  | cons newline newlines ih =>
    cases newlines' with
    | nil =>
      obtain rfl : _ = s := same
      exact absurd rfl hs
    | cons newline' newlines' =>
      simp only [List.map_cons, List.cons_append, List.cons.injEq, Lexed.line, Lexed.mk.injEq,
        true_and] at same
      obtain ⟨rfl, later⟩ := same
      obtain ⟨rfl, rest⟩ := ih _ later
      exact ⟨rfl, rest⟩

theorem lineEnds_later (each : α → List Lexed) (others : List (Break × α)) (after : List Span)
    {r : List Lexed} (hr : close r) : LineEnds close (laterLines each others ++ (after.map .line ++ r)) := by
  rcases others with _ | ⟨other, others⟩
  · rcases after with _ | ⟨newline, after⟩
    · exact .inr hr
    · exact .inl rfl
  · exact .inl rfl

/-- How the items of a block are told apart from its line ends and from its end. -/
structure Separable (each : α → List Lexed) (close : List Lexed → Prop) : Prop where
  inline : ∀ a r, NoBreak (each a ++ r)
  inside : ∀ a r, ¬ close (each a ++ r)
  stop : ∀ r, close r → NoBreak r

variable (apart : Separable each close)
include apart

/-- The items behind the first one, each after its line ends, and the line ends behind them. -/
theorem later_determined {others others' : List (Break × α)} {after after' : List Span}
    {r s : List Lexed} (h : ∀ a ∈ others.map Prod.snd, Determined each (LineEnds close) a)
    (hr : close r) (hs : close s)
    (same : laterLines each others ++ (after.map .line ++ r) =
      laterLines each others' ++ (after'.map .line ++ s)) :
    others = others' ∧ after = after' ∧ r = s := by
  induction others generalizing others' with
  | nil =>
    cases others' with
    | nil =>
      obtain ⟨rfl, rest⟩ := newlines_determined _ _ (apart.stop r hr) (apart.stop s hs) same
      exact ⟨rfl, rfl, rest⟩
    | cons other others' =>
      obtain ⟨b, a⟩ := other
      obtain ⟨-, rfl⟩ := newlines_determined _ (b.first :: b.more) (apart.stop r hr)
        (apart.inline a _) (by simpa [laterLines, Break.tokens] using same)
      exact absurd hr (apart.inside a _)
  | cons other others ih =>
    obtain ⟨b, a⟩ := other
    cases others' with
    | nil =>
      obtain ⟨-, rfl⟩ := newlines_determined (b.first :: b.more) _ (apart.inline a _)
        (apart.stop s hs) (by simpa [laterLines, Break.tokens] using same)
      exact absurd hs (apart.inside a _)
    | cons other' others' =>
      obtain ⟨b', a'⟩ := other'
      obtain ⟨breaks, items⟩ := newlines_determined (b.first :: b.more) (b'.first :: b'.more)
        (apart.inline a _) (apart.inline a' _)
        (by simpa [laterLines, Break.tokens] using same)
      obtain rfl : b = b' := by
        cases b
        cases b'
        cases breaks
        rfl
      obtain ⟨rfl, later⟩ :=
        h a (by simp) a' _ _ (lineEnds_later each others after hr) (lineEnds_later each others' after' hs) items
      obtain ⟨rfl, rfl, rest⟩ := ih (fun a ha => h a (by simp [ha])) later
      exact ⟨rfl, rfl, rest⟩

theorem Determined.lines {lines : Lines α}
    (h : ∀ a ∈ lines.items, Determined each (LineEnds close) a) :
    Determined (Lines.tokens each) close lines := by
  intro lines' r s hr hs same
  cases lines with
  | blank newlines =>
    cases lines' with
    | blank newlines' =>
      obtain ⟨rfl, rest⟩ := newlines_determined _ _ (apart.stop r hr) (apart.stop s hs) same
      exact ⟨rfl, rest⟩
    | full before first others after =>
      simp only [Lines.tokens, List.append_assoc] at same
      obtain ⟨-, rfl⟩ := newlines_determined _ _ (apart.stop r hr) (apart.inline first _) same
      exact absurd hr (apart.inside first _)
  | full before first others after =>
    cases lines' with
    | blank newlines' =>
      simp only [Lines.tokens, List.append_assoc] at same
      obtain ⟨-, rfl⟩ := newlines_determined _ _ (apart.inline first _) (apart.stop s hs) same
      exact absurd hs (apart.inside first _)
    | full before' first' others' after' =>
      simp only [Lines.tokens, List.append_assoc] at same
      obtain ⟨rfl, items⟩ :=
        newlines_determined _ _ (apart.inline first _) (apart.inline first' _) same
      obtain ⟨rfl, later⟩ := h first (by simp [Lines.items]) first' _ _ (lineEnds_later each others after hr)
        (lineEnds_later each others' after' hs) items
      obtain ⟨rfl, rfl, rest⟩ := later_determined apart
        (fun a ha => h a (List.mem_cons_of_mem _ ha)) hr hs later
      exact ⟨rfl, rest⟩

end Lines

section Parts

/-- Anything may stand behind. -/
def Always (_ : List Lexed) : Prop :=
  True

/-- No name of a value stands behind. -/
def NoValue (r : List Lexed) : Prop :=
  ∀ name, next r ≠ some (.value name)

theorem OpEnds.noValue {r : List Lexed} (h : OpEnds r) : NoValue r :=
  fun name value => by simpa [Token.continuesOp] using h _ value

theorem OpEnds.noColon {r : List Lexed} (h : OpEnds r) : next r ≠ some (.mark .colon) :=
  fun colon => by simpa [Token.continuesOp] using h _ colon

theorem Name.eq_of_parts {n m : Name} (text : n.text = m.text) (span : n.span = m.span) : n = m := by
  cases n
  cases m
  cases text
  cases span
  rfl

theorem value_determined (n : Name) : Determined (fun n => [.value n]) Always n := by
  rintro m r s - - same
  obtain ⟨head, rest⟩ := List.cons.inj same
  obtain ⟨text, span⟩ := Lexed.mk.inj head
  exact ⟨Name.eq_of_parts (Token.value.inj text) span, rest⟩

theorem TypeExpr.eq_of_lexed {t u : TypeExpr} (h : Lexed.type t = Lexed.type u) : t = u := by
  obtain ⟨token, span⟩ := Lexed.mk.inj h
  cases t with
  | named name =>
    cases u with
    | named name' => exact congrArg _ (Name.eq_of_parts (Token.ident.inj token) span)
    | shaped => cases token
  | shaped shape place =>
    cases u with
    | named => cases token
    | shaped shape' place' =>
      cases token
      cases span
      rfl

theorem type_determined (t : TypeExpr) : Determined (fun t => [.type t]) Always t := by
  rintro u r s - - same
  obtain ⟨head, rest⟩ := List.cons.inj same
  exact ⟨TypeExpr.eq_of_lexed head, rest⟩

theorem typeTokens_determined (type : Span × TypeExpr) : Determined typeTokens Always type := by
  obtain ⟨colon, t⟩ := type
  rintro ⟨colon', u⟩ r s - - same
  obtain ⟨head, tail⟩ := List.cons.inj same
  cases head
  obtain ⟨rfl, rest⟩ := type_determined t u r s trivial trivial tail
  exact ⟨rfl, rest⟩

theorem Attr.eq_of_token {a b : Attr} (h : a.token = b.token) : a = b := by
  rcases a with v | (_ | _) | s <;> rcases b with v' | (_ | _) | s' <;> cases h <;> rfl

theorem SettingValue.eq_of_token {a b : SettingValue} (h : a.token = b.token) : a = b := by
  rcases a with v | (_ | _) | s | n <;> rcases b with v' | (_ | _) | s' | n' <;> cases h <;> rfl

theorem EntryPhrase.determined (p : EntryPhrase) : Determined EntryPhrase.tokens Always p := by
  obtain ⟨key, equals, value, place⟩ := p
  rintro ⟨key', equals', value', place'⟩ r s - - same
  simp only [tokens, List.cons_append, List.nil_append, List.cons.injEq, Lexed.ident, Lexed.mark,
    Lexed.mk.injEq, Token.ident.injEq, true_and] at same
  obtain ⟨⟨text, span⟩, rfl, ⟨token, rfl⟩, rest⟩ := same
  obtain rfl := Name.eq_of_parts text span
  obtain rfl := Attr.eq_of_token token
  exact ⟨rfl, rest⟩

theorem ArgPhrase.determined (p : ArgPhrase) : Determined ArgPhrase.tokens Always p := by
  obtain ⟨name, type⟩ := p
  rintro ⟨name', type'⟩ r s - - same
  obtain ⟨rfl, same'⟩ := value_determined name name' _ _ trivial trivial same
  obtain ⟨rfl, rest⟩ := typeTokens_determined type type' r s trivial trivial same'
  exact ⟨rfl, rest⟩

theorem valueTokens_determined (names : Option (Series Name)) :
    Determined valueTokens OpEnds names :=
  .optional (fun _ _ => (Determined.series fun n _ => value_determined n).mono fun _ => OpEnds.noComma)
    fun _ _ h => h.noValue _ rfl

/-- A list in brackets, which may be empty, is told from what stands behind it. -/
theorem bracketed_determined {α : Type} {each : α → List Lexed} {series : Option (Series α)}
    (close : Mark) (other : close ≠ .comma) (h : ∀ a, Determined each Always a)
    (starts : ∀ a r, next (each a ++ r) ≠ some (.mark close)) :
    Determined (optional (Series.tokens each)) (fun r => next r = some (.mark close)) series := by
  refine .optional (fun _ _ => ?_) fun series r => ?_
  · refine (Determined.series fun a _ => h a).mono fun r hr comma => other ?_
    rw [hr] at comma
    cases comma
    rfl
  · rw [Series.tokens, List.append_assoc]
    exact starts _ _

theorem AttrsPhrase.determined (p : AttrsPhrase) : Determined AttrsPhrase.tokens Always p := by
  obtain ⟨lbrace, entries, rbrace⟩ := p
  rintro ⟨lbrace', entries', rbrace'⟩ r s - - same
  simp only [tokens, List.cons_append, List.append_assoc, List.nil_append, List.cons.injEq, Lexed.mark,
    Lexed.mk.injEq, true_and] at same
  obtain ⟨rfl, same⟩ := same
  obtain ⟨rfl, close⟩ := bracketed_determined .rbrace (by decide) EntryPhrase.determined
    (fun _ _ h => by cases h) entries' _ _ rfl rfl same
  cases close
  exact ⟨rfl, rfl⟩

theorem attrs_determined (p : Option AttrsPhrase) :
    Determined (optional AttrsPhrase.tokens) NoDict p :=
  .optional (fun p _ => (AttrsPhrase.determined p).mono fun _ _ => trivial) fun _ _ h => h rfl

theorem ResultsPhrase.determined (p : ResultsPhrase) : Determined ResultsPhrase.tokens Always p := by
  obtain ⟨names, equals⟩ := p
  rintro ⟨names', equals'⟩ r s - - same
  simp only [tokens, List.append_assoc, List.cons_append, List.nil_append] at same
  obtain ⟨rfl, close⟩ := Determined.series (fun n _ => value_determined n) names' _ _
    (fun h => by cases h) (fun h => by cases h) same
  cases close
  exact ⟨rfl, rfl⟩

theorem results_determined (p : Option ResultsPhrase) :
    Determined (optional ResultsPhrase.tokens) NoValue p :=
  .optional (fun p _ => (ResultsPhrase.determined p).mono fun _ _ => trivial) fun _ _ h => h _ rfl

theorem computeTypes_determined (types : Option (Span × Series TypeExpr)) :
    Determined (optional fun types : Span × Series TypeExpr =>
      .mark .colon types.1 :: types.2.tokens fun t => [.type t]) OpEnds types := by
  refine .optional (fun types _ => ?_) fun _ _ h => h.noColon rfl
  obtain ⟨colon, series⟩ := types
  rintro ⟨colon', series'⟩ r s hr hs same
  obtain ⟨head, tail⟩ := List.cons.inj same
  cases head
  obtain ⟨rfl, rest⟩ := Determined.series (fun t _ => type_determined t) series' r s hr.noComma
    hs.noComma tail
  exact ⟨rfl, rest⟩

theorem copyTarget_determined (target : Option (Span × Name)) :
    Determined (optional fun target : Span × Name => [.mark .comma target.1, .value target.2]) NoComma
      target := by
  refine .optional (fun target _ => ?_) fun _ _ h => h rfl
  obtain ⟨comma, n⟩ := target
  rintro ⟨comma', m⟩ r s - - same
  obtain ⟨head, tail⟩ := List.cons.inj same
  cases head
  obtain ⟨rfl, rest⟩ := value_determined n m r s trivial trivial tail
  exact ⟨rfl, rest⟩

theorem copyType_determined (type : Option (Span × TypeExpr)) :
    Determined (optional typeTokens) OpEnds type :=
  .optional (fun type _ => (typeTokens_determined type).mono fun _ _ => trivial)
    fun _ _ h => h.noColon rfl

theorem copyType_noComma (type : Option (Span × TypeExpr)) {r : List Lexed} (h : OpEnds r) :
    NoComma (optional typeTokens type ++ r) := by
  cases type with
  | none => exact h.noComma
  | some type => exact fun comma => by cases comma

theorem OpPhrase.tokens_eq (p : OpPhrase) : ∃ word ts, p.tokens = .word p.op.keyword word :: ts := by
  cases p <;> exact ⟨_, _, rfl⟩

theorem OpPhrase.determined (p : OpPhrase) : Determined OpPhrase.tokens OpEnds p := by
  intro q r s hr hs same
  have heads : p.op.keyword = q.op.keyword := by
    obtain ⟨_, _, hp⟩ := p.tokens_eq
    obtain ⟨_, _, hq⟩ := q.tokens_eq
    rw [hp, hq] at same
    exact Token.keyword.inj (Lexed.mk.inj (List.cons.inj same).1).1
  cases p with
  | alloc stack word type =>
    cases q with
    | alloc stack' word' type' =>
      obtain rfl : stack = stack' := by
        cases stack <;> cases stack' <;> first | rfl | cases heads
      obtain ⟨head, tail⟩ := List.cons.inj same
      cases head
      obtain ⟨rfl, rest⟩ := typeTokens_determined type type' r s trivial trivial tail
      exact ⟨rfl, rest⟩
    | _ => grind [op, Op.keyword, Conversion.keyword, cases Conversion]
  | constant word value place type =>
    cases q with
    | constant word' value' place' type' =>
      obtain ⟨head, tail⟩ := List.cons.inj same
      cases head
      obtain ⟨head, last⟩ := List.cons.inj tail
      cases head
      obtain ⟨rfl, rest⟩ := typeTokens_determined type type' r s trivial trivial last
      exact ⟨rfl, rest⟩
    | _ => grind [op, Op.keyword, Conversion.keyword, cases Conversion]
  | convert conversion word operand type =>
    cases q with
    | convert conversion' word' operand' type' =>
      obtain rfl : conversion = conversion' := by
        cases conversion <;> cases conversion' <;> first | rfl | cases heads
      obtain ⟨head, tail⟩ := List.cons.inj same
      cases head
      obtain ⟨rfl, last⟩ := value_determined operand operand' _ _ trivial trivial tail
      obtain ⟨rfl, rest⟩ := typeTokens_determined type type' r s trivial trivial last
      exact ⟨rfl, rest⟩
    | _ => grind [op, Op.keyword, Conversion.keyword, cases Conversion]
  | ret word operands =>
    cases q with
    | ret word' operands' =>
      obtain ⟨head, tail⟩ := List.cons.inj same
      cases head
      obtain ⟨rfl, rest⟩ := valueTokens_determined operands operands' r s hr hs tail
      exact ⟨rfl, rest⟩
    | _ => grind [op, Op.keyword, Conversion.keyword, cases Conversion]
  | compute word name place lparen operands rparen types =>
    cases q with
    | compute word' name' place' lparen' operands' rparen' types' =>
      simp only [tokens, List.cons_append, List.append_assoc, List.cons.injEq, Lexed.word,
        Lexed.string, Lexed.mark, Lexed.mk.injEq, Token.string.injEq, true_and] at same
      obtain ⟨rfl, ⟨rfl, rfl⟩, rfl, inside⟩ := same
      obtain ⟨rfl, close⟩ := bracketed_determined .rparen (by decide) value_determined
        (fun _ _ h => by cases h) operands' _ _ rfl rfl inside
      obtain ⟨head, last⟩ := List.cons.inj close
      cases head
      obtain ⟨rfl, rest⟩ := computeTypes_determined types types' r s hr hs last
      exact ⟨rfl, rest⟩
    | _ => grind [op, Op.keyword, Conversion.keyword, cases Conversion]
  | load word memref type =>
    cases q with
    | load word' memref' type' =>
      obtain ⟨head, tail⟩ := List.cons.inj same
      cases head
      obtain ⟨rfl, last⟩ := value_determined memref memref' _ _ trivial trivial tail
      obtain ⟨rfl, rest⟩ := typeTokens_determined type type' r s trivial trivial last
      exact ⟨rfl, rest⟩
    | _ => grind [op, Op.keyword, Conversion.keyword, cases Conversion]
  | store word value comma memref =>
    cases q with
    | store word' value' comma' memref' =>
      obtain ⟨head, tail⟩ := List.cons.inj same
      cases head
      obtain ⟨rfl, target⟩ := value_determined value value' _ _ trivial trivial tail
      obtain ⟨head, last⟩ := List.cons.inj target
      cases head
      obtain ⟨rfl, rest⟩ := value_determined memref memref' _ _ trivial trivial last
      exact ⟨rfl, rest⟩
    | _ => grind [op, Op.keyword, Conversion.keyword, cases Conversion]
  | copy word source target type =>
    cases q with
    | copy word' source' target' type' =>
      simp only [tokens, List.cons_append, List.append_assoc, List.cons.injEq] at same
      obtain ⟨head, source, tail⟩ := same
      cases head
      obtain ⟨rfl, -⟩ := value_determined _ _ [] [] trivial trivial (congrArg (fun t => [t]) source)
      obtain ⟨rfl, last⟩ := copyTarget_determined target target' _ _ (copyType_noComma type hr)
        (copyType_noComma type' hs) tail
      obtain ⟨rfl, rest⟩ := copyType_determined type type' r s hr hs last
      exact ⟨rfl, rest⟩
    | _ => grind [op, Op.keyword, Conversion.keyword, cases Conversion]

theorem LoopHead.determined (p : LoopHead) : Determined LoopHead.tokens Always p := by
  obtain ⟨word, iv, equals, lower, lowerPlace, upTo, upper, upperPlace, lbrace⟩ := p
  rintro ⟨word', iv', equals', lower', lowerPlace', upTo', upper', upperPlace', lbrace'⟩ r s - - same
  simp only [tokens, List.cons_append, List.nil_append, List.cons.injEq, Lexed.word, Lexed.value,
    Lexed.mark, Lexed.int, Lexed.mk.injEq, Token.value.injEq, Token.int.injEq, true_and] at same
  obtain ⟨rfl, ⟨text, span⟩, rfl, ⟨rfl, rfl⟩, rfl, ⟨rfl, rfl⟩, rfl, rest⟩ := same
  obtain rfl := Name.eq_of_parts text span
  exact ⟨rfl, rest⟩

/-- What a block ends with. -/
def Closes (r : List Lexed) : Prop :=
  next r = some (.mark .rbrace)

theorem closes_rbrace (span : Span) (r : List Lexed) : Closes (.mark .rbrace span :: r) :=
  rfl

theorem StmtPhrase.next_tokens (p : StmtPhrase) (r : List Lexed) :
    (∃ name, next (p.tokens ++ r) = some (.value name)) ∨
      ∃ word, next (p.tokens ++ r) = some (.keyword word) := by
  have results (p : ResultsPhrase) (ts : List Lexed) :
      ∃ name, next (p.tokens ++ ts) = some (.value name) := ⟨_, rfl⟩
  cases p with
  | op found op attrs =>
    cases found with
    | none =>
      obtain ⟨word, ts, h⟩ := op.tokens_eq
      exact .inr ⟨op.op.keyword, by simp [tokens, optional, h, Lexed.word]⟩
    | some found =>
      rw [tokens, List.append_assoc]
      exact .inl (results found _)
  | loop found head body rbrace attrs =>
    cases found with
    | none => exact .inr ⟨.loop, rfl⟩
    | some found =>
      rw [tokens, List.append_assoc]
      exact .inl (results found _)

theorem stmts_separable : Separable StmtPhrase.tokens Closes where
  inline p r h := by
    rcases p.next_tokens r with ⟨_, first⟩ | ⟨_, first⟩ <;> cases first.symm.trans h
  inside p r h := by
    rcases p.next_tokens r with ⟨_, first⟩ | ⟨_, first⟩ <;> cases first.symm.trans h
  stop r h newline := by cases h.symm.trans newline

theorem LineEnds.stmtEnds {r : List Lexed} (h : LineEnds Closes r) : StmtEnds r := by
  refine ⟨fun t first => ?_, fun first => ?_⟩
  · rcases h with newline | close
    · cases newline.symm.trans first
      rfl
    · cases close.symm.trans first
      rfl
  · rcases h with newline | close
    · cases newline.symm.trans first
    · cases close.symm.trans first

theorem attrs_opEnds (attrs : Option AttrsPhrase) {r : List Lexed} (h : StmtEnds r) :
    OpEnds (optional AttrsPhrase.tokens attrs ++ r) := by
  cases attrs with
  | none => exact h.1
  | some attrs =>
    rintro t ⟨⟩
    rfl

theorem op_noValue (op : OpPhrase) (r : List Lexed) : NoValue (op.tokens ++ r) := by
  obtain ⟨word, ts, h⟩ := op.tokens_eq
  rw [h]
  exact fun _ value => by cases value

theorem OpPhrase.noLoop (op : OpPhrase) (head : LoopHead) {r s : List Lexed} :
    op.tokens ++ r ≠ head.tokens ++ s := by
  intro same
  obtain ⟨word, ts, h⟩ := op.tokens_eq
  rw [h] at same
  have loop := Token.keyword.inj (Lexed.mk.inj (List.cons.inj same).1).1
  cases op <;> grind [OpPhrase.op, Op.keyword, Conversion.keyword, cases Conversion]

mutual

theorem StmtPhrase.determined : ∀ p : StmtPhrase, Determined StmtPhrase.tokens StmtEnds p
  | .op results op attrs => by
    intro q r s hr hs same
    cases q with
    | op results' op' attrs' =>
      simp only [StmtPhrase.tokens, List.append_assoc] at same
      obtain ⟨rfl, body⟩ := results_determined results results' _ _ (op_noValue op _)
        (op_noValue op' _) same
      obtain ⟨rfl, dict⟩ := op.determined op' _ _ (attrs_opEnds attrs hr) (attrs_opEnds attrs' hs) body
      obtain ⟨rfl, rest⟩ := attrs_determined attrs attrs' r s hr.2 hs.2 dict
      exact ⟨rfl, rest⟩
    | loop results' head body rbrace attrs' =>
      simp only [StmtPhrase.tokens, List.append_assoc] at same
      obtain ⟨rfl, body⟩ := results_determined results results' _ _ (op_noValue op _)
        (fun _ value => by cases value) same
      exact absurd body (op.noLoop head)
  | .loop results head body rbrace attrs => by
    intro q r s hr hs same
    cases q with
    | op results' op attrs' =>
      simp only [StmtPhrase.tokens, List.append_assoc] at same
      obtain ⟨rfl, body⟩ := results_determined results results' _ _ (fun _ value => by cases value)
        (op_noValue op _) same
      exact absurd body.symm (op.noLoop head)
    | loop results' head' body' rbrace' attrs' =>
      simp only [StmtPhrase.tokens, bodyTokens_eq, List.append_assoc, List.cons_append] at same
      obtain ⟨rfl, loop⟩ := results_determined results results' _ _ (fun _ value => by cases value)
        (fun _ value => by cases value) same
      obtain ⟨rfl, inside⟩ := head.determined head' _ _ trivial trivial loop
      obtain ⟨rfl, close⟩ := Determined.lines stmts_separable
        (fun p hp => (body_determined body p hp).mono fun _ => LineEnds.stmtEnds) body' _ _
        (closes_rbrace _ _) (closes_rbrace _ _) inside
      obtain ⟨place, dict⟩ := List.cons.inj close
      cases place
      obtain ⟨rfl, rest⟩ := attrs_determined attrs attrs' r s hr.2 hs.2 dict
      exact ⟨rfl, rest⟩

theorem body_determined : ∀ body : Lines StmtPhrase, ∀ p ∈ body.items,
    Determined StmtPhrase.tokens StmtEnds p
  | .blank _ => fun p hp => by simp [Lines.items] at hp
  | .full _ first others _ => fun p hp => by
    rcases List.mem_cons.mp hp with here | hp
    · exact here ▸ StmtPhrase.determined first
    · exact later_stmts_determined others p hp

theorem later_stmts_determined : ∀ others : List (Break × StmtPhrase), ∀ p ∈ others.map Prod.snd,
    Determined StmtPhrase.tokens StmtEnds p
  | [] => fun p hp => by simp at hp
  | (_, stmt) :: others => fun p hp => by
    rcases List.mem_cons.mp hp with here | hp
    · exact here ▸ StmtPhrase.determined stmt
    · exact later_stmts_determined others p hp

end

theorem funcAttrs_determined (attrs : Option (Span × AttrsPhrase)) :
    Determined (optional fun attrs : Span × AttrsPhrase => .word .attributes attrs.1 :: attrs.2.tokens)
      (fun r => next r = some (.mark .lbrace)) attrs := by
  refine .optional (fun attrs _ => ?_) fun _ _ h => by cases h
  obtain ⟨word, dict⟩ := attrs
  rintro ⟨word', dict'⟩ r s - - same
  obtain ⟨head, tail⟩ := List.cons.inj same
  cases head
  obtain ⟨rfl, rest⟩ := dict.determined dict' r s trivial trivial tail
  exact ⟨rfl, rest⟩

theorem FuncPhrase.determined (p : FuncPhrase) : Determined FuncPhrase.tokens Always p := by
  obtain ⟨word, name, lparen, args, rparen, attrs, lbrace, body, rbrace⟩ := p
  rintro ⟨word', name', lparen', args', rparen', attrs', lbrace', body', rbrace'⟩ r s - - same
  simp only [tokens, List.append_assoc, List.cons_append, List.nil_append, List.cons.injEq, Lexed.word,
    Lexed.symbol, Lexed.mark, Lexed.mk.injEq, Token.symbol.injEq, true_and] at same
  obtain ⟨rfl, ⟨text, span⟩, rfl, list⟩ := same
  obtain rfl := Name.eq_of_parts text span
  obtain ⟨rfl, close⟩ := bracketed_determined .rparen (by decide) ArgPhrase.determined
    (fun _ _ h => by cases h) args' _ _ rfl rfl list
  obtain ⟨place, dict⟩ := List.cons.inj close
  cases place
  obtain ⟨rfl, block⟩ := funcAttrs_determined attrs attrs' _ _ rfl rfl dict
  obtain ⟨place, inside⟩ := List.cons.inj block
  cases place
  obtain ⟨rfl, last⟩ := Determined.lines stmts_separable
    (fun p hp => (body_determined body p hp).mono fun _ => LineEnds.stmtEnds) body' _ _
      (closes_rbrace _ _) (closes_rbrace _ _) inside
  cases last
  exact ⟨rfl, rfl⟩

theorem SettingPhrase.determined (p : SettingPhrase) : Determined SettingPhrase.tokens Always p := by
  obtain ⟨word, name, equals, value, place⟩ := p
  rintro ⟨word', name', equals', value', place'⟩ r s - - same
  simp only [tokens, List.cons_append, List.nil_append, List.cons.injEq, Lexed.word, Lexed.ident,
    Lexed.mark, Lexed.mk.injEq, Token.ident.injEq, true_and] at same
  obtain ⟨rfl, ⟨text, span⟩, rfl, ⟨token, rfl⟩, rest⟩ := same
  obtain rfl := Name.eq_of_parts text span
  obtain rfl := SettingValue.eq_of_token token
  exact ⟨rfl, rest⟩

theorem ItemPhrase.determined (p : ItemPhrase) : Determined ItemPhrase.tokens Always p := by
  intro q r s hr hs same
  cases p with
  | setting p =>
    cases q with
    | setting q =>
      obtain ⟨rfl, rest⟩ := p.determined q r s hr hs same
      exact ⟨rfl, rest⟩
    | func q => cases (List.cons.inj same).1
  | func p =>
    cases q with
    | setting q => cases (List.cons.inj same).1
    | func q =>
      obtain ⟨rfl, rest⟩ := p.determined q r s hr hs same
      exact ⟨rfl, rest⟩

theorem items_separable : Separable ItemPhrase.tokens (· = []) where
  inline p r h := by cases p <;> cases h
  inside p r h := by cases p <;> cases h
  stop r h newline := by
    subst h
    cases newline

/-- The grammar is unambiguous: tokens have one derivation at most. -/
theorem SourcePhrase.tokens_injective {p q : SourcePhrase} (h : p.tokens = q.tokens) : p = q :=
  (Determined.lines items_separable (fun p _ => p.determined.mono fun _ _ => trivial) q [] [] rfl rfl
    (by simpa [tokens] using h)).1

end Parts

end Staging
