import Staging.Proofs.Recognizing

namespace Staging

open Attempt (Gives Takes Accepts bind_fails)

section Parts

variable {α τ : Type} {p : Attempt α} {tokens : τ → List Lexed} {value : τ → α}

/-- A parser that takes phrases and nothing else, whatever stands behind them. -/
def Attempt.Exact (p : Attempt α) (tokens : τ → List Lexed) (value : τ → α) : Prop :=
  ∀ ts a rest, p.Gives ts a rest ↔ ∃ t, ts = tokens t ++ rest ∧ a = value t

theorem Attempt.Exact.takes (h : p.Exact tokens value) : p.Takes tokens value :=
  fun ts a rest taken => (h ts a rest).mp taken

theorem Attempt.Exact.accepts (h : p.Exact tokens value) (t : τ) : p.Accepts tokens value Always t :=
  fun _ _ => (h _ _ _).mpr ⟨t, rfl, rfl⟩

theorem parseValue_exact : parseValue.Exact (fun n => [.value n]) id := by
  intro ts n rest
  rw [gives_value]
  exact ⟨fun h => ⟨n, h, rfl⟩, by rintro ⟨_, h, rfl⟩; exact h⟩

theorem parseType_exact : parseType.Exact (fun t => [.type t]) id := by
  intro ts t rest
  rw [gives_type]
  exact ⟨fun h => ⟨t, h, rfl⟩, by rintro ⟨_, h, rfl⟩; exact h⟩

theorem parseColonType_exact : parseColonType.Exact typeTokens Prod.snd := by
  intro ts t rest
  rw [gives_colonType]
  exact ⟨fun ⟨colon, h⟩ => ⟨(colon, t), h, rfl⟩, by rintro ⟨⟨colon, _⟩, h, rfl⟩; exact ⟨colon, h⟩⟩

theorem parseAttrEntry_exact : parseAttrEntry.Exact EntryPhrase.tokens EntryPhrase.entry := by
  intro ts e rest
  simp only [parseAttrEntry, gives_spanned, gives_bind, gives_ident, gives_mark, gives_attrValue,
    gives_pure]
  constructor
  · rintro ⟨_, ⟨key, _, rfl, _, _, ⟨equals, rfl⟩, v, _, ⟨place, rfl⟩, rfl, rfl⟩, rfl⟩
    refine ⟨⟨key, equals, v, place⟩, rfl, ?_⟩
    exact congrArg (AttrEntry.mk key v) (congrArg spanOf
      (take_taken [.ident key, .mark .equals equals, ⟨v.token, place⟩] _))
  · rintro ⟨p, rfl, rfl⟩
    refine ⟨_, ⟨p.key, _, rfl, (), _, ⟨p.equals, rfl⟩, p.value, _, ⟨p.place, rfl⟩, rfl, rfl⟩, ?_⟩
    exact congrArg (AttrEntry.mk p.key p.value) (congrArg spanOf (take_taken p.tokens _))

theorem parseArg_exact : parseArg.Exact ArgPhrase.tokens ArgPhrase.arg := by
  intro ts arg rest
  simp only [parseArg, gives_bind, gives_value, gives_colonType, gives_pure]
  constructor
  · rintro ⟨name, _, rfl, type, _, ⟨colon, rfl⟩, rfl, rfl⟩
    exact ⟨⟨name, (colon, type)⟩, rfl, rfl⟩
  · rintro ⟨p, rfl, rfl⟩
    exact ⟨p.name, _, rfl, p.type.2, _, ⟨p.type.1, rfl⟩, rfl, rfl⟩

theorem mark_fails {β : Type} {k : Unit → Attempt β} {m : Mark} {r : List Lexed}
    (h : next r ≠ some (.mark m)) : ((parseMark m >>= k) r).value = none :=
  bind_fails (token_fails h)

theorem word_fails {β : Type} {k : Unit → Attempt β} {word : Keyword} {r : List Lexed}
    (h : next r ≠ some (.keyword word)) : ((parseKeyword word >>= k) r).value = none :=
  bind_fails (token_fails h)

theorem parseOperands_takes : parseOperands.Takes valueTokens itemsOf := by
  have h := parseValue_exact.takes.sepBy
  simp only [List.map_id] at h
  exact h

theorem parseOperands_accepts (follow : List Lexed → Prop) (noComma : ∀ r, follow r → NoComma r)
    (noValue : ∀ r, follow r → NoValue r) (names : Option (Series Name)) :
    parseOperands.Accepts valueTokens itemsOf follow names := by
  have h := Accepts.sepBy follow names parseValue_exact.accepts noComma fun r hr => value_fails (noValue r hr)
  simp only [List.map_id] at h
  exact h

theorem between_takes {opening closing : Mark} {p : Attempt α} (h : p.Takes tokens value) :
    (between opening closing p).Takes
      (fun t : Span × τ × Span =>
        .mark opening t.1 :: (tokens t.2.1 ++ [.mark closing t.2.2])) (fun t => value t.2.1) := by
  intro ts a rest taken
  simp only [between, gives_bind, gives_mark, gives_pure] at taken
  obtain ⟨_, _, ⟨before, rfl⟩, _, _, inside, _, _, ⟨behind, rfl⟩, rfl, rfl⟩ := taken
  obtain ⟨t, rfl, rfl⟩ := h _ _ _ inside
  exact ⟨(before, t, behind), by simp, rfl⟩

theorem between_accepts (opening closing : Mark) {follow : List Lexed → Prop} {t : τ}
    (h : p.Accepts tokens value follow t) (close : ∀ span r, follow (.mark closing span :: r))
    (before behind : Span) (rest : List Lexed) : (between opening closing p).Gives
      (.mark opening before :: (tokens t ++ .mark closing behind :: rest)) (value t) rest := by
  simp only [between, gives_bind, gives_mark, gives_pure]
  exact ⟨(), _, ⟨before, rfl⟩, _, _, h _ (close behind rest), (), _, ⟨behind, rfl⟩, rfl, rfl⟩

theorem parseAttrs_takes : parseAttrs.Takes AttrsPhrase.tokens AttrsPhrase.attrs := by
  intro ts a rest h
  obtain ⟨⟨lbrace, entries, rbrace⟩, rfl, rfl⟩ := between_takes parseAttrEntry_exact.takes.sepBy _ _ _ h
  exact ⟨⟨lbrace, entries, rbrace⟩, rfl, rfl⟩

theorem entry_fails {r : List Lexed} (h : ∀ name, next r ≠ some (.ident name)) :
    (parseAttrEntry r).value = none := by
  have key : ((do
      let key ← parseIdent
      parseMark .equals
      let value ← parseAttrValue
      return fun span => ⟨key, value, span⟩ : Attempt (Span → AttrEntry)) r).value = none :=
    bind_fails (ident_fails h)
  unfold parseAttrEntry Attempt.spanned
  simp only [key, Option.map_none]

theorem parseAttrs_accepts (p : AttrsPhrase) :
    parseAttrs.Accepts AttrsPhrase.tokens AttrsPhrase.attrs Always p := by
  intro rest _
  have inside := Accepts.sepBy (fun r => next r = some (.mark .rbrace)) p.entries
    parseAttrEntry_exact.accepts
    (fun r hr comma => by cases hr.symm.trans comma)
    (fun r hr => entry_fails fun _ ident => by cases hr.symm.trans ident)
  have whole := between_accepts .lbrace .rbrace inside (fun _ _ => rfl) p.lbrace p.rbrace rest
  simp only [AttrsPhrase.tokens, List.cons_append, List.append_assoc, List.nil_append]
  exact whole

theorem attrs_takes : (orEmpty parseAttrs).Takes (optional AttrsPhrase.tokens) attrsOf :=
  parseAttrs_takes.orEmpty

theorem attrs_accepts (p : Option AttrsPhrase) :
    (orEmpty parseAttrs).Accepts (optional AttrsPhrase.tokens) attrsOf NoDict p :=
  Accepts.orEmpty Always (fun p _ => parseAttrs_accepts p) (fun _ _ => trivial) fun _ hr => mark_fails hr

theorem results_takes :
    (orEmpty parseResults).Takes (optional ResultsPhrase.tokens) resultsOf := by
  refine Takes.orEmpty fun ts names rest h => ?_
  simp only [parseResults, gives_bind, gives_mark, gives_pure] at h
  obtain ⟨_, _, series, _, _, ⟨equals, rfl⟩, rfl, rfl⟩ := h
  obtain ⟨names, rfl, rfl⟩ := parseValue_exact.takes.series _ _ _ series
  exact ⟨⟨names, equals⟩, by simp [ResultsPhrase.tokens], by simp⟩

theorem results_accepts (p : Option ResultsPhrase) :
    (orEmpty parseResults).Accepts (optional ResultsPhrase.tokens) resultsOf NoValue p := by
  refine Accepts.orEmpty Always (fun p _ rest _ => ?_) (fun _ _ => trivial) fun _ hr =>
    bind_fails (bind_fails (value_fails hr))
  have series := Accepts.series p.names (fun n _ => parseValue_exact.accepts n)
    (.mark .equals p.equals :: rest) (fun comma => by cases comma)
  simp only [parseResults, gives_bind, gives_mark, gives_pure]
  refine ⟨p.names.items, _, ?_, (), rest, ⟨p.equals, rfl⟩, rfl, rfl⟩
  simpa [ResultsPhrase.tokens] using series

end Parts

section Ops

/-- One of two words tells which of two values stands there. -/
theorem gives_choice {α : Type} {first second : Keyword} {a b c : α} {ts rest : List Lexed}
    (other : first ≠ second) :
    (((parseKeyword first).bind fun _ => .pure a).orElse
      ((parseKeyword second).bind fun _ => .pure b)).Gives ts c rest ↔
      ∃ span, (c = a ∧ ts = .word first span :: rest) ∨ (c = b ∧ ts = .word second span :: rest) := by
  constructor
  · intro h
    rcases h.of_orElse with h | ⟨-, h⟩
    · obtain ⟨_, _, word, made⟩ := gives_bind.mp h
      obtain ⟨rfl, rfl⟩ := gives_pure.mp made
      obtain ⟨span, rfl⟩ := gives_keyword.mp word
      exact ⟨span, .inl ⟨rfl, rfl⟩⟩
    · obtain ⟨_, _, word, made⟩ := gives_bind.mp h
      obtain ⟨rfl, rfl⟩ := gives_pure.mp made
      obtain ⟨span, rfl⟩ := gives_keyword.mp word
      exact ⟨span, .inr ⟨rfl, rfl⟩⟩
  · rintro ⟨span, ⟨rfl, rfl⟩ | ⟨rfl, rfl⟩⟩
    · exact Gives.orElse_left (gives_bind.mpr ⟨(), _, gives_keyword.mpr ⟨span, rfl⟩,
        gives_pure.mpr ⟨rfl, rfl⟩⟩)
    · refine Gives.orElse_right (word_fails fun word => ?_) (gives_bind.mpr ⟨(), _,
        gives_keyword.mpr ⟨span, rfl⟩, gives_pure.mpr ⟨rfl, rfl⟩⟩)
      cases word
      exact other rfl

theorem parseAlloc_takes : parseAlloc.Takes OpPhrase.tokens OpPhrase.op := by
  intro ts op rest h
  simp only [parseAlloc, gives_bind, gives_choice (show Keyword.alloc ≠ .alloca by decide),
    gives_colonType, gives_pure] at h
  obtain ⟨_, _, ⟨span, ⟨rfl, rfl⟩ | ⟨rfl, rfl⟩⟩, type, _, ⟨colon, rfl⟩, rfl, rfl⟩ := h
  · exact ⟨.alloc false span (colon, type), rfl, rfl⟩
  · exact ⟨.alloc true span (colon, type), rfl, rfl⟩

theorem parseConstant_takes : parseConstant.Takes OpPhrase.tokens OpPhrase.op := by
  intro ts op rest h
  simp only [parseConstant, gives_bind, gives_keyword, gives_int, gives_colonType, gives_pure] at h
  obtain ⟨_, _, ⟨word, rfl⟩, v, _, ⟨place, rfl⟩, type, _, ⟨colon, rfl⟩, rfl, rfl⟩ := h
  exact ⟨.constant word v place (colon, type), rfl, rfl⟩

theorem parseConvert_takes : parseConvert.Takes OpPhrase.tokens OpPhrase.op := by
  intro ts op rest h
  simp only [parseConvert, gives_bind, gives_choice (show Keyword.toTensor ≠ .toMemref by decide),
    gives_value, gives_colonType, gives_pure] at h
  obtain ⟨_, _, ⟨span, ⟨rfl, rfl⟩ | ⟨rfl, rfl⟩⟩, n, _, rfl, type, _, ⟨colon, rfl⟩, rfl, rfl⟩ := h
  · exact ⟨.convert .toTensor span n (colon, type), rfl, rfl⟩
  · exact ⟨.convert .toMemref span n (colon, type), rfl, rfl⟩

theorem parseRet_takes : parseRet.Takes OpPhrase.tokens OpPhrase.op := by
  intro ts op rest h
  simp only [parseRet, gives_bind, gives_keyword, gives_pure] at h
  obtain ⟨_, _, ⟨word, rfl⟩, _, _, list, rfl, rfl⟩ := h
  obtain ⟨operands, rfl, rfl⟩ := parseOperands_takes _ _ _ list
  exact ⟨.ret word operands, rfl, rfl⟩

theorem types_takes : (orEmpty do
      parseMark .colon
      Attempt.sepBy1 parseComma parseType).Takes
    (optional fun types : Span × Series TypeExpr =>
      .mark .colon types.1 :: types.2.tokens fun t => [.type t])
    fun types => (types.map fun types => types.2.items).getD [] := by
  refine Takes.orEmpty fun ts types rest h => ?_
  simp only [gives_bind, gives_mark] at h
  obtain ⟨_, _, ⟨colon, rfl⟩, list⟩ := h
  obtain ⟨series, rfl, rfl⟩ := parseType_exact.takes.series _ _ _ list
  exact ⟨(colon, series), rfl, by simp⟩

theorem types_accepts (types : Option (Span × Series TypeExpr)) : (orEmpty do
      parseMark .colon
      Attempt.sepBy1 parseComma parseType).Accepts
    (optional fun types : Span × Series TypeExpr =>
      .mark .colon types.1 :: types.2.tokens fun t => [.type t])
    (fun types => (types.map fun types => types.2.items).getD []) OpEnds types := by
  refine Accepts.orEmpty NoComma (fun types _ rest hrest => ?_) (fun _ => OpEnds.noComma)
    fun _ hr => mark_fails (OpEnds.noColon hr)
  have series := Accepts.series types.2 (fun t _ => parseType_exact.accepts t) rest hrest
  simp only [List.map_id] at series
  exact gives_bind.mpr ⟨(), _, gives_mark.mpr ⟨types.1, rfl⟩, series⟩

theorem parseCompute_takes : parseCompute.Takes OpPhrase.tokens OpPhrase.op := by
  intro ts op rest h
  simp only [parseCompute, gives_bind, gives_keyword, gives_text, gives_pure] at h
  obtain ⟨_, _, ⟨word, rfl⟩, name, _, ⟨place, rfl⟩, _, _, list, _, _, named, rfl, rfl⟩ := h
  obtain ⟨⟨lparen, operands, rparen⟩, rfl, rfl⟩ := between_takes parseOperands_takes _ _ _ list
  obtain ⟨types, rfl, rfl⟩ := types_takes _ _ _ named
  exact ⟨.compute word name place lparen operands rparen types, by simp [OpPhrase.tokens], rfl⟩

theorem parseLoad_takes : parseLoad.Takes OpPhrase.tokens OpPhrase.op := by
  intro ts op rest h
  simp only [parseLoad, gives_bind, gives_keyword, gives_value, gives_colonType, gives_pure] at h
  obtain ⟨_, _, ⟨word, rfl⟩, n, _, rfl, type, _, ⟨colon, rfl⟩, rfl, rfl⟩ := h
  exact ⟨.load word n (colon, type), rfl, rfl⟩

theorem parseStore_takes : parseStore.Takes OpPhrase.tokens OpPhrase.op := by
  intro ts op rest h
  simp only [parseStore, gives_bind, gives_keyword, gives_value, gives_comma, gives_pure] at h
  obtain ⟨_, _, ⟨word, rfl⟩, v, _, rfl, _, _, ⟨comma, rfl⟩, n, _, rfl, rfl, rfl⟩ := h
  exact ⟨.store word v comma n, rfl, rfl⟩

theorem copyTarget_takes : (Attempt.optional do
      parseComma
      parseValue).Takes
    (optional fun target : Span × Name => [.mark .comma target.1, .value target.2])
    (Option.map Prod.snd) := by
  refine Takes.optional fun ts n rest h => ?_
  simp only [gives_bind, gives_comma, gives_value] at h
  obtain ⟨_, _, ⟨comma, rfl⟩, rfl⟩ := h
  exact ⟨(comma, n), rfl, rfl⟩

theorem copyTarget_accepts (target : Option (Span × Name)) : (Attempt.optional do
      parseComma
      parseValue).Accepts
    (optional fun target : Span × Name => [.mark .comma target.1, .value target.2])
    (Option.map Prod.snd) NoComma target :=
  Accepts.optional Always
    (fun target _ _ _ => gives_bind.mpr ⟨(), _, gives_comma.mpr ⟨target.1, rfl⟩,
      gives_value.mpr rfl⟩)
    (fun _ _ => trivial) fun _ hr => mark_fails hr

theorem parseCopy_takes : parseCopy.Takes OpPhrase.tokens OpPhrase.op := by
  intro ts op rest h
  simp only [parseCopy, gives_bind, gives_keyword, gives_value, gives_pure] at h
  obtain ⟨_, _, ⟨word, rfl⟩, source, _, rfl, _, _, second, _, _, named, rfl, rfl⟩ := h
  obtain ⟨target, rfl, rfl⟩ := copyTarget_takes _ _ _ second
  obtain ⟨type, rfl, rfl⟩ := parseColonType_exact.takes.optional _ _ _ named
  exact ⟨.copy word source target type, by simp [OpPhrase.tokens], rfl⟩

theorem parseOp_takes : parseOp.Takes OpPhrase.tokens OpPhrase.op := by
  intro ts op rest h
  obtain ⟨p, hp, taken⟩ := h.of_firstOf
  simp only [List.mem_cons, List.not_mem_nil, or_false] at hp
  rcases hp with rfl | rfl | rfl | rfl | rfl | rfl | rfl | rfl
  · exact parseAlloc_takes _ _ _ taken
  · exact parseConstant_takes _ _ _ taken
  · exact parseConvert_takes _ _ _ taken
  · exact parseRet_takes _ _ _ taken
  · exact parseCompute_takes _ _ _ taken
  · exact parseLoad_takes _ _ _ taken
  · exact parseStore_takes _ _ _ taken
  · exact parseCopy_takes _ _ _ taken

/-- The parsers of operations with the words that each of them starts with. -/
def opParsers : List (List Keyword × Attempt Op) :=
  [([.alloc, .alloca], parseAlloc), ([.constant], parseConstant),
    ([.toTensor, .toMemref], parseConvert), ([.ret], parseRet), ([.op], parseCompute),
    ([.load], parseLoad), ([.store], parseStore), ([.copy], parseCopy)]

theorem choice_fails {β : Type} {first second : Keyword} {a b : α} {k : α → Attempt β}
    {r : List Lexed} (h : ∀ word ∈ [first, second], next r ≠ some (.keyword word)) :
    (((((parseKeyword first).bind fun _ => .pure a).orElse
      ((parseKeyword second).bind fun _ => .pure b)) >>= k) r).value = none := by
  refine bind_fails ?_
  have one : (((parseKeyword first).bind fun _ => .pure a) r).value = none :=
    word_fails (h first (by simp))
  have two : (((parseKeyword second).bind fun _ => .pure b) r).value = none :=
    word_fails (h second (by simp))
  simp only [Attempt.orElse, one, two]

theorem opParsers_fail : ∀ e ∈ opParsers, ∀ r : List Lexed,
    (∀ word ∈ e.1, next r ≠ some (.keyword word)) → (e.2 r).value = none := by
  intro e he r h
  simp only [opParsers, List.mem_cons, List.not_mem_nil, or_false] at he
  rcases he with rfl | rfl | rfl | rfl | rfl | rfl | rfl | rfl
  · exact choice_fails h
  · exact word_fails (h _ (by simp))
  · exact choice_fails h
  all_goals exact word_fails (h _ (by simp))

/-- An operation is taken by the first parser that starts with its word. -/
theorem parseOp_of_word {e : List Keyword × Attempt Op} {k : Keyword} {ts rest : List Lexed} {op : Op}
    (first : opParsers.find? (fun e => e.1.contains k) = some e) (head : next ts = some (.keyword k))
    (h : e.2.Gives ts op rest) : parseOp.Gives ts op rest := by
  have whole : parseOp = Attempt.firstOf (opParsers.map Prod.snd) := rfl
  rw [whole]
  have reject := opParsers_fail
  generalize opParsers = table at first reject
  induction table with
  | nil => cases first
  | cons d table ih =>
    by_cases own : d.1.contains k = true
    · rw [List.find?_cons_of_pos (by exact own)] at first
      obtain rfl := Option.some.inj first
      cases table with
      | nil => exact h
      | cons next table => exact h.orElse_left
    · rw [List.find?_cons_of_neg (by exact own)] at first
      have later := ih first fun e he => reject e (List.mem_cons_of_mem _ he)
      cases table with
      | nil => cases first
      | cons other table =>
        refine Gives.orElse_right (reject d (by simp) ts fun l hl found => ?_) later
        cases found.symm.trans head
        exact own (by simpa using hl)

theorem OpPhrase.accepted (p : OpPhrase) : parseOp.Accepts OpPhrase.tokens OpPhrase.op OpEnds p := by
  intro rest hrest
  cases p with
  | alloc stack word type =>
    have other : Keyword.alloc ≠ .alloca := by decide
    cases stack
    · refine parseOp_of_word (k := .alloc) rfl rfl ?_
      simp only [parseAlloc, gives_bind, gives_choice other, gives_colonType, gives_pure]
      exact ⟨false, _, ⟨word, .inl ⟨rfl, rfl⟩⟩, type.2, _, ⟨type.1, rfl⟩, rfl, rfl⟩
    · refine parseOp_of_word (k := .alloca) rfl rfl ?_
      simp only [parseAlloc, gives_bind, gives_choice other, gives_colonType, gives_pure]
      exact ⟨true, _, ⟨word, .inr ⟨rfl, rfl⟩⟩, type.2, _, ⟨type.1, rfl⟩, rfl, rfl⟩
  | constant word v place type =>
    refine parseOp_of_word (k := .constant) rfl rfl ?_
    simp only [parseConstant, gives_bind, gives_keyword, gives_int, gives_colonType, gives_pure]
    exact ⟨(), _, ⟨word, rfl⟩, v, _, ⟨place, rfl⟩, type.2, _, ⟨type.1, rfl⟩, rfl, rfl⟩
  | convert conversion word n type =>
    have other : Keyword.toTensor ≠ .toMemref := by decide
    cases conversion
    · refine parseOp_of_word (k := .toTensor) rfl rfl ?_
      simp only [parseConvert, gives_bind, gives_choice other, gives_value, gives_colonType, gives_pure]
      exact ⟨.toTensor, _, ⟨word, .inl ⟨rfl, rfl⟩⟩, n, _, rfl, type.2, _, ⟨type.1, rfl⟩, rfl, rfl⟩
    · refine parseOp_of_word (k := .toMemref) rfl rfl ?_
      simp only [parseConvert, gives_bind, gives_choice other, gives_value, gives_colonType, gives_pure]
      exact ⟨.toMemref, _, ⟨word, .inr ⟨rfl, rfl⟩⟩, n, _, rfl, type.2, _, ⟨type.1, rfl⟩, rfl, rfl⟩
  | ret word operands =>
    refine parseOp_of_word (k := .ret) rfl rfl ?_
    simp only [parseRet, gives_bind, gives_keyword, gives_pure]
    exact ⟨(), _, ⟨word, rfl⟩, _, _, parseOperands_accepts OpEnds (fun _ => OpEnds.noComma)
      (fun _ => OpEnds.noValue) operands rest hrest, rfl, rfl⟩
  | compute word name place lparen operands rparen types =>
    refine parseOp_of_word (k := .op) rfl rfl ?_
    have list := between_accepts .lparen .rparen
      (parseOperands_accepts (fun r => next r = some (.mark .rparen))
        (fun r hr comma => by cases hr.symm.trans comma)
        (fun r hr _ value => by cases hr.symm.trans value) operands)
      (fun _ _ => rfl) lparen rparen (optional (fun types : Span × Series TypeExpr =>
        .mark .colon types.1 :: types.2.tokens fun t => [.type t]) types ++ rest)
    simp only [parseCompute, gives_bind, gives_keyword, gives_text, gives_pure]
    have whole : (compute word name place lparen operands rparen types).tokens ++ rest =
        .word .op word :: .string name place :: .mark .lparen lparen :: (valueTokens operands ++
          .mark .rparen rparen :: (optional (fun types : Span × Series TypeExpr =>
            .mark .colon types.1 :: types.2.tokens fun t => [.type t]) types ++ rest)) := by
      simp [tokens]
    rw [whole]
    exact ⟨(), _, ⟨word, rfl⟩, name, _, ⟨place, rfl⟩, _, _, list, _, _, types_accepts types rest hrest,
      rfl, rfl⟩
  | load word n type =>
    refine parseOp_of_word (k := .load) rfl rfl ?_
    simp only [parseLoad, gives_bind, gives_keyword, gives_value, gives_colonType, gives_pure]
    exact ⟨(), _, ⟨word, rfl⟩, n, _, rfl, type.2, _, ⟨type.1, rfl⟩, rfl, rfl⟩
  | store word v comma n =>
    refine parseOp_of_word (k := .store) rfl rfl ?_
    simp only [parseStore, gives_bind, gives_keyword, gives_value, gives_comma, gives_pure]
    exact ⟨(), _, ⟨word, rfl⟩, v, _, rfl, (), _, ⟨comma, rfl⟩, n, _, rfl, rfl, rfl⟩
  | copy word source target type =>
    refine parseOp_of_word (k := .copy) rfl rfl ?_
    have last : parseColonType.optional.Accepts (optional typeTokens) (Option.map Prod.snd) OpEnds type :=
      Accepts.optional Always (fun t _ => parseColonType_exact.accepts t) (fun _ _ => trivial)
        fun r hr => mark_fails (OpEnds.noColon hr)
    simp only [parseCopy, gives_bind, gives_keyword, gives_value, gives_pure]
    have whole : (copy word source target type).tokens ++ rest =
        .word .copy word :: .value source :: (optional (fun target : Span × Name =>
          [.mark .comma target.1, .value target.2]) target ++ (optional typeTokens type ++ rest)) := by
      simp [tokens]
    rw [whole]
    exact ⟨(), _, ⟨word, rfl⟩, source, _, rfl, _, _,
      copyTarget_accepts target _ (copyType_noComma type hrest), _, _, last rest hrest, rfl, rfl⟩

end Ops

end Staging
