import Staging.Proofs.Unambiguous

namespace Staging

/-- A parser makes `a` of some tokens and leaves `rest`. -/
def Attempt.Gives {α : Type} (p : Attempt α) (ts : List Lexed) (a : α) (rest : List Lexed) : Prop :=
  (p ts).value = some (a, rest)

/-- Whatever a parser takes is a phrase, and what it gives is what the phrase stands for. -/
def Attempt.Takes {α τ : Type} (p : Attempt α) (tokens : τ → List Lexed) (value : τ → α) : Prop :=
  ∀ ts a rest, p.Gives ts a rest → ∃ t, ts = tokens t ++ rest ∧ a = value t

/-- A parser takes a phrase, wherever `follow` holds of what stands behind. -/
def Attempt.Accepts {α τ : Type} (p : Attempt α) (tokens : τ → List Lexed) (value : τ → α)
    (follow : List Lexed → Prop) (t : τ) : Prop :=
  ∀ rest, follow rest → p.Gives (tokens t ++ rest) (value t) rest

open Attempt (Gives Takes Accepts)

section Steps

variable {α β : Type} {p q : Attempt α} {k : α → Attempt β} {ts rest : List Lexed} {a a' : α} {b : β}

@[simp] theorem gives_pure : Gives (pure a) ts a' rest ↔ a = a' ∧ ts = rest := by
  change some (a, ts) = some (a', rest) ↔ _
  rw [Option.some.injEq, Prod.mk.injEq]

@[simp] theorem gives_bind :
    Gives (p >>= k) ts b rest ↔ ∃ a mid, p.Gives ts a mid ∧ (k a).Gives mid b rest := by
  change (Attempt.bind p k ts).value = _ ↔ _
  unfold Attempt.Gives Attempt.bind
  cases h : (p ts).value with
  | none => simp [h]
  | some found => simp [h, Prod.ext_iff]

theorem Attempt.Gives.orElse_left (h : p.Gives ts a rest) : (p.orElse q).Gives ts a rest := by
  unfold Attempt.Gives at h ⊢
  simp only [Attempt.orElse, h]

theorem Attempt.Gives.orElse_right (no : (p ts).value = none) (h : q.Gives ts a rest) :
    (p.orElse q).Gives ts a rest := by
  unfold Attempt.Gives at h ⊢
  simp only [Attempt.orElse, no, h]

theorem Attempt.Gives.of_orElse (h : (p.orElse q).Gives ts a rest) :
    p.Gives ts a rest ∨ ((p ts).value = none ∧ q.Gives ts a rest) := by
  unfold Attempt.Gives at h ⊢
  cases first : (p ts).value with
  | none => exact .inr ⟨rfl, by simpa only [Attempt.orElse, first] using h⟩
  | some found => exact .inl (by simpa only [Attempt.orElse, first] using h)

theorem Attempt.Gives.of_firstOf {ps : List (Attempt α)} (h : (Attempt.firstOf ps).Gives ts a rest) :
    ∃ p ∈ ps, p.Gives ts a rest := by
  induction ps with
  | nil => cases h
  | cons p ps ih =>
    cases ps with
    | nil => exact ⟨p, by simp, h⟩
    | cons q ps =>
      rcases Gives.of_orElse h with first | ⟨-, later⟩
      · exact ⟨p, by simp, first⟩
      · obtain ⟨p, hp, found⟩ := ih later
        exact ⟨p, List.mem_cons_of_mem _ hp, found⟩

theorem gives_take {expected : Expectation} {f : Lexed → Option α} :
    (Attempt.take expected f).Gives ts a rest ↔ ∃ t, ts = t :: rest ∧ f t = some a := by
  unfold Attempt.Gives
  cases ts with
  | nil => simp [Attempt.take]
  | cons t ts => cases h : f t <;> simp [Attempt.take, h, and_comm]

theorem gives_token {token : Token} {u : Unit} :
    (parseToken token).Gives ts u rest ↔ ∃ span, ts = ⟨token, span⟩ :: rest := by
  unfold parseToken
  rw [gives_take]
  constructor
  · rintro ⟨⟨found, span⟩, rfl, taken⟩
    split at taken
    next same => exact ⟨span, by rw [← same]⟩
    next => cases taken
  · rintro ⟨span, rfl⟩
    exact ⟨_, rfl, by simp⟩

@[simp] theorem gives_keyword {word : Keyword} {u : Unit} :
    (parseKeyword word).Gives ts u rest ↔ ∃ span, ts = .word word span :: rest :=
  gives_token

@[simp] theorem gives_mark {mark : Mark} {u : Unit} :
    (parseMark mark).Gives ts u rest ↔ ∃ span, ts = .mark mark span :: rest :=
  gives_token

@[simp] theorem gives_comma {u : Unit} :
    parseComma.Gives ts u rest ↔ ∃ span, ts = .mark .comma span :: rest :=
  gives_token

@[simp] theorem gives_newline {u : Unit} :
    parseNewline.Gives ts u rest ↔ ∃ span, ts = .line span :: rest :=
  gives_token

@[simp] theorem gives_value {n : Name} : parseValue.Gives ts n rest ↔ ts = .value n :: rest := by
  unfold parseValue
  rw [gives_take]
  constructor
  · rintro ⟨⟨token, span⟩, rfl, taken⟩
    split at taken
    next value =>
      cases value
      cases taken
      rfl
    next => cases taken
  · rintro rfl
    exact ⟨_, rfl, rfl⟩

@[simp] theorem gives_ident {n : Name} : parseIdent.Gives ts n rest ↔ ts = .ident n :: rest := by
  unfold parseIdent
  rw [gives_take]
  constructor
  · rintro ⟨⟨token, span⟩, rfl, taken⟩
    split at taken
    next ident =>
      cases ident
      cases taken
      rfl
    next => cases taken
  · rintro rfl
    exact ⟨_, rfl, rfl⟩

@[simp] theorem gives_symbol {n : Name} : parseSymbol.Gives ts n rest ↔ ts = .symbol n :: rest := by
  unfold parseSymbol
  rw [gives_take]
  constructor
  · rintro ⟨⟨token, span⟩, rfl, taken⟩
    split at taken
    next symbol =>
      cases symbol
      cases taken
      rfl
    next => cases taken
  · rintro rfl
    exact ⟨_, rfl, rfl⟩

@[simp] theorem gives_int {v : Int} :
    parseInt.Gives ts v rest ↔ ∃ place, ts = .int v place :: rest := by
  unfold parseInt
  rw [gives_take]
  constructor
  · rintro ⟨⟨token, span⟩, rfl, taken⟩
    split at taken
    next int =>
      cases int
      cases taken
      exact ⟨span, rfl⟩
    next => cases taken
  · rintro ⟨place, rfl⟩
    exact ⟨_, rfl, rfl⟩

@[simp] theorem gives_text {s : String} :
    parseText.Gives ts s rest ↔ ∃ place, ts = .string s place :: rest := by
  unfold parseText
  rw [gives_take]
  constructor
  · rintro ⟨⟨token, span⟩, rfl, taken⟩
    split at taken
    next string =>
      cases string
      cases taken
      exact ⟨span, rfl⟩
    next => cases taken
  · rintro ⟨place, rfl⟩
    exact ⟨_, rfl, rfl⟩

@[simp] theorem gives_attrValue {v : Attr} :
    parseAttrValue.Gives ts v rest ↔ ∃ place, ts = ⟨v.token, place⟩ :: rest := by
  unfold parseAttrValue
  rw [gives_take]
  constructor
  · rintro ⟨⟨token, span⟩, rfl, taken⟩
    split at taken
    all_goals first | (next written => cases written; cases taken; exact ⟨span, rfl⟩) | cases taken
  · rintro ⟨place, rfl⟩
    rcases v with v | (_ | _) | s <;> exact ⟨_, rfl, rfl⟩

@[simp] theorem gives_type {t : TypeExpr} : parseType.Gives ts t rest ↔ ts = .type t :: rest := by
  have shaped : parseShaped.Gives ts t rest ↔
      ∃ shape span, t = .shaped shape span ∧ ts = .type t :: rest := by
    unfold parseShaped
    rw [gives_take]
    constructor
    · rintro ⟨⟨token, span⟩, rfl, taken⟩
      split at taken
      next found =>
        cases found
        cases taken
        exact ⟨_, span, rfl, rfl⟩
      next => cases taken
    · rintro ⟨shape, span, rfl, rfl⟩
      exact ⟨_, rfl, rfl⟩
  constructor
  · intro h
    rcases Gives.of_orElse h with h | ⟨-, h⟩
    · obtain ⟨_, _, -, rfl⟩ := shaped.mp h
      rfl
    · obtain ⟨n, mid, taken, made⟩ := gives_bind.mp h
      obtain ⟨rfl, rfl⟩ := gives_pure.mp made
      exact gives_ident.mp taken
  · rintro rfl
    cases t with
    | named n =>
      refine Gives.orElse_right rfl (gives_bind.mpr ⟨n, rest, gives_ident.mpr rfl, ?_⟩)
      exact gives_pure.mpr ⟨rfl, rfl⟩
    | shaped shape span => exact Gives.orElse_left (shaped.mpr ⟨shape, span, rfl, rfl⟩)

@[simp] theorem gives_colonType {t : TypeExpr} :
    parseColonType.Gives ts t rest ↔ ∃ colon, ts = typeTokens (colon, t) ++ rest := by
  simp [parseColonType, typeTokens]

@[simp] theorem gives_spanned {p : Attempt (Span → α)} : p.spanned.Gives ts a rest ↔
    ∃ make, p.Gives ts make rest ∧ make (spanOf (ts.take (ts.length - rest.length))) = a := by
  unfold Attempt.Gives Attempt.spanned spanOf
  cases h : (p ts).value with
  | none => simp [h]
  | some found =>
    obtain ⟨make, behind⟩ := found
    simp only [h, Option.map_some, Option.some.injEq, Prod.mk.injEq]
    constructor
    · rintro ⟨made, rfl⟩
      exact ⟨make, ⟨rfl, rfl⟩, made⟩
    · rintro ⟨_, ⟨rfl, rfl⟩, made⟩
      exact ⟨made, rfl⟩

@[simp] theorem take_taken (xs rest : List Lexed) :
    (xs ++ rest).take ((xs ++ rest).length - rest.length) = xs := by
  simp

/-- A parser fails on all but what it takes. -/
theorem Attempt.fails_of_not_gives {r : List Lexed} (h : ∀ a rest, ¬ p.Gives r a rest) :
    (p r).value = none := by
  cases found : (p r).value with
  | none => rfl
  | some made => exact absurd found (h made.1 made.2)

theorem token_fails {token : Token} {r : List Lexed} (h : next r ≠ some token) :
    (parseToken token r).value = none := by
  refine Attempt.fails_of_not_gives fun u rest taken => ?_
  obtain ⟨span, rfl⟩ := gives_token.mp taken
  exact h rfl

theorem value_fails {r : List Lexed} (h : NoValue r) : (parseValue r).value = none :=
  Attempt.fails_of_not_gives fun n rest taken => h n.text (by rw [gives_value.mp taken]; rfl)

theorem ident_fails {r : List Lexed} (h : ∀ name, next r ≠ some (.ident name)) :
    (parseIdent r).value = none :=
  Attempt.fails_of_not_gives fun n rest taken => h n.text (by rw [gives_ident.mp taken]; rfl)

end Steps

namespace Attempt

section Lists

variable {α β τ σ : Type} {p : Attempt α} {tokens : τ → List Lexed} {value : τ → α}
  {follow follow' : List Lexed → Prop}

theorem bind_fails {k : α → Attempt β} {r : List Lexed} (h : (p r).value = none) :
    ((p >>= k) r).value = none := by
  change (Attempt.bind p k r).value = none
  simp only [Attempt.bind, h]

theorem Accepts.mono {t : τ} (h : p.Accepts tokens value follow t) (sub : ∀ r, follow' r → follow r) :
    p.Accepts tokens value follow' t :=
  fun rest hrest => h rest (sub rest hrest)

theorem many_of_none {ts : List Lexed} (h : (p ts).value = none) :
    (Attempt.many p ts).value = some ([], ts) := by
  rw [Attempt.many]
  simp only [h]

theorem many_of_some {a : α} {ts rest : List Lexed} (h : (p ts).value = some (a, rest))
    (shorter : rest.length < ts.length) : (Attempt.many p ts).value =
      (Attempt.many p rest).value.map fun (as, rest) => (a :: as, rest) := by
  rw [Attempt.many]
  simp only [h, shorter, if_true]

theorem Takes.many (hp : p.Takes tokens value) :
    Takes (Attempt.many p) (List.flatMap tokens) (List.map value) := by
  intro ts
  unfold Gives
  fun_induction Attempt.many p ts with
  | case1 ts first a behind found shorter later ih =>
    intro as rest h
    obtain ⟨⟨as', rest'⟩, next, made⟩ := Option.map_eq_some_iff.mp h
    obtain ⟨rfl, rfl⟩ := Prod.mk.inj made
    obtain ⟨t, rfl, rfl⟩ := hp ts a behind found
    obtain ⟨items, rfl, rfl⟩ := ih as' rest' next
    exact ⟨t :: items, by simp, rfl⟩
  | case2 ts first a behind found =>
    rintro as rest ⟨⟩
    obtain ⟨t, rfl, rfl⟩ := hp ts a behind found
    exact ⟨[t], by simp, rfl⟩
  | case3 ts =>
    rintro as rest ⟨⟩
    exact ⟨[], rfl, rfl⟩

theorem Accepts.many (items : List τ) (follow' : List Lexed → Prop)
    (each : ∀ t ∈ items, p.Accepts tokens value follow t)
    (some : ∀ t, tokens t ≠ []) (inner : ∀ t r, follow (tokens t ++ r))
    (last : ∀ r, follow' r → follow r) (stop : ∀ r, follow' r → (p r).value = none) :
    Accepts (Attempt.many p) (List.flatMap tokens) (List.map value) follow' items := by
  induction items with
  | nil => exact fun rest hrest => Attempt.many_of_none (stop rest hrest)
  | cons t items ih =>
    intro rest hrest
    have later := ih (fun t ht => each t (by simp [ht])) rest hrest
    have behind : follow (items.flatMap tokens ++ rest) := by
      cases items with
      | nil => exact last rest hrest
      | cons t items =>
        rw [List.flatMap_cons, List.append_assoc]
        exact inner t _
    have first := each t (by simp) _ behind
    have shorter : (items.flatMap tokens ++ rest).length <
        (tokens t ++ (items.flatMap tokens ++ rest)).length := by
      have := List.length_pos_iff.mpr (some t)
      simp only [List.length_append]
      omega
    unfold Attempt.Gives at later first ⊢
    rw [List.flatMap_cons, List.append_assoc, Attempt.many_of_some first shorter, later]
    rfl

/-- A separator and an item behind it. -/
theorem Takes.behind {sep : Attempt Unit} {mark : σ → List Lexed} (hsep : sep.Takes mark fun _ => ())
    (hp : p.Takes tokens value) : (sep >>= fun _ => p).Takes
      (fun other : σ × τ => mark other.1 ++ tokens other.2) (fun other => value other.2) := by
  intro ts a rest h
  obtain ⟨_, mid, first, second⟩ := gives_bind.mp h
  obtain ⟨s, rfl, -⟩ := hsep _ _ _ first
  obtain ⟨t, rfl, rfl⟩ := hp _ _ _ second
  exact ⟨(s, t), (List.append_assoc ..).symm, rfl⟩

theorem comma_takes : parseComma.Takes (fun span => [.mark .comma span]) fun _ => () := by
  intro ts _ rest h
  obtain ⟨span, rfl⟩ := gives_comma.mp h
  exact ⟨span, rfl, rfl⟩

theorem Takes.sepBy1 {sep : Attempt Unit} {mark : σ → List Lexed} (hsep : sep.Takes mark fun _ => ())
    (hp : p.Takes tokens value) : (Attempt.sepBy1 sep p).Takes
      (fun items : τ × List (σ × τ) =>
        tokens items.1 ++ items.2.flatMap fun other => mark other.1 ++ tokens other.2)
      (fun items => value items.1 :: items.2.map fun other => value other.2) := by
  intro ts as rest h
  obtain ⟨a, mid, first, more⟩ := gives_bind.mp h
  obtain ⟨as', mid', later, made⟩ := gives_bind.mp more
  obtain ⟨rfl, rfl⟩ := gives_pure.mp made
  obtain ⟨t, rfl, rfl⟩ := hp _ _ _ first
  obtain ⟨others, rfl, rfl⟩ := (hsep.behind hp).many _ _ _ later
  exact ⟨(t, others), (List.append_assoc ..).symm, rfl⟩

theorem Takes.series (hp : p.Takes tokens value) : (Attempt.sepBy1 parseComma p).Takes
    (Series.tokens tokens) (fun series => series.items.map value) := by
  intro ts as rest h
  obtain ⟨⟨first, others⟩, rfl, rfl⟩ := comma_takes.sepBy1 hp _ _ _ h
  exact ⟨⟨first, others⟩, rfl, by simp [Series.items]⟩

theorem Takes.sepBy (hp : p.Takes tokens value) : (Attempt.sepBy parseComma p).Takes
    (Staging.optional (Series.tokens tokens)) (fun series => (itemsOf series).map value) := by
  intro ts as rest h
  rcases Gives.of_orElse h with h | ⟨-, h⟩
  · obtain ⟨series, rfl, rfl⟩ := hp.series _ _ _ h
    exact ⟨some series, rfl, rfl⟩
  · obtain ⟨rfl, rfl⟩ := gives_pure.mp h
    exact ⟨none, rfl, rfl⟩

theorem Takes.optional (hp : p.Takes tokens value) :
    p.optional.Takes (Staging.optional tokens) (Option.map value) := by
  intro ts found rest h
  rcases Gives.of_orElse h with h | ⟨-, h⟩
  · obtain ⟨a, mid, first, made⟩ := gives_bind.mp h
    obtain ⟨rfl, rfl⟩ := gives_pure.mp made
    obtain ⟨t, rfl, rfl⟩ := hp _ _ _ first
    exact ⟨some t, rfl, rfl⟩
  · obtain ⟨rfl, rfl⟩ := gives_pure.mp h
    exact ⟨none, rfl, rfl⟩

theorem Takes.orEmpty {p : Attempt (List α)} {value : τ → List α} (hp : p.Takes tokens value) :
    (orEmpty p).Takes (Staging.optional tokens) fun t => (t.map value).getD [] := by
  intro ts as rest h
  obtain ⟨found, mid, first, made⟩ := gives_bind.mp h
  obtain ⟨rfl, rfl⟩ := gives_pure.mp made
  obtain ⟨t, rfl, rfl⟩ := hp.optional _ _ _ first
  exact ⟨t, rfl, rfl⟩

/-- Separators and items are taken in turn, until no separator with an item behind it follows. -/
theorem Accepts.sepBy1 {sep : Attempt Unit} (mark : σ → List Lexed) (follow' : List Lexed → Prop)
    {t : τ} {others : List (σ × τ)} (first : p.Accepts tokens value follow t)
    (each : ∀ other ∈ others, p.Accepts tokens value follow other.2)
    (seps : ∀ s t r, sep.Gives (mark s ++ (tokens t ++ r)) () (tokens t ++ r))
    (some : ∀ s, mark s ≠ []) (inner : ∀ s r, follow (mark s ++ r))
    (last : ∀ r, follow' r → follow r)
    (stop : ∀ r, follow' r → ((sep >>= fun _ => p) r).value = none) :
    (Attempt.sepBy1 sep p).Accepts (fun items : τ × List (σ × τ) =>
        tokens items.1 ++ items.2.flatMap fun other => mark other.1 ++ tokens other.2)
      (fun items => value items.1 :: items.2.map fun other => value other.2) follow' (t, others) := by
  intro rest hrest
  have later : Accepts (Attempt.many (sep.bind fun _ => p))
      (List.flatMap fun other : σ × τ => mark other.1 ++ tokens other.2)
      (List.map fun other => value other.2) follow' others := by
    refine Accepts.many others follow' (fun other h r hr => ?_) (fun other => by simp [some]) (fun other r => ?_) last
      stop
    · rw [List.append_assoc]
      exact gives_bind.mpr ⟨(), _, seps _ _ _, each other h r hr⟩
    · rw [List.append_assoc]
      exact inner _ _
  have behind : follow (others.flatMap (fun other => mark other.1 ++ tokens other.2) ++ rest) := by
    cases others with
    | nil => exact last rest hrest
    | cons other others =>
      rw [List.flatMap_cons, List.append_assoc, List.append_assoc]
      exact inner _ _
  rw [List.append_assoc]
  exact gives_bind.mpr ⟨_, _, first _ behind, gives_bind.mpr ⟨_, _, later rest hrest,
    gives_pure.mpr ⟨rfl, rfl⟩⟩⟩

theorem comma_fails {r : List Lexed} (h : NoComma r) : ((parseComma >>= fun _ => p) r).value = none :=
  bind_fails (token_fails h)

theorem Accepts.series (series : Series τ)
    (each : ∀ t ∈ series.items, p.Accepts tokens value Always t) :
    (Attempt.sepBy1 parseComma p).Accepts (Series.tokens tokens) (fun series => series.items.map value)
      NoComma series := by
  obtain ⟨first, others⟩ := series
  intro rest hrest
  have whole := Accepts.sepBy1 (fun span => [.mark .comma span]) NoComma (each first (by simp [Series.items]))
    (fun other h => each other.2 (List.mem_cons_of_mem _ (List.mem_map_of_mem h)))
    (fun s t r => gives_comma.mpr ⟨s, rfl⟩) (fun s => by simp) (fun _ _ => trivial)
    (fun _ _ => trivial) (fun r hr => comma_fails hr) rest hrest
  simpa [Series.items, Series.tokens, laterItems, Function.comp_def] using whole

theorem Accepts.optional (follow : List Lexed → Prop) {found : Option τ}
    (each : ∀ t, found = some t → p.Accepts tokens value follow t)
    (last : ∀ r, follow' r → follow r) (stop : ∀ r, follow' r → (p r).value = none) :
    p.optional.Accepts (Staging.optional tokens) (Option.map value) follow' found := by
  intro rest hrest
  cases found with
  | none =>
    refine Gives.orElse_right ?_ (gives_pure.mpr ⟨rfl, rfl⟩)
    exact bind_fails (stop rest hrest)
  | some t =>
    exact Gives.orElse_left (gives_bind.mpr ⟨_, _, each t rfl rest (last rest hrest),
      gives_pure.mpr ⟨rfl, rfl⟩⟩)

theorem Accepts.orEmpty (follow : List Lexed → Prop) {p : Attempt (List α)} {value : τ → List α}
    {found : Option τ} (each : ∀ t, found = some t → p.Accepts tokens value follow t)
    (last : ∀ r, follow' r → follow r) (stop : ∀ r, follow' r → (p r).value = none) :
    (orEmpty p).Accepts (Staging.optional tokens) (fun t => (t.map value).getD []) follow' found :=
  fun rest hrest => gives_bind.mpr ⟨_, _, Accepts.optional follow each last stop rest hrest,
    gives_pure.mpr ⟨rfl, rfl⟩⟩

theorem Accepts.sepBy (follow : List Lexed → Prop) (series : Option (Series τ))
    (each : ∀ t, p.Accepts tokens value Always t)
    (last : ∀ r, follow r → NoComma r) (stop : ∀ r, follow r → (p r).value = none) :
    (Attempt.sepBy parseComma p).Accepts (Staging.optional (Series.tokens tokens))
      (fun series => (itemsOf series).map value) follow series := by
  intro rest hrest
  cases series with
  | none =>
    refine Gives.orElse_right ?_ (gives_pure.mpr ⟨rfl, rfl⟩)
    exact bind_fails (stop rest hrest)
  | some series => exact Gives.orElse_left (Accepts.series series (fun t _ => each t) rest (last rest hrest))

end Lists

end Attempt

end Staging
