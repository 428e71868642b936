import Mathlib.Data.List.DropRight
import Staging.Proofs.Closed
import Staging.Proofs.Loading
import Staging.Proofs.Naming
import Staging.Proofs.Patterns

namespace Staging

/-- What stands behind the quote that ends a string: the first one that no unpaired backslash
stands in front of. The flag tells whether the text itself stands behind such a backslash. -/
def pastQuote : Bool → List Char → Option (List Char)
  | _, [] => none
  | true, _ :: cs => pastQuote false cs
  | false, c :: cs => if c = '"' then some cs else pastQuote (c == '\\') cs

/-- What stands behind the string that a text starts with. -/
def pastString : List Char → Option (List Char)
  | '"' :: cs => pastQuote false cs
  | _ => none

/-- A quoted name ends where its own closing quote stands, whatever follows. -/
def Enclosed (s : String) : Prop :=
  ∀ rest, pastString ((dotQuoted s).toList ++ rest) = some rest

/-- The strings of a text with their quotes, as they are met from its start on. -/
inductive HasStrings : List Char → List (List Char) → Prop
  | done : HasStrings [] []
  | other {c : Char} {cs : List Char} {ss : List (List Char)} :
      c ≠ '"' → HasStrings cs ss → HasStrings (c :: cs) ss
  | string {s cs : List Char} {ss : List (List Char)} :
      pastString (s ++ cs) = some cs → HasStrings cs ss → HasStrings (s ++ cs) (s :: ss)

/-- The number of backslashes at the end of a text. -/
def backslashes (cs : List Char) : Nat :=
  (cs.rtakeWhile (· == '\\')).length

/-- The backslashes in front of each quote of a text, and those at its end, are even in number, with
those that stand before the text. -/
def PairedBehind (before cs : List Char) : Prop :=
  ∀ i ≤ cs.length, (cs.drop i).head?.all (· == '"') → Even (backslashes (before ++ cs.take i))

instance : DecidableRel PairedBehind :=
  fun _ cs => inferInstanceAs (Decidable (∀ i ≤ cs.length, _ → _))

/-- The backslashes in front of each quote in a name, and those at its end, are even in number. -/
def Paired (s : String) : Prop :=
  PairedBehind [] s.toList

instance : DecidablePred Paired :=
  fun s => inferInstanceAs (Decidable (PairedBehind [] s.toList))

/-- One character of a name is read in its quoted form, behind an unpaired backslash or not: does it
leave one? There is no answer if the string ends at that character. -/
def quoteStep (unpaired : Bool) (c : Char) : Option Bool :=
  if c = '"' then if unpaired then none else some false else some (!unpaired && c == '\\')

def quoteRun (unpaired : Bool) (cs : List Char) : Option Bool :=
  cs.foldlM quoteStep unpaired

/-- A text in which neither a quote nor a backslash stands. -/
def Clean (s : String) : Prop :=
  ∀ c ∈ s.toList, c ≠ '"' ∧ c ≠ '\\'

instance : DecidablePred Clean :=
  fun s => List.decidableBAll _ s.toList

section Reading

variable {unpaired : Bool} {cs rest : List Char} {c : Char} {s t : String}

theorem pastQuote_length (h : pastQuote unpaired cs = some rest) : rest.length < cs.length := by
  induction cs generalizing unpaired with
  | nil => cases unpaired <;> cases h
  | cons c cs ih =>
    cases unpaired with
    | true => exact Nat.lt_succ_of_lt (ih h)
    | false =>
      rw [pastQuote] at h
      split at h
      · cases h
        exact Nat.lt_succ_self _
      · exact Nat.lt_succ_of_lt (ih h)

/-- The characters between the quotes of a quoted name. -/
def dotEscape (c : Char) : List Char :=
  if c = '"' then ['\\', '"'] else [c]

theorem toList_dotQuoted (s : String) :
    (dotQuoted s).toList = '"' :: (s.toList.flatMap dotEscape ++ ['"']) :=
  String.toList_ofList

theorem pastQuote_escaped_iff :
    pastQuote unpaired (cs.flatMap dotEscape ++ '"' :: rest) = some rest ↔
      quoteRun unpaired cs = some false := by
  induction cs generalizing unpaired with
  | nil =>
    cases unpaired with
    | false => simp [pastQuote, quoteRun]
    | true =>
      -- The backslash takes the closing quote, so that the string ends later or not at all.
      have later : pastQuote false rest ≠ some rest := fun h => absurd (pastQuote_length h) (by simp)
      simpa [pastQuote, quoteRun] using later
  | cons c cs ih =>
    simp only [quoteRun, List.foldlM_cons, List.flatMap_cons, List.append_assoc] at ih ⊢
    by_cases quote : c = '"'
    · subst quote
      cases unpaired with
      | false => simpa [dotEscape, pastQuote, quoteStep] using ih
      | true =>
        -- The backslash takes the one that escapes the quote, so that the string ends here.
        have earlier : cs.flatMap dotEscape ++ '"' :: rest ≠ rest := fun h => by
          have := congrArg List.length h
          simp only [List.length_append, List.length_cons] at this
          omega
        simpa [dotEscape, pastQuote, quoteStep] using earlier
    · cases unpaired <;> simpa [dotEscape, pastQuote, quoteStep, quote] using ih

theorem pastString_dotQuoted_iff :
    pastString ((dotQuoted s).toList ++ rest) = some rest ↔ quoteRun false s.toList = some false := by
  rw [toList_dotQuoted, ← pastQuote_escaped_iff, List.cons_append, List.append_assoc]
  rfl

theorem enclosed_iff_quoteRun : Enclosed s ↔ quoteRun false s.toList = some false :=
  ⟨fun h => pastString_dotQuoted_iff.mp (h []), fun h _ => pastString_dotQuoted_iff.mpr h⟩

theorem backslashes_concat (cs : List Char) (c : Char) :
    backslashes (cs ++ [c]) = if c = '\\' then backslashes cs + 1 else 0 := by
  unfold backslashes
  rw [List.rtakeWhile_concat]
  split <;> simp_all

theorem pairedBehind_nil {before : List Char} :
    PairedBehind before [] ↔ Even (backslashes before) := by
  simp [PairedBehind]

theorem pairedBehind_cons {before : List Char} : PairedBehind before (c :: cs) ↔
    (c = '"' → Even (backslashes before)) ∧ PairedBehind (before ++ [c]) cs := by
  constructor
  · intro all
    refine ⟨fun quote => by simpa [quote] using all 0 (by simp), fun i hi => ?_⟩
    simpa using all (i + 1) (by simpa using hi)
  · rintro ⟨first, later⟩ i hi
    cases i with
    | zero => simpa using first
    | succ i => simpa using later i (by simpa using hi)

theorem quoteStep_backslashes (before : List Char) (c : Char) :
    quoteStep (decide (Odd (backslashes before))) c =
      if c = '"' → Even (backslashes before) then some (decide (Odd (backslashes (before ++ [c]))))
      else none := by
  by_cases even : Even (backslashes before) <;> by_cases quote : c = '"' <;>
    by_cases slash : c = '\\' <;>
    simp_all [quoteStep, backslashes_concat, ← Nat.not_even_iff_odd]

theorem quoteRun_backslashes (before cs : List Char) :
    quoteRun (decide (Odd (backslashes before))) cs = some false ↔ PairedBehind before cs := by
  induction cs generalizing before with
  | nil => simp [quoteRun, pairedBehind_nil]
  | cons c cs ih =>
    rw [pairedBehind_cons, ← ih, quoteRun, List.foldlM_cons, quoteStep_backslashes]
    split
    next fine => exact (and_iff_right fine).symm
    next early => simp [early]

/-- The quotes of a name are told from the one that closes it just if its backslashes are paired. -/
theorem enclosed_iff : Enclosed s ↔ Paired s := by
  rw [enclosed_iff_quoteRun]
  exact quoteRun_backslashes [] s.toList

theorem quoteRun_append {ds : List Char} :
    quoteRun unpaired (cs ++ ds) = (quoteRun unpaired cs).bind fun unpaired => quoteRun unpaired ds :=
  List.foldlM_append

theorem Clean.run (clean : Clean s) : quoteRun false s.toList = some false := by
  unfold Clean at clean
  generalize s.toList = cs at clean
  induction cs with
  | nil => rfl
  | cons c cs ih =>
    obtain ⟨⟨quote, slash⟩, later⟩ := List.forall_mem_cons.mp clean
    simpa [quoteRun, quoteStep, quote, beq_false_of_ne slash] using ih later

theorem clean_of_isWordChar (h : ∀ c ∈ s.toList, isWordChar c = true) : Clean s := by
  intro c hc
  constructor <;> rintro rfl <;> exact absurd (h _ hc) (by decide)

theorem clean_toString (n : Nat) : Clean (toString n) := by
  refine clean_of_isWordChar fun c hc => ?_
  rw [toList_toString] at hc
  exact isDigit_isWordChar (Nat.isDigit_of_mem_toDigits (by decide) (by decide) hc)

theorem Clean.append (hs : Clean s) (ht : Clean t) : Clean (s ++ t) := by
  unfold Clean
  rw [String.toList_append, List.forall_mem_append]
  exact ⟨hs, ht⟩

theorem Clean.run_append (clean : Clean s) :
    quoteRun false (s ++ t).toList = quoteRun false t.toList := by
  rw [String.toList_append, quoteRun_append, clean.run, Option.bind_some]

theorem quote_not_mem_append (hs : '"' ∉ s.toList) (ht : '"' ∉ t.toList) :
    '"' ∉ (s ++ t).toList := by
  rw [String.toList_append, List.mem_append, not_or]
  exact ⟨hs, ht⟩

theorem quote_not_mem_join {lines : List String} (h : ∀ s ∈ lines, '"' ∉ s.toList) :
    '"' ∉ (String.join lines).toList := by
  simpa [String.toList_join] using h

theorem Clean.quote_not_mem (clean : Clean s) : '"' ∉ s.toList :=
  fun h => (clean _ h).1 rfl

theorem Clean.enclosed (clean : Clean s) : Enclosed s :=
  enclosed_iff_quoteRun.mpr clean.run

end Reading

/-- A text consists of quoted names and of what holds no quote. -/
inductive Draws : String → List String → Prop
  | plain {t : String} : '"' ∉ t.toList → Draws t []
  | name (s : String) : Draws (dotQuoted s) [s]
  | append {t u : String} {names others : List String} :
      Draws t names → Draws u others → Draws (t ++ u) (names ++ others)

section Drawing

variable {s t : String} {cs : List Char} {ss : List (List Char)} {names : List String}

theorem hasStrings_cons_of_ne {c : Char} (ne : c ≠ '"') :
    HasStrings (c :: cs) ss ↔ HasStrings cs ss := by
  refine ⟨fun h => ?_, .other ne⟩
  generalize whole : c :: cs = text at h
  cases h with
  | done => cases whole
  | other _ later =>
    cases whole
    exact later
  | @string s rest ss ends later =>
    rw [← whole, pastString] at ends
    · cases ends
    · exact fun _ starts => ne (List.cons.inj starts).1

theorem hasStrings_append (plain : '"' ∉ cs) {rest : List Char} :
    HasStrings (cs ++ rest) ss ↔ HasStrings rest ss := by
  induction cs with
  | nil => rfl
  | cons c cs ih =>
    rw [List.mem_cons, not_or] at plain
    rw [List.cons_append, hasStrings_cons_of_ne (Ne.symm plain.1), ih plain.2]

theorem hasStrings_dotQuoted :
    HasStrings ((dotQuoted s).toList ++ cs) ((dotQuoted s).toList :: ss) ↔
      Enclosed s ∧ HasStrings cs ss := by
  constructor
  · intro h
    generalize whole : (dotQuoted s).toList ++ cs = text at h
    generalize first : (dotQuoted s).toList :: ss = strings at h
    cases h with
    | done => cases first
    | other ne later =>
      rw [toList_dotQuoted] at whole
      cases whole
      exact absurd rfl ne
    | string ends later =>
      cases first
      cases List.append_cancel_left whole
      exact ⟨enclosed_iff_quoteRun.mpr (pastString_dotQuoted_iff.mp ends), later⟩
  · rintro ⟨enclosed, later⟩
    exact .string (enclosed cs) later

/-- The strings that a reader meets are the names as they were quoted, just if each of these ends
where it was closed. -/
theorem Draws.hasStrings_iff (h : Draws t names) :
    HasStrings t.toList (names.map fun s => (dotQuoted s).toList) ↔ ∀ s ∈ names, Enclosed s := by
  have behind : ∀ cs ss, HasStrings (t.toList ++ cs) (names.map (fun s => (dotQuoted s).toList) ++ ss) ↔
      (∀ s ∈ names, Enclosed s) ∧ HasStrings cs ss := by
    induction h with
    | plain none => exact fun cs ss => by simp [hasStrings_append none]
    | name s => exact fun cs ss => by simpa using hasStrings_dotQuoted
    | append _ _ ih ih' =>
      intro cs ss
      rw [String.toList_append, List.append_assoc, List.map_append, List.append_assoc, ih, ih',
        List.forall_mem_append, and_assoc]
  simpa [HasStrings.done] using behind [] []

theorem Draws.join {α : Type} {f : α → Option String} {g : α → List String} {l : List α}
    {texts : List String} (h : l.mapM f = some texts)
    (each : ∀ a ∈ l, ∀ text, f a = some text → Draws text (g a)) :
    Draws (String.join texts) (l.flatMap g) := by
  induction l generalizing texts with
  | nil =>
    cases h
    exact .plain (by simp)
  | cons a l ih =>
    rw [List.mapM_cons] at h
    simp only [bind, Option.bind_eq_some_iff, pure, Option.some.injEq] at h
    obtain ⟨text, first, texts, later, rfl⟩ := h
    rw [String.join_cons, List.flatMap_cons]
    exact .append (each a (by simp) text first) (ih later fun b hb => each b (by simp [hb]))

end Drawing

/-- The names that are quoted where a region is drawn. -/
def Region.dotNames (r : Region) (g : DepGraph) (levels : Option Levels) : List String :=
  r.name :: "Helvetica" :: "Helvetica" ::
    r.dataflowNodes.flatMap (fun n => (r.dotLabel levels n).toList) ++
    g.toList.flatMap fun e => (r.valueText e.2.carrier.id).toList

section Regions

variable {r : Region} {g : DepGraph} {levels : Option Levels} {n : NodeId} {s : String}

theorem NodeId.quote_not_mem (n : NodeId) : '"' ∉ n.text.toList :=
  quote_not_mem_append (by decide) (clean_toString n.index).quote_not_mem

theorem Region.dotNode_draws (h : r.dotNode levels n = some s) :
    Draws s (r.dotLabel levels n).toList := by
  simp only [dotNode, bind, Option.bind_eq_some_iff, pure, Option.some.injEq] at h
  obtain ⟨kind, -, label, hl, rfl⟩ := h
  have front : '"' ∉ ("    " ++ n.text ++ " [" ++ kind.dotStyle ++ ", label=").toList := by
    have style : '"' ∉ kind.dotStyle.toList := by
      unfold NodeKind.dotStyle
      split <;> decide
    simp [n.quote_not_mem, style]
  rw [hl]
  exact ((Draws.plain front).append (.name label)).append (.plain (by decide))

theorem Region.dotEdge_draws {e : NodeId × Edge} (h : r.dotEdge levels e.1 e.2 = some s) :
    Draws s (r.valueText e.2.carrier.id).toList := by
  simp only [dotEdge, bind, Option.bind_eq_some_iff, pure, Option.some.injEq] at h
  obtain ⟨carrier, hc, rfl⟩ := h
  have front : '"' ∉ ("    " ++ e.1.text ++ " -> " ++ e.2.consumer.text ++ " [label=").toList := by
    simp [NodeId.quote_not_mem]
  have style (skips memory : Bool) : '"' ∉ (dotEdgeStyle skips memory).toList := by
    cases skips <;> cases memory <;> decide
  rw [hc]
  exact (((Draws.plain front).append (.name carrier)).append (.plain (by decide))).append
    (.plain (style _ _)) |>.append (.plain (by decide))

theorem dotRank_quote_not_mem (rank : Nat × List NodeId) : '"' ∉ (dotRank rank).toList := by
  have members : '"' ∉ (String.join (rank.2.map fun n => " " ++ n.text ++ ";")).toList := by
    refine quote_not_mem_join (List.forall_mem_map.mpr fun n _ => ?_)
    exact quote_not_mem_append (quote_not_mem_append (by decide) n.quote_not_mem) (by decide)
  have level : '"' ∉ ("    \x7b rank=same; /* level " ++ toString rank.1 ++ " */").toList :=
    quote_not_mem_append (quote_not_mem_append (by decide) (clean_toString rank.1).quote_not_mem)
      (by decide)
  exact quote_not_mem_append (quote_not_mem_append level members) (by decide)

theorem Draws.section {lines : List String} (h : Draws (String.join lines) names) :
    Draws (dotSection lines) names := by
  unfold dotSection
  split
  next none =>
    rw [List.isEmpty_iff.mp none] at h
    exact h
  next => exact (Draws.plain (by decide)).append h

/-- What is drawn consists of the names that are quoted, and of what holds no quote. -/
theorem Region.dot_draws (h : r.dot g levels = some s) : Draws s (r.dotNames g levels) := by
  simp only [dot, bind, Option.bind_eq_some_iff, pure, Option.some.injEq] at h
  obtain ⟨nodes, hn, edges, he, rfl⟩ := h
  have font {t : String} (before after : String) (split : before ++ dotQuoted "Helvetica" ++ after = t)
      (hb : '"' ∉ before.toList) (ha : '"' ∉ after.toList) : Draws t ["Helvetica"] :=
    split ▸ ((Draws.plain hb).append (.name _)).append (.plain ha)
  have nodeFont : Draws "    node [fontname=\"Helvetica\", fontsize=10];\n" ["Helvetica"] :=
    font "    node [fontname=" ", fontsize=10];\n" (by decide) (by decide) (by decide)
  have edgeFont : Draws "    edge [fontname=\"Helvetica\", fontsize=9];\n\n" ["Helvetica"] :=
    font "    edge [fontname=" ", fontsize=9];\n\n" (by decide) (by decide) (by decide)
  have title : Draws ("digraph " ++ dotQuoted r.name ++ " \x7b\n" ++ "    rankdir=TB;\n") [r.name] :=
    (((Draws.plain (by decide)).append (.name _)).append (.plain (by decide))).append
      (.plain (by decide))
  have ranks : Draws (String.join ((dotRanks levels r.dataflowNodes).map dotRank)) [] :=
    .plain (quote_not_mem_join (List.forall_mem_map.mpr fun rank _ => dotRank_quote_not_mem rank))
  have drawn := ((((title.append nodeFont).append edgeFont).append
    (Draws.join hn fun n _ text => dotNode_draws)).append ranks.section).append
      (Draws.join he fun e _ text => dotEdge_draws).section
  have closed := drawn.append (.plain (t := "\x7d\n") (by decide))
  simpa only [dotNames, List.append_nil, List.append_assoc, List.cons_append, List.nil_append] using
    closed

section Labels

variable {r : Region} {levels : Option Levels} {n : NodeId} {label : String}

theorem Region.Readable.clean_valueText (readable : r.Readable) {v : ValueId} {text : String}
    (h : r.valueText v = some text) : Clean text := by
  simp only [valueText, Option.map_eq_some_iff] at h
  obtain ⟨value, hv, rfl⟩ := h
  exact Clean.append (by decide) (clean_of_isWordChar (readable.values v value hv).1.2)

theorem NodeKind.clean_mnemonic (kind : NodeKind) : Clean kind.mnemonic := by
  cases kind with
  | alloc stack => cases stack <;> decide
  | convert conversion => cases conversion <;> decide
  | _ =>
    simp only [mnemonic]
    decide

/-- The level behind a name starts with a backslash that is paired. -/
theorem Region.dotLabel_split (h : r.dotLabel levels n = some label) : ∃ name suffix,
    r.describe n = some name ∧ label = name ++ suffix ∧ quoteRun false suffix.toList = some false := by
  obtain ⟨name, described, joined⟩ := Option.bind_eq_some_iff.mp h
  cases joined
  refine ⟨name, _, described, rfl, ?_⟩
  split
  next level _ =>
    rw [String.toList_append, quoteRun_append]
    exact (clean_toString level).run
  next => rfl

/-- A label begins with what a node is, and nothing behind that needs an escape. -/
theorem Region.Readable.dotLabel_eq (readable : r.Readable) (h : r.dotLabel levels n = some label) :
    ∃ node head tail, r.node? n = some node ∧ r.headText node = some head ∧
      label = "'" ++ head ++ tail ∧ quoteRun false tail.toList = some false := by
  obtain ⟨name, suffix, described, rfl, level⟩ := dotLabel_split h
  simp only [describe, bind, Option.bind_eq_some_iff, pure] at described
  obtain ⟨node, hn, head, hh, described⟩ := described
  split at described
  next v _ =>
    obtain ⟨result, hr, joined⟩ := Option.bind_eq_some_iff.mp described
    cases joined
    have defining : Clean ("' defining " ++ result) :=
      .append (by decide) (readable.clean_valueText hr)
    refine ⟨node, head, _, hn, hh, ?_, defining.run_append.trans level⟩
    simp only [String.append_assoc]
  next =>
    cases described
    refine ⟨node, head, _, hn, hh, String.append_assoc .., ?_⟩
    exact (Clean.run_append (s := "'") (by decide)).trans level

/-- The name of an operation is all that decides whether its label ends where it was closed. -/
theorem Region.Readable.enclosed_label (readable : r.Readable)
    (h : r.dotLabel levels n = some label) :
    Enclosed label ↔ ∀ name, r.kind? n = some (.compute name) → Paired name := by
  obtain ⟨node, head, tail, hn, hh, rfl, rest⟩ := readable.dotLabel_eq h
  have kind : r.kind? n = some node.kind := by rw [kind?, hn, Option.map_some]
  simp only [kind, Option.some.injEq]
  have clean (hc : Clean head) : Enclosed ("'" ++ head ++ tail) := by
    rw [enclosed_iff_quoteRun, (Clean.append (by decide) hc).run_append]
    exact rest
  unfold headText at hh
  split at hh
  next name hk =>
    cases hh
    have closing (unpaired : Bool) : quoteRun unpaired ("\"" ++ tail).toList =
        if unpaired then none else some false := by
      rw [String.toList_append, quoteRun_append]
      cases unpaired with
      | true => rfl
      | false => exact rest
    have read : quoteRun false ("'" ++ ("op \"" ++ name ++ "\"") ++ tail).toList =
        (quoteRun false name.toList).bind fun unpaired => if unpaired then none else some false := by
      have split : "'" ++ ("op \"" ++ name ++ "\"") ++ tail = "'op \"" ++ (name ++ ("\"" ++ tail)) := by
        rw [show "'op \"" = "'" ++ "op \"" by decide]
        simp only [String.append_assoc]
      rw [split, String.toList_append, quoteRun_append,
        show quoteRun false "'op \"".toList = some false by decide, Option.bind_some,
        String.toList_append, quoteRun_append]
      simp only [closing]
    rw [enclosed_iff_quoteRun, read]
    simp [hk, ← enclosed_iff, enclosed_iff_quoteRun, Option.bind_eq_some_iff]
  next iv lower upper body hk =>
    obtain ⟨iv, hiv, rfl⟩ := Option.map_eq_some_iff.mp hh
    simpa [hk] using clean (.append (by decide) (readable.clean_valueText hiv))
  next _ operation _ =>
    cases hh
    exact iff_of_true (clean node.kind.clean_mnemonic) fun name compute =>
      absurd compute (operation name)

theorem Region.Readable.enclosed_name (readable : r.Readable) : Enclosed r.name := by
  have word : IsWord (String.ofList r.name.toList) := by
    rw [String.ofList_toList]
    exact readable.name
  exact (clean_of_isWordChar (IsWord.all word)).enclosed

theorem Region.Readable.enclosed_carrier (readable : r.Readable) (wf : r.WellFormed)
    {e : NodeId × Edge} (he : e ∈ r.deps.toList) :
    ∃ carrier, r.valueText e.2.carrier.id = some carrier ∧ Enclosed carrier := by
  obtain ⟨-, -, known⟩ := wf.deps_known e.1 e.2 he
  obtain ⟨carrier, hc⟩ := Option.isSome_iff_exists.mp (valueText_isSome known)
  exact ⟨carrier, hc, (readable.clean_valueText hc).enclosed⟩

theorem Region.WellFormed.dotLabel_exists (wf : r.WellFormed) (hn : n ∈ r.dataflowNodes)
    (levels : Option Levels) : ∃ label, r.dotLabel levels n = some label := by
  obtain ⟨name, hname⟩ := Option.isSome_iff_exists.mp
    (wf.toCoherent.describe_isSome (dataflowNodes_known wf n hn))
  simp [dotLabel, hname]

end Labels

end Regions

/-- A drawing can always be made of a loaded region, with levels or without. The names of the region
and of what its edges carry end where they were closed, and so do the labels of its nodes, but for
operations that have an odd number of backslashes in front of a quote or at the end of their name: if
there is one of these, then the strings that a reader meets are not those that were quoted. -/
theorem load_dot_enclosed {source : String} {loaded : Loaded} (h : load source = .ok loaded)
    {r : Region} (hr : r ∈ loaded.regions) (levels : Option Levels) :
    ∃ text, r.dot r.deps levels = some text ∧ Enclosed r.name ∧
      (∀ e ∈ r.deps.toList, ∃ carrier, r.valueText e.2.carrier.id = some carrier ∧ Enclosed carrier) ∧
      (∀ n ∈ r.dataflowNodes, ∃ label, r.dotLabel levels n = some label ∧
        (Enclosed label ↔ ∀ name, r.kind? n = some (.compute name) → Paired name)) ∧
      (HasStrings text.toList ((r.dotNames r.deps levels).map fun s => (dotQuoted s).toList) ↔
        ∀ n ∈ r.dataflowNodes, ∀ name, r.kind? n = some (.compute name) → Paired name) := by
  obtain ⟨wf, -, readable, -⟩ := load_readable h r hr
  obtain ⟨text, drawn⟩ := Option.isSome_iff_exists.mp (wf.dot_isSome wf.deps_known levels)
  have labels : ∀ n ∈ r.dataflowNodes, ∃ label, r.dotLabel levels n = some label ∧
      (Enclosed label ↔ ∀ name, r.kind? n = some (.compute name) → Paired name) := by
    intro n hn
    obtain ⟨label, hl⟩ := wf.dotLabel_exists hn levels
    exact ⟨label, hl, readable.enclosed_label hl⟩
  refine ⟨text, drawn, readable.enclosed_name, fun e he => readable.enclosed_carrier wf he, labels, ?_⟩
  rw [(Region.dot_draws drawn).hasStrings_iff]
  simp only [Region.dotNames, List.forall_mem_cons, List.forall_mem_append, List.mem_flatMap,
    Option.mem_toList]
  constructor
  · rintro ⟨⟨-, -, -, enclosed⟩, -⟩ n hn
    obtain ⟨label, hl, paired⟩ := labels n hn
    exact paired.mp (enclosed label ⟨n, hn, hl⟩)
  · intro paired
    have font : Enclosed "Helvetica" := Clean.enclosed (by decide)
    refine ⟨⟨readable.enclosed_name, font, font, ?_⟩, ?_⟩
    · rintro label ⟨n, hn, hl⟩
      exact (readable.enclosed_label hl).mpr (paired n hn)
    · rintro carrier ⟨e, -, hc⟩
      exact (readable.clean_valueText hc).enclosed

/-- A source text with an operation in whose name two backslashes and a quote follow one another. -/
def slashedSource : String :=
  "func @k(%in: i32) \x7b
    %a = op \"a\\\\\\\\\\\"b\"(%in) : i32
    op \"\\\\\\\\\"(%a)
  \x7d"

theorem load_dot_enclosed_slashed : ∃ loaded r levels text, load slashedSource = .ok loaded ∧
    r ∈ loaded.regions ∧ r.levels r.deps = .ok levels ∧ r.dataflowNodes.map r.kind? =
      [some (.compute "a\\\\\"b"), some (.compute "\\\\")] ∧
    r.dot r.deps (some levels) = some text ∧
    HasStrings text.toList ((r.dotNames r.deps (some levels)).map fun s => (dotQuoted s).toList) := by
  obtain ⟨loaded, hload, test⟩ := @exists_of_anyLoaded slashedSource _ (by rfl)
    (fun rs => rs.any fun r => (r.levels r.deps).toOption.isSome && r.dataflowNodes.map r.kind? =
      [some (.compute "a\\\\\"b"), some (.compute "\\\\")]) (by decide +kernel)
  obtain ⟨r, hr, test⟩ := List.any_eq_true.mp test
  simp only [Bool.and_eq_true, decide_eq_true_eq] at test
  obtain ⟨leveled, kinds⟩ := test
  cases hl : r.levels r.deps with
  | error stop =>
    rw [hl] at leveled
    cases leveled
  | ok levels =>
    obtain ⟨text, drawn, -, -, -, strings⟩ := load_dot_enclosed hload hr (some levels)
    refine ⟨loaded, r, levels, text, hload, hr, hl, kinds, drawn, strings.mpr fun n hn name hk => ?_⟩
    have mem : some (NodeKind.compute name) ∈ r.dataflowNodes.map r.kind? :=
      hk ▸ List.mem_map_of_mem hn
    rw [kinds] at mem
    simp only [List.mem_cons, List.not_mem_nil, or_false, Option.some.injEq,
      NodeKind.compute.injEq] at mem
    rcases mem with rfl | rfl <;> decide +kernel

/-- A source text with an operation whose name ends with a backslash. -/
def backslashSource : String :=
  "func @k() \x7b
  op \"a\\\\\"()
\x7d"

/-- The backslash at the end of the name takes the one that escapes the quote behind it. -/
theorem load_dot_unenclosed : ∃ loaded r text, load backslashSource = .ok loaded ∧
    r ∈ loaded.regions ∧ ⟨0⟩ ∈ r.dataflowNodes ∧ r.dot r.deps none = some text ∧
    r.dotLabel none ⟨0⟩ = some "'op \"a\\\"'" ∧ ¬Enclosed "'op \"a\\\"'" := by
  obtain ⟨loaded, hload, test⟩ := @exists_of_anyLoaded backslashSource _ (by rfl)
    (fun rs => rs.any fun r => decide (⟨0⟩ ∈ r.dataflowNodes) && (r.dot r.deps none).isSome &&
      r.dotLabel none ⟨0⟩ = some "'op \"a\\\"'") (by decide +kernel)
  obtain ⟨r, hr, test⟩ := List.any_eq_true.mp test
  simp only [Bool.and_eq_true, decide_eq_true_eq] at test
  obtain ⟨⟨first, drawn⟩, label⟩ := test
  obtain ⟨text, drawn⟩ := Option.isSome_iff_exists.mp drawn
  refine ⟨loaded, r, text, hload, hr, first, drawn, label, fun enclosed => ?_⟩
  exact absurd (enclosed []) (by decide +kernel)

end Staging
