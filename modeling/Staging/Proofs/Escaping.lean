import Staging.Proofs.Patterns
import Staging.Proofs.RoundTrip

namespace Staging

open Computability

/-- A character with the escape that the language has for it, if any. -/
def slash (c : Char) : List Char :=
  if c = '"' ∨ c = '\\' then ['\\', c] else [c]

section Strings

variable {content : List Char}

theorem slash_mem (c : Char) : slash c ∈ quotedPattern := by
  unfold slash
  split
  next either =>
    refine escape_mem ?_
    rintro rfl
    simp at either
  next neither =>
    rw [not_or] at neither
    exact plain_mem neither.1 neither.2

theorem unescape_slash (content : List Char) : unescape (content.flatMap slash) = some content := by
  induction content with
  | nil => rfl
  | cons c content ih =>
    rw [List.flatMap_cons, slash]
    split
    next either => rcases either with rfl | rfl <;> simp [unescape, ih]
    next neither =>
      rw [not_or] at neither
      simp [unescape, neither.2, ih]

/-- Every string is the content of a token. -/
theorem lex_slash (s : String) : (lex (String.ofList ('"' :: (s.toList.flatMap slash ++ ['"'])))) =
    (Piece.token (.string s)).alone (String.ofList ('"' :: (s.toList.flatMap slash ++ ['"']))) := by
  have inside : s.toList.flatMap slash ∈ quotedPattern∗ := by
    induction s.toList with
    | nil => exact Language.nil_mem_kstar _
    | cons c content ih => exact append_mem_kstar (slash_mem c) ih
  refine lex_alone String.toList_ofList ?_
  have quote : Lead.ofChar '"' = .quote := rfl
  simp only [cut, quote, cutString, stringBody_of_mem inside, Option.bind_some, unescape_slash,
    String.ofList_toList]

/-- What a string is written as is one piece of a source, and a token if the string is plain. -/
theorem lex_quoted (s : String) : lex (quoted s) =
    (if IsPlain s then Piece.token (.string s) else .bad).alone (quoted s) := by
  obtain ⟨c, cs, split, read⟩ := @cut_string [] s
  rw [List.append_nil] at split
  exact lex_alone split read

end Strings

section Modules

variable {rs : List Region}

/-- Where all nodes are numbered as they stand, a region is plain if its tokens are. -/
theorem Region.Numbered.plain_iff {r : Region} (numbered : r.Numbered) (nested : r.Nested) :
    Consists Token.Plain r.func.lexemes ↔ r.Plain := by
  refine ⟨fun written => ?_, Region.Plain.func⟩
  obtain ⟨attrs, nodes⟩ := Region.func_plain.mp written
  refine ⟨attrs, fun node hnode => ?_⟩
  obtain ⟨i, low, hi⟩ := Array.mem_iff_getElem.mp hnode
  refine nodes ⟨i⟩ ?_ node (Array.getElem?_eq_some_iff.mpr ⟨low, hi⟩)
  rw [numbered.nodeOrder nested]
  exact List.mem_map.mpr ⟨i, List.mem_range.mpr low, rfl⟩

/-- The text of regions that are numbered as they stand is accepted just if they are plain. -/
theorem moduleText_accepted (wf : ∀ r ∈ rs, r.WellFormed) (numbered : ∀ r ∈ rs, r.Numbered)
    (readable : ∀ r ∈ rs, r.Readable) (leveled : ∀ r ∈ rs, r.Leveled) :
    ∃ text, moduleText rs = some text ∧ ((parse text).errors = [] ↔ ∀ r ∈ rs, r.Plain) := by
  obtain ⟨text, written, spelled⟩ := moduleText_spells wf
  refine ⟨text, written, fun clean r hr => ?_, fun plain => ?_⟩
  · have proper : ∀ f ∈ rs.map Region.func, Consists Token.Proper f.lexemes :=
      List.forall_mem_map.mpr fun r hr => ((wf r hr).func_proper (readable r hr) (leveled r hr)).1
    have bad := (lexFrom_spell (funcsLexemes_starts (rs.map Region.func)).1
      ((Token.punctuated_proper.funcs _).mpr proper) 0).2
    rw [← spelled, ← lex, bad_of_parse clean, List.map_nil, eq_comm, List.map_eq_nil_iff,
      List.filter_eq_nil_iff] at bad
    have all : Consists Token.Plain (funcsLexemes (rs.map Region.func)) := fun t ht => by
      simpa using bad t ht
    have func := (Token.punctuated_plain.funcs _).mp all r.func (List.mem_map_of_mem hr)
    exact ((numbered r hr).plain_iff (wf r hr).toNested).mp func
  · obtain ⟨_, _, _, again, -, parsed⟩ := parse_moduleText wf readable leveled plain
    rw [Option.some.inj (written.symm.trans again), parsed]

end Modules

/-- Every string is the content of a token. What it is written as is read as that token if the
string is plain, and is no token otherwise: so the text of a loaded module is accepted just if all
its strings are plain. -/
theorem quoted_read_iff (s source : String) :
    (∃ written span, lex written = ⟨[⟨.string s, span⟩], []⟩) ∧
    lex (quoted s) = (if IsPlain s then ⟨[⟨.string s, ⟨0, byteLength (quoted s).toList⟩⟩], []⟩
      else ⟨[], [⟨quoted s, ⟨0, byteLength (quoted s).toList⟩⟩]⟩) ∧
    ∀ loaded, load source = .ok loaded → ∃ text, moduleText loaded.regions = some text ∧
      ((parse text).errors = [] ↔ ∀ r ∈ loaded.regions, r.Plain) := by
  refine ⟨⟨_, _, lex_slash s⟩, ?_, fun loaded h => ?_⟩
  · rw [lex_quoted]
    split <;> rfl
  · have readable := load_readable h
    exact moduleText_accepted (fun r hr => (readable r hr).1) (fun r hr => (readable r hr).2.1)
      (fun r hr => (readable r hr).2.2.1) fun r hr => (readable r hr).2.2.2

/-- A source text with quotes, backslashes and other letters in its strings. -/
def letteredSource : String :=
  "func @k() attributes \x7bnote = \"\\\"\\\\\"\x7d \x7b
    op \"é漢😀'\"()
  \x7d"

theorem quoted_read_iff_lettered : ∃ loaded text, load letteredSource = .ok loaded ∧
    moduleText loaded.regions = some text ∧ (∀ r ∈ loaded.regions, r.Plain) ∧
    (parse text).errors = [] := by
  obtain ⟨loaded, hload, test⟩ := @exists_of_anyLoaded letteredSource _ (by rfl)
    (fun rs => rs.all fun r => r.Plain) (by decide +kernel)
  have plain : ∀ r ∈ loaded.regions, r.Plain := by simpa using test
  obtain ⟨text, written, accepted⟩ := (quoted_read_iff "" letteredSource).2.2 loaded hload
  exact ⟨loaded, text, hload, written, plain, accepted.mpr plain⟩

/-- A source text with a tab in the name of an operation. -/
def tabbedSource : String :=
  "func @k() \x7b
    op \"a\tb\"()
  \x7d"

/-- A tab is written as an escape that is no part of the language. -/
theorem load_written_unreadable : lex "\"a\tb\"" = ⟨[⟨.string "a\tb", ⟨0, 5⟩⟩], []⟩ ∧
    lex (quoted "a\tb") = ⟨[], [⟨"\"a\\tb\"", ⟨0, 6⟩⟩]⟩ ∧
    ∃ loaded text, load tabbedSource = .ok loaded ∧ moduleText loaded.regions = some text ∧
      (parse text).errors ≠ [] := by
  refine ⟨lex_slash "a\tb", lex_quoted "a\tb", ?_⟩
  obtain ⟨loaded, hload, test⟩ := @exists_of_anyLoaded tabbedSource _ (by rfl)
    (fun rs => rs.any fun r => ¬r.Plain) (by decide +kernel)
  have readable := load_readable hload
  obtain ⟨text, written, accepted⟩ := moduleText_accepted (fun r hr => (readable r hr).1)
    (fun r hr => (readable r hr).2.1) (fun r hr => (readable r hr).2.2.1)
    fun r hr => (readable r hr).2.2.2
  refine ⟨loaded, text, hload, written, fun clean => ?_⟩
  obtain ⟨r, hr, other⟩ := List.any_eq_true.mp test
  exact (of_decide_eq_true other) (accepted.mp clean r hr)

end Staging
