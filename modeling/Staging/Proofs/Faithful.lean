import Staging.Proofs.Derivable
import Staging.Proofs.Realizing

namespace Staging

namespace Lowering

theorem lowerArgs_reports (args : List ArgDecl) : Lower.Reports (lowerArgs args) := by
  induction args with
  | nil => exact .pure ()
  | cons arg args ih =>
    refine (@lowerType_clean (fun _ => True) arg.type).reports.bind fun type =>
      (@checkNew_clean (fun _ => True) arg.name).reports.bind fun new => ?_
    cases new with
    | false => exact ih
    | true =>
      cases type with
      | none => exact (bind_reports arg.name none).bind fun _ => ih
      | some type => exact (onRegion_reports _).bind fun v => (bind_reports arg.name _).bind fun _ => ih

/-- An argument is left out with an error, or becomes a value. -/
theorem lowerArgs_declares {s : Lowering} {visible : List ValueId} (tracks : s.Tracks visible)
    (args : List ArgDecl) : Lower.Clean (· = s) (lowerArgs args) fun _ t => ∃ vs,
      List.Forall₂ t.region.Declares args vs ∧
      t.region = { s.region with args := s.region.args ++ vs, values := t.region.values } ∧
      (∀ v value, s.region.value? v = some value → t.region.value? v = some value) ∧
      t.Tracks (vs.reverse ++ visible) := by
  induction args generalizing s visible with
  | nil =>
    refine .pure ?_
    rintro _ rfl
    exact ⟨[], .nil, by simp, fun _ _ h => h, tracks⟩
  | cons arg args ih =>
    have later := fun _ : Unit => lowerArgs_reports args
    refine (lowerType_clean arg.type).bind fun found => (checkNew_clean arg.name).bind fun new => ?_
    cases new with
    | false =>
      refine .unreached (later ()) ?_
      rintro s ⟨-, ⟨⟩, -⟩
    | true =>
    cases found with
    | none =>
      refine .unreached ((bind_reports arg.name none).bind later) ?_
      rintro s ⟨⟨-, _, ⟨⟩, -⟩, -⟩
    | some type =>
      have bound (v : ValueId) := (bind_reports arg.name (some v)).bind later
      refine .of_each ((onRegion_reports _).bind bound) ?_
      rintro s ⟨⟨rfl, _, ⟨⟩, known⟩, -, new⟩
      let v : ValueId := ⟨s.region.values.size⟩
      let q : Region := (s.region.addArg arg.name.text type).2
      have named : q.value? v = some ⟨arg.name.text, type, .arg s.region.args.length⟩ := by
        rw [Region.value?_addArg, if_pos rfl]
      have old : ∀ w, w.index < s.region.values.size → q.value? w = s.region.value? w := fun w hw => by
        rw [Region.value?_addArg, if_neg]
        rintro rfl
        exact absurd hw (lt_irrefl _)
      have tracks' : (s.withArg arg.name type).Tracks ([v].reverse ++ visible) := by
        refine tracks.define (q := q) (by simpa using new) ?_ old (fun w => ?_) (fun n w hw => hw) ?_
        · simp [Region.nameOf, q, Region.value?_addArg]
        · obtain ⟨i⟩ := w
          simp only [q, Region.values_addArg, List.mem_singleton, ValueId.mk.injEq]
          omega
        · intro w hw u hu
          exact Or.inl ((List.mem_singleton.mp hw).trans (List.mem_singleton.mp hu).symm)
      have first : onRegion (fun r => r.addArg arg.name.text type) s = (v, { s with region := q }) := rfl
      refine .run first (onRegion_reports _) bound
        (.run (bind_eq tracks.opened) (bind_reports _ _) later ((ih tracks').imp ?_))
      rintro _ t ⟨vs, declared, region, grown, tracked⟩
      refine ⟨v :: vs, .cons ⟨type, _, known, grown v _ named⟩ declared, ?_, fun w found hw => ?_, ?_⟩
      · rw [region]
        simp [withArg, Lowering.bound, Region.addArg, Region.addValue, v]
      · exact grown w found ((old w (Region.index_lt_of_value? hw)).trans hw)
      · simpa using tracked

end Lowering

/-- What a function says is left out with an error, or is in its region. -/
theorem Func.lower_realizes (f : Func) (formed : BlockFormed f.body) :
    (∀ d ∈ f.lower.2, d.isError = true) ∧
      (f.lower.2 = [] → f.lower.1.RealizesFunc f ∧ f.lower.1.Apart) := by
  let start : Lowering := .start f
  have tracks : start.Tracks [] := by
    refine ⟨List.cons_ne_nil _ _, rfl, nofun, fun v hv => ?_, fun v w hv => ?_⟩ <;>
    simp [start, Lowering.start, Region.empty] at hv
  have bare : Lowering.Bare start.region :=
    ⟨rfl, rfl, by simp [start, Lowering.start, Region.empty], by simp [start, Lowering.start, Region.empty]⟩
  have whole : Lower.Clean (· = start) (Lowering.lowerFunc f) fun _ t =>
      t.region.RealizesFunc f ∧ t.region.Apart := by
    have body := fun _ : Unit => Lowering.lowerBlock_reports none f.body
    have attrs := fun _ : Unit =>
      (@Lowering.applyFuncAttrs_clean start f.attrs).reports.bind body
    refine ((Lowering.lowerArgs_declares tracks f.args).withSpec
      (Lowering.lowerArgs_spec bare tracks.shows f.args)).bind fun _ => .of_each (attrs ()) ?_
    rintro s ⟨⟨vs, declared, region, -, tracks'⟩, bare', -⟩
    refine (Lowering.applyFuncAttrs_clean f.attrs).bind fun _ => .of_each (body ()) ?_
    rintro _ ⟨flag, flags, rfl⟩
    let q : Region := { s.region with
      dataflow := flag, attrs := s.region.attrs.setAll dataflowKey f.attrs }
    have lawful : q.Lawful :=
      bare'.lawful.of_sameNodes ⟨rfl, rfl, rfl, rfl, rfl, rfl, rfl⟩ (List.Perm.refl _)
    have tracked : Lowering.Tracks { s with region := q } _ := tracks'.congr rfl rfl
    refine (Lowering.lowerBlock_appends lawful tracked none (by simp) f.body formed).imp ?_
    rintro _ t ⟨ns, appended⟩
    have args : s.region.args = vs := by rw [region]; rfl
    have name : s.region.name = f.name.text := by rw [region]; rfl
    have span : s.region.span = f.span := by rw [region]; rfl
    have noAttrs : s.region.attrs = [] := by rw [region]; rfl
    have unmarked : s.region.dataflow = false := by rw [region]; rfl
    have header := appended.wrote.header
    have args' : t.region.args = vs := (congrArg Region.args header).trans args
    have body' : t.region.body = ns := by simpa [q, bare'.body] using appended.wrote.body
    refine ⟨⟨(congrArg Region.name header).trans name, (congrArg Region.span header).trans span,
      ?_, ?_, ?_, ?_⟩, appended.tracks.apart⟩
    · rw [args']
      refine declared.imp ?_
      rintro arg v ⟨type, i, known, hv⟩
      exact ⟨type, i, known, (appended.wrote.value v (Region.index_lt_of_value? hv)).trans hv⟩
    · rw [congrArg Region.dataflow header, ← unmarked]
      exact flags
    · rw [congrArg Region.attrs header]
      simp only [q, noAttrs]
      exact Attrs.collects_setAll dataflowKey f.attrs
    · rw [args', body']
      simpa using appended.realizes
  obtain ⟨ds, added, errors⟩ := whole.reports start
  have all : f.lower.2 = ds := added
  refine ⟨fun d hd => errors d (all ▸ hd), fun none => ?_⟩
  exact whole.silent start rfl none

def Item.func? : Item → Option Func
  | .setting _ => none
  | .func f => some f

/-- The functions of a program in their order. -/
def Program.funcs (p : Program) : List Func :=
  p.items.filterMap Item.func?

/-- A function is left out with an error, or has a region. -/
theorem lowerItems_realizes {taken : List (String × Span)} {items : List Item}
    (formed : ∀ f, Item.func f ∈ items → BlockFormed f.body)
    (clean : anyError (lowerItems taken items).2 = false) :
    List.Forall₂ (fun f r => Region.RealizesFunc r f ∧ r.Apart) (items.filterMap Item.func?)
      (lowerItems taken items).1 := by
  induction items generalizing taken with
  | nil => exact .nil
  | cons item items ih =>
    have others : ∀ f, Item.func f ∈ items → BlockFormed f.body := fun f hf =>
      formed f (List.mem_cons_of_mem _ hf)
    cases item with
    | setting setting => exact ih others clean
    | func f =>
      unfold lowerItems at clean ⊢
      split at clean
      next previous old => simp [anyError, Diagnostic.isError, Diagnostic.redefinedFunction,
          Diagnostic.error] at clean
      next new =>
        simp only [anyError, List.any_append, Bool.or_eq_false_iff] at clean
        obtain ⟨errors, faithful⟩ := f.lower_realizes (formed f (by simp))
        have none : f.lower.2 = [] := by
          refine List.eq_nil_iff_forall_not_mem.mpr fun d hd => ?_
          exact List.any_eq_false.mp clean.1 d hd (errors d hd)
        exact .cons (faithful none) (ih others clean.2)

theorem derivation_of_parse {source : String} {p : Program} (h : (parse source).program = some p) :
    ∃ phrase : SourcePhrase, phrase.tokens = (lex source).tokens ∧
      phrase.program (byteLength source.toList) = p := by
  unfold parse at h
  cases parsed : parseTokens (lex source).tokens (byteLength source.toList) with
  | error e => simp [parsed] at h
  | ok program =>
    obtain rfl : program = p := by simpa [parsed] using h
    exact derivation_of_parseTokens parsed

/-- Every copy of a source text has one or two operands. -/
theorem parse_formed {source : String} {p : Program} (h : (parse source).program = some p) :
    ∀ f, Item.func f ∈ p.items → BlockFormed f.body := by
  obtain ⟨phrase, -, rfl⟩ := derivation_of_parse h
  intro f hf
  obtain ⟨item, -, same⟩ := List.mem_map.mp hf
  cases item with
  | setting setting => cases same
  | func func =>
    cases same
    change BlockFormed (func.body.items.map StmtPhrase.stmt)
    rw [← bodyStmts_eq]
    exact bodyStmts_formed func.body

/-- The regions of a program without errors say what its functions say, with names apart. -/
theorem Program.lower_faithful {source : String} {p : Program}
    (h : (parse source).program = some p) (clean : anyError p.lower.2 = false) :
    List.Forall₂ (fun f r => Region.RealizesFunc r f ∧ r.Apart) p.funcs p.lower.1 :=
  lowerItems_realizes (parse_formed h) clean

theorem load_eq_ok {source : String} {loaded : Loaded} (h : load source = .ok loaded) :
    ∃ p, parse source = ⟨some p, []⟩ ∧ loaded.regions = p.lower.1 ∧ anyError p.lower.2 = false := by
  simp only [load] at h
  split at h
  next p parsed errors =>
    split at h
    · cases h
    next clean =>
      cases h
      refine ⟨p, ?_, rfl, ?_⟩
      · cases found : parse source
        simp_all
      · simp only [anyError, List.any_append, Bool.not_eq_true, Bool.or_eq_false_iff] at clean
        exact clean.2
  · cases h

/-- The regions that are loaded say all that the functions of their source say. Where resolution
leaves out any of it, there is an error. -/
theorem load_realizes (source : String) :
    (∀ loaded, load source = .ok loaded → ∃ p, parse source = ⟨some p, []⟩ ∧
      List.Forall₂ (fun f r => Region.RealizesFunc r f) p.funcs loaded.regions) ∧
    ∀ p, (parse source).program = some p →
      ¬ List.Forall₂ (fun f r => Region.RealizesFunc r f) p.funcs p.lower.1 →
        anyError p.lower.2 = true := by
  constructor
  · intro loaded h
    obtain ⟨p, parsed, regions, clean⟩ := load_eq_ok h
    have faithful := Program.lower_faithful (by rw [parsed]) clean
    exact ⟨p, parsed, regions ▸ faithful.imp fun _ _ both => both.1⟩
  · intro p parsed unfaithful
    by_contra clean
    have faithful := Program.lower_faithful parsed (Bool.eq_false_iff.mpr clean)
    exact unfaithful (faithful.imp fun _ _ both => both.1)

/-- A source text with a loop, keys that are given twice, results of one name and a copy without a
type. -/
def repeatingSource : String :=
  "func @k(%s: i1, %m: memref<2xi1>) attributes \x7bnote = 1, dataflow = true, note = 2\x7d \x7b
    for %i = 0 to 2 \x7b
      %a = load %m : i1
      %b = copy %a
      store %b, %m
    \x7d \x7bdataflow_level = 3, cost = 1, dataflow_level = 2, cost = 5\x7d
    %t, %t = op \"x\"(%m) : i1, i1
    store %t, %m
  \x7d"

/-- A source text with an argument that is left out. -/
def unknownTypeSource : String :=
  "func @k(%s: i1, %m: float) \x7b\x7d"

theorem load_realizes_repeating :
    (∃ loaded, load repeatingSource = .ok loaded ∧
      loaded.regions.map (fun r => (r.nodes.size, r.values.size)) = [(6, 7)] ∧
      ∃ p, parse repeatingSource = ⟨some p, []⟩ ∧
        List.Forall₂ (fun f r => Region.RealizesFunc r f) p.funcs loaded.regions) ∧
    ∃ p, (parse unknownTypeSource).program = some p ∧
      ¬ List.Forall₂ (fun f r => Region.RealizesFunc r f) p.funcs p.lower.1 ∧
      anyError p.lower.2 = true := by
  constructor
  · obtain ⟨loaded, loads, sizes⟩ := @exists_of_anyLoaded repeatingSource _ (by rfl)
      (fun rs => rs.map (fun r => (r.nodes.size, r.values.size)) = [(6, 7)]) (by decide +kernel)
    exact ⟨loaded, loads, of_decide_eq_true sizes,
      (load_realizes repeatingSource).1 loaded loads⟩
  · have counts : ((parse unknownTypeSource).program.any fun p =>
        p.funcs.map (fun f => f.args.length) == [2] &&
          p.lower.1.map (fun r => r.args.length) == [1]) = true := by
      rw [@parse_eq_parseChars unknownTypeSource _ (by rfl)]
      decide +kernel
    obtain ⟨p, parsed, counts⟩ := (Option.any_eq_true _ _).mp counts
    simp only [Bool.and_eq_true, beq_iff_eq] at counts
    have unfaithful : ¬ List.Forall₂ (fun f r => Region.RealizesFunc r f) p.funcs p.lower.1 := by
      intro faithful
      have same : p.funcs.map (fun f => f.args.length) = p.lower.1.map fun r => r.args.length := by
        rw [← List.forall₂_eq_eq_eq, List.forall₂_map_left_iff, List.forall₂_map_right_iff]
        exact faithful.imp fun _ _ realizes => realizes.args.length_eq
      rw [counts.1, counts.2] at same
      cases same
    exact ⟨p, parsed, unfaithful, (load_realizes unknownTypeSource).2 p parsed unfaithful⟩

end Staging
