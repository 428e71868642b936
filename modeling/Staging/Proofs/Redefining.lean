import Staging.Proofs.Noting
import Staging.Proofs.Placed
import Staging.Proofs.Resolved

namespace Staging

/-- No name is in both lists. -/
def NamesApart (names others : List Name) : Prop :=
  ∀ name ∈ names, ∀ other ∈ others, name.text ≠ other.text

instance (names others : List Name) : Decidable (NamesApart names others) :=
  inferInstanceAs (Decidable (∀ name ∈ names, ∀ other ∈ others, name.text ≠ other.text))

mutual

/-- The names that a statement and its body define, those of one place together. The results of a
loop are an error, and stand for its body. -/
def Stmt.definitions : Stmt → List (List Name)
  | .op results _ _ _ => [results]
  | .loop [] iv _ _ body _ _ => [iv] :: blockDefinitions body
  | .loop (first :: others) _ _ _ _ _ _ => [first :: others]

def blockDefinitions : List Stmt → List (List Name)
  | [] => []
  | stmt :: stmts => stmt.definitions ++ blockDefinitions stmts

end

/-- The names that a function defines, place by place. -/
def Func.definitions (f : Func) : List (List Name) :=
  f.args.map (fun arg => [arg.name]) ++ blockDefinitions f.body

/-- The names of the values of a region, in the order of their numbers. -/
def Region.valueNames (r : Region) : List String :=
  r.values.toList.map Value.name

/-- The names of different places are different from each other and from those that are noted. -/
structure Fresh (noted : List String) (places : List (List Name)) : Prop where
  apart : places.Pairwise NamesApart
  new : ∀ names ∈ places, ∀ name ∈ names, name.text ∉ noted

theorem fresh_nil (noted : List String) : Fresh noted [] :=
  ⟨.nil, by simp⟩

theorem fresh_single {noted : List String} {names : List Name} :
    Fresh noted [names] ↔ ∀ name ∈ names, name.text ∉ noted :=
  ⟨fun h => h.new names (by simp), fun h => ⟨List.pairwise_singleton _ _, by simpa using h⟩⟩

/-- Further places are fresh behind the first ones if the names of those are noted. -/
theorem fresh_append {noted later : List String} {places others : List (List Name)}
    (all : ∀ text, text ∈ later ↔ text ∈ noted ∨ text ∈ places.flatten.map Name.text) :
    Fresh noted (places ++ others) ↔ Fresh noted places ∧ Fresh later others := by
  have known {names : List Name} (place : names ∈ places) {name : Name} (mem : name ∈ names) :
      name.text ∈ places.flatten.map Name.text :=
    List.mem_map_of_mem (List.mem_flatten.mpr ⟨names, place, mem⟩)
  constructor
  · rintro ⟨apart, new⟩
    obtain ⟨first, second, between⟩ := List.pairwise_append.mp apart
    refine ⟨⟨first, fun names h => new names (by simp [h])⟩, second, fun names h name mem old => ?_⟩
    rcases (all _).mp old with old | old
    · exact new names (by simp [h]) name mem old
    · obtain ⟨earlier, hearlier, same⟩ := List.mem_map.mp old
      obtain ⟨place, hplace, mem'⟩ := List.mem_flatten.mp hearlier
      exact between place hplace names h earlier mem' name mem same
  · rintro ⟨⟨first, new⟩, second, new'⟩
    refine ⟨List.pairwise_append.mpr ⟨first, second, ?_⟩, fun names h name mem old => ?_⟩
    · intro place hplace names h earlier mem' name mem same
      exact new' names h name mem ((all _).mpr (Or.inr (same ▸ known hplace mem')))
    · rcases List.mem_append.mp h with h | h
      · exact new names h name mem old
      · exact new' names h name mem ((all _).mpr (Or.inl old))

/-- A redefinition is reported from one state to the other just where the names of these places are
not fresh. They are noted where none has been. -/
structure Lowering.Declared (s : Lowering) (places : List (List Name)) (t : Lowering) : Prop where
  redefined : t.Redefined ↔ s.Redefined ∨ ¬ Fresh s.noted places
  noted : ¬ t.Redefined →
    ∀ text, text ∈ t.noted ↔ text ∈ s.noted ∨ text ∈ places.flatten.map Name.text

namespace Lowering

variable {s t u : Lowering} {names : List Name} {places others : List (List Name)}

theorem Notes.declared_nil (h : s.Notes [] t) : s.Declared [] t :=
  ⟨by simp [h.redefined, fresh_nil], fun _ text => by simp [h.noted]⟩

theorem Notes.declared (h : s.Notes names t) (new : ∀ name ∈ names, name.text ∉ s.noted) :
    s.Declared [names] t :=
  ⟨by simp [h.redefined, fresh_single.mpr new], fun _ text => (h.noted text).trans (by simp)⟩

/-- Names that are not fresh are reported. -/
theorem Declared.of_redefined (clash : t.Redefined) (old : ¬ Fresh s.noted places) :
    s.Declared places t :=
  ⟨iff_of_true clash (Or.inr old), fun clean => absurd clash clean⟩

theorem Declared.trans (first : s.Declared places t) (second : t.Declared others u) :
    s.Declared (places ++ others) u := by
  -- After a clash the notes are of no use, but then the places before it are not fresh either.
  by_cases clash : t.Redefined
  · have already := first.redefined.mp clash
    have later : u.Redefined := second.redefined.mpr (Or.inl clash)
    refine ⟨iff_of_true later (already.imp_right fun old fresh => old ?_), (absurd later ·)⟩
    exact ⟨(List.pairwise_append.mp fresh.apart).1, fun names h => fresh.new names (by simp [h])⟩
  · have noted := first.noted clash
    rw [first.redefined, not_or, not_not] at clash
    refine ⟨?_, fun clean text => ?_⟩
    · rw [second.redefined, fresh_append noted, first.redefined]
      simp [clash]
    · rw [second.noted clean, noted, List.flatten_append, List.map_append, List.mem_append, or_assoc]

theorem Notes.then_declared (first : s.Notes [] t) (second : t.Declared places u) :
    s.Declared places u :=
  first.declared_nil.trans second

theorem Declared.then_notes (first : s.Declared places t) (second : t.Notes [] u) :
    s.Declared places u := by
  simpa using first.trans second.declared_nil

theorem checkNew_old {name : Name} (old : name.text ∈ s.noted) :
    ∃ t, checkNew name s = (false, t) ∧ t.Redefined := by
  cases found : s.sites.lookup name.text with
  | none => exact absurd old (lookup_eq_none_iff_noted.mp found)
  | some previous =>
    refine ⟨{ s with diagnostics := s.diagnostics ++ [.redefinedValue name previous] }, ?_,
      .redefinedValue name previous, by simp, rfl⟩
    unfold checkNew
    rw [bind_run (get_run s), found]
    rfl

theorem checkNew_new {name : Name} (new : name.text ∉ s.noted) : checkNew name s = (true, s) :=
  checkNew_eq (lookup_eq_none_iff_noted.mpr new)

theorem checkAllNew_old (old : ¬ ∀ name ∈ names, name.text ∉ s.noted) :
    ∃ t, checkAllNew names s = (false, t) ∧ t.Redefined := by
  induction names with
  | nil => simp at old
  | cons name names ih =>
    by_cases known : name.text ∈ s.noted
    · obtain ⟨t, run, clash⟩ := checkNew_old known
      refine ⟨t, ?_, clash⟩
      unfold checkAllNew
      rw [bind_run run]
      rfl
    · obtain ⟨t, run, clash⟩ := ih (by simpa [known] using old)
      refine ⟨t, ?_, clash⟩
      unfold checkAllNew
      rw [bind_run (checkNew_new known)]
      exact run

/-- A loop that is given results is left out. -/
theorem enterLoop_failed {first : Name} {others : List Name} (iv : Name) (lower upper : Int)
    (span : Span) :
    ∃ t, enterLoop (first :: others) iv lower upper span s = (none, t) ∧ s.Notes [] t :=
  ⟨_, rfl, report_idle .resultCount rfl (by decide) s⟩

/-- A loop whose induction variable is defined already is left out. -/
theorem enterLoop_old {iv : Name} (lower upper : Int) (span : Span) (old : iv.text ∈ s.noted) :
    ∃ t, enterLoop [] iv lower upper span s = (none, t) ∧ t.Redefined := by
  obtain ⟨t, run, clash⟩ := checkNew_old old
  refine ⟨t, ?_, clash⟩
  unfold enterLoop
  refine (pass_eq (expectResults_eq rfl _ _) _).trans ?_
  rw [bind_run run]
  rfl

mutual

theorem lowerBlock_declared (block : Option NodeId) : ∀ (stmts : List Stmt) (s : Lowering),
    s.Declared (blockDefinitions stmts) (lowerBlock block stmts s).2
  | [], s => (Lower.Notes.pure () s).declared_nil
  | stmt :: stmts, s => by
    have first := lowerStmt_declared stmt s
    unfold lowerBlock blockDefinitions
    cases run : lowerStmt stmt s with
    | mk made t =>
    rw [run] at first
    rw [bind_run run]
    refine first.trans ?_
    cases made with
    | none => exact lowerBlock_declared block stmts t
    | some n => exact (attach_idle block n t).then_declared (lowerBlock_declared block stmts _)

/-- What a statement defines is noted, whether it becomes a node or fails. -/
theorem lowerStmt_declared : ∀ (stmt : Stmt) (s : Lowering),
    s.Declared stmt.definitions (lowerStmt stmt s).2
  | .op results op attrs span, s => by
    unfold lowerStmt Stmt.definitions
    by_cases new : ∀ name ∈ results, name.text ∉ s.noted
    · have made := lowerOp_notes results span op s
      cases run : lowerOp results span op s with
      | mk node t =>
      rw [run] at made
      rw [bind_run (checkAllNew_eq fun name h => lookup_eq_none_iff_noted.mpr (new name h)),
        if_pos rfl, bind_run run]
      cases node with
      | none => exact (Notes.trans made (poison_notes results t)).declared new
      | some n => exact (Notes.declared made new).then_notes (applyAttrs_idle n attrs t)
    · obtain ⟨t, run, clash⟩ := checkAllNew_old new
      rw [bind_run run]
      refine .of_redefined ?_ (fresh_single.not.mpr new)
      exact (poison_notes results t).redefined.mpr clash
  | .loop [] iv lower upper body attrs span, s => by
    unfold lowerStmt Stmt.definitions
    rw [bind_run (checkAllNew_eq (by simp)), if_pos rfl]
    by_cases new : iv.text ∈ s.noted
    · obtain ⟨t, run, clash⟩ := enterLoop_old lower upper span new
      rw [bind_run run]
      refine .of_redefined clash fun fresh => ?_
      exact fresh.new [iv] (by simp) iv (by simp) new
    · have entered : s.Notes [iv] (s.entered iv lower upper span) :=
        ⟨Iff.rfl, fun text => by simp [noted, Lowering.entered, bound, or_comm]⟩
      rw [bind_run (enterLoop_eq (lookup_eq_none_iff_noted.mpr new) lower upper span)]
      have inside :=
        lowerBlock_declared (some ⟨s.region.nodes.size⟩) body (s.entered iv lower upper span)
      exact ((entered.declared (by simpa using new)).trans inside).then_notes
        ((closeScope_idle _).trans (applyAttrs_idle _ attrs _))
  | .loop (first :: others) iv lower upper body attrs span, s => by
    unfold lowerStmt Stmt.definitions
    by_cases new : ∀ name ∈ first :: others, name.text ∉ s.noted
    · obtain ⟨t, run, failed⟩ := @enterLoop_failed s first others iv lower upper span
      rw [bind_run (checkAllNew_eq fun name h => lookup_eq_none_iff_noted.mpr (new name h)),
        if_pos rfl, bind_run run]
      exact (failed.trans (poison_notes _ t)).declared new
    · obtain ⟨t, run, clash⟩ := checkAllNew_old new
      rw [bind_run run, if_neg Bool.false_ne_true]
      refine .of_redefined ?_ (fresh_single.not.mpr new)
      exact (poison_notes (first :: others) t).redefined.mpr clash

end

theorem lowerArgs_declared (args : List ArgDecl) (s : Lowering) :
    s.Declared (args.map fun arg => [arg.name]) (lowerArgs args s).2 := by
  induction args generalizing s with
  | nil => exact (Lower.Notes.pure () s).declared_nil
  | cons arg args ih =>
    have typed := lowerType_idle arg.type s
    cases found : lowerType arg.type s with
    | mk type t =>
    rw [found] at typed
    unfold lowerArgs
    rw [bind_run found]
    refine typed.then_declared ?_
    by_cases new : arg.name.text ∈ t.noted
    · obtain ⟨u, run, clash⟩ := checkNew_old new
      rw [bind_run run, if_neg Bool.false_ne_true]
      have taken : t.Declared [[arg.name]] u :=
        .of_redefined clash (fresh_single.not.mpr (by simpa using new))
      exact taken.trans (ih u)
    · rw [bind_run (checkNew_new new), if_pos rfl]
      have noted {u : Lowering} (h : t.Notes [arg.name] u) : t.Declared [[arg.name]] u :=
        h.declared (by simpa using new)
      cases type with
      | none => exact (noted (bind_notes arg.name none t)).trans (ih _)
      | some type =>
        have made := onRegion_idle (fun r => r.addArg arg.name.text type) t
        exact (noted (made.trans (bind_notes arg.name (some _) _))).trans (ih _)

end Lowering

/-- A redefinition is reported in a function just if two of its places define one name. -/
theorem Func.lower_redefined_iff (f : Func) :
    (∃ d ∈ f.lower.2, d.code = some .redefinition) ↔ ¬ f.definitions.Pairwise NamesApart := by
  have args := Lowering.lowerArgs_declared f.args (.start f)
  have attrs := Lowering.applyFuncAttrs_idle f.attrs (Lowering.lowerArgs f.args (.start f)).2
  have whole := (args.then_notes attrs).trans (Lowering.lowerBlock_declared none f.body _)
  have clean : ¬ (Lowering.start f).Redefined := by simp [Lowering.Redefined, Lowering.start]
  have fresh : Fresh (Lowering.start f).noted f.definitions ↔ f.definitions.Pairwise NamesApart :=
    ⟨Fresh.apart, fun apart => ⟨apart, by simp [Lowering.noted, Lowering.start]⟩⟩
  exact (whole.redefined.trans (or_iff_right clean)).trans fresh.not

/-- A redefinition is reported in a program just if functions share a name, or two places of one
function do. -/
theorem lowerItems_redefined_iff (taken : List (String × Span)) (items : List Item) :
    (∃ d ∈ (lowerItems taken items).2, d.code = some .redefinition) ↔
      ¬ ((items.filterMap Item.func?).map fun f => f.name.text).Nodup ∨
        (∃ f ∈ items.filterMap Item.func?, f.name.text ∈ taken.map Prod.fst) ∨
        ∃ f ∈ items.filterMap Item.func?, ¬ f.definitions.Pairwise NamesApart := by
  induction items generalizing taken with
  | nil => simp [lowerItems]
  | cons item items ih =>
    cases item with
    | setting setting => exact ih taken
    | func f =>
      have funcs : (Item.func f :: items).filterMap Item.func? =
          f :: items.filterMap Item.func? := rfl
      rw [funcs]
      unfold lowerItems
      split
      next previous old =>
        refine iff_of_true ⟨_, List.mem_cons_self, rfl⟩ (Or.inr (Or.inl ⟨f, by simp, ?_⟩))
        obtain ⟨before, behind, split, -⟩ := List.lookup_eq_some_iff.mp old
        simp [split]
      next new =>
        have apart : f.name.text ∉ taken.map Prod.fst := by
          simp only [List.mem_map, not_exists, not_and]
          intro site known same
          simpa [same] using List.lookup_eq_none_iff.mp new site known
        -- For the other functions the name of this one is taken as well.
        have noted : (∃ g ∈ items.filterMap Item.func?,
            g.name.text ∈ (taken ++ [(f.name.text, f.name.span)]).map Prod.fst) ↔
              (∃ g ∈ items.filterMap Item.func?, g.name.text ∈ taken.map Prod.fst) ∨
                f.name.text ∈ (items.filterMap Item.func?).map fun f => f.name.text := by
          rw [List.mem_map, ← exists_or]
          refine exists_congr fun g => ?_
          rw [List.map_append, List.mem_append, and_or_left]
          simp
        have others := ih (taken ++ [(f.name.text, f.name.span)])
        rw [noted] at others
        simp only [List.mem_append, or_and_right, exists_or]
        rw [f.lower_redefined_iff, others, List.map_cons, List.nodup_cons, not_and_or, not_not,
          List.exists_mem_cons_iff, List.exists_mem_cons_iff, or_iff_right apart]
        simp only [or_assoc, or_comm, or_left_comm]

theorem Options.applyItems_code {o : Options} {items : List Item} {d : Diagnostic}
    (h : d ∈ (o.applyItems items).2) : d.code ≠ some .redefinition := by
  obtain ⟨s, -, o', rejected⟩ := mem_applyItems h
  rcases applySetting_error rejected with ⟨_, _, rfl⟩ | ⟨_, rfl⟩ | rfl <;> exact ne_of_beq_false rfl

section Names

variable {r : Region} {visible : List ValueId} {stmts : List Stmt} {ns : List NodeId}

/-- The values of a block and of the blocks in it have the names that its statements define. -/
theorem Region.Realizes.names (h : r.Realizes visible stmts ns) (nested : r.Nested) {depth : Nat}
    (known : ∀ n ∈ ns, n.index < r.nodes.size) (deep : ∀ n ∈ ns, r.nodes.size ≤ n.index + depth) :
    ((ns.flatMap (r.walkWithin depth)).flatMap r.defs).map r.nameOf =
      (blockDefinitions stmts).flatten.map Name.text := by
  induction h generalizing depth with
  | nil => rfl
  | @op visible results op attrs span stmts n ns node types found makes defines attributed place _ ih =>
    obtain ⟨depth, rfl⟩ : ∃ d, depth = d + 1 :=
      ⟨depth - 1, by have := known n (by simp); have := deep n (by simp); omega⟩
    have first : (r.results n).map r.nameOf = results.map Name.text :=
      (Lowering.names_of_values defines.values).trans (Lowering.named_names defines.count)
    have body : r.bodyOf n = [] := by
      simp [bodyOf, kind?, found, NodeKind.body_eq_nil makes.noLoop]
    have ivs : r.ivs n = [] := ivs_eq_nil found makes.noLoop
    have rest := ih (fun m hm => known m (by simp [hm])) fun m hm => deep m (by simp [hm])
    simp only [List.flatMap_cons, List.flatMap_append, List.map_append, rest]
    simp [walkWithin, body, defs, ivs, first, blockDefinitions, Stmt.definitions]
  | @loop visible iv lower upper body stmts attrs span n inner ns node v found kind operands results
      named attributed place _ _ ihInside ihRest =>
    obtain ⟨depth, rfl⟩ : ∃ d, depth = d + 1 :=
      ⟨depth - 1, by have := known n (by simp); have := deep n (by simp); omega⟩
    have body : r.bodyOf n = inner := by simp [bodyOf, kind?, found, kind, NodeKind.body]
    have defs : r.defs n = [v] := by
      simp [Region.defs, ivs, Region.results, kind?, found, kind, results, NodeKind.inductionVar?]
    have inside := @ihInside depth (body ▸ nested.childKnown n) fun c hc => by
      have := nested.childDeeper n c (show c ∈ r.bodyOf n from body ▸ hc)
      have := deep n (by simp)
      omega
    have rest := ihRest (fun m hm => known m (by simp [hm])) fun m hm => deep m (by simp [hm])
    simp only [List.flatMap_cons, List.flatMap_append, List.map_append, rest]
    simp [walkWithin, body, defs, inside, nameOf, named, blockDefinitions, Stmt.definitions]

/-- The values of a region have the names that its function defines, in the same order. -/
theorem Region.RealizesFunc.names {f : Func} (h : r.RealizesFunc f) (nested : r.Nested)
    (numbered : r.Numbered) : r.valueNames = f.definitions.flatten.map Name.text := by
  have all : r.valueNames = ((List.range r.values.size).map ValueId.mk).map r.nameOf := by
    refine List.ext_getElem (by simp [valueNames]) fun i hi hi' => ?_
    have low : i < r.values.size := by simpa [valueNames] using hi
    simp [valueNames, nameOf, value?, low]
  have args : r.args.map r.nameOf = f.args.map fun arg => arg.name.text := by
    rw [← List.forall₂_eq_eq_eq, List.forall₂_map_left_iff, List.forall₂_map_right_iff]
    refine h.args.flip.imp ?_
    rintro v arg ⟨type, i, -, hv⟩
    simp [nameOf, hv]
  have body : (r.attached.flatMap r.defs).map r.nameOf =
      (blockDefinitions f.body).flatten.map Name.text :=
    h.body.names nested nested.bodyKnown fun _ _ => Nat.le_add_left _ _
  have places : (f.args.map fun arg => [arg.name]).flatten = f.args.map ArgDecl.name := by
    rw [← List.flatMap_def, ← List.map_eq_flatMap]
  rw [all, ← numbered.valueOrder nested, List.map_append, args, body, Func.definitions,
    List.flatten_append, List.map_append, places, List.map_map]
  rfl

end Names

theorem namesApart_iff {names others : List Name} :
    NamesApart names others ↔ (names.map Name.text).Disjoint (others.map Name.text) := by
  constructor
  · intro apart text h h'
    obtain ⟨name, hname, rfl⟩ := List.mem_map.mp h
    obtain ⟨other, hother, same⟩ := List.mem_map.mp h'
    exact apart name hname other hother same.symm
  · intro disjoint name h other h' same
    exact disjoint (List.mem_map_of_mem h) (same ▸ List.mem_map_of_mem h')

/-- All names are different just if those of different places are and those of each place are. -/
theorem nodup_definitions {places : List (List Name)} :
    (places.flatten.map Name.text).Nodup ↔
      (∀ names ∈ places, (names.map Name.text).Nodup) ∧ places.Pairwise NamesApart := by
  rw [List.map_flatten, List.nodup_flatten, List.pairwise_map, List.forall_mem_map]
  exact and_congr_right fun _ => List.Pairwise.iff fun _ _ => namesApart_iff.symm

theorem Program.lower_redefined_iff (p : Program) :
    (∃ d ∈ p.lower.2, d.code = some .redefinition) ↔
      ¬ (p.funcs.map fun f => f.name.text).Nodup ∨
        ∃ f ∈ p.funcs, ¬ f.definitions.Pairwise NamesApart :=
  (lowerItems_redefined_iff [] p.items).trans (or_congr_right (by simp [funcs]))

/-- Whatever is reported of the functions of a text that can be read is an error. -/
theorem lowerItems_errors {items : List Item}
    (formed : ∀ f, Item.func f ∈ items → BlockFormed f.body)
    (taken : List (String × Span)) : ∀ d ∈ (lowerItems taken items).2, d.isError = true := by
  induction items generalizing taken with
  | nil => simp [lowerItems]
  | cons item items ih =>
    have others := ih fun f hf => formed f (List.mem_cons_of_mem _ hf)
    cases item with
    | setting setting => exact others taken
    | func f =>
      unfold lowerItems
      split
      next previous old =>
        exact List.forall_mem_cons.mpr ⟨rfl, others taken⟩
      next new =>
        exact List.forall_mem_append.mpr
          ⟨(f.lower_realizes (formed f (by simp))).1, others _⟩

/-- A text that can be read is rejected for a redefinition just if one is reported of its
functions. -/
theorem load_redefined_iff {source : String} {p : Program} (parsed : parse source = ⟨some p, []⟩) :
    (∃ ds, load source = .error ds ∧ ∃ d ∈ ds, d.code = some .redefinition) ↔
      ∃ d ∈ p.lower.2, d.code = some .redefinition := by
  have outcome : load source =
      if anyError (p.options.2 ++ p.lower.2) then .error (p.options.2 ++ p.lower.2)
      else .ok ⟨p.lower.1, p.options.1, p.options.2 ++ p.lower.2⟩ := by
    simp only [load, parsed]
  rw [outcome]
  constructor
  · rintro ⟨ds, h, d, hd, code⟩
    split at h
    · obtain rfl := Except.error.inj h
      refine ⟨d, (List.mem_append.mp hd).resolve_left fun setting => ?_, code⟩
      exact Options.applyItems_code setting code
    · cases h
  · rintro ⟨d, hd, code⟩
    have wrong : anyError (p.options.2 ++ p.lower.2) = true := by
      have error := lowerItems_errors (parse_formed (by rw [parsed])) [] d hd
      exact List.any_eq_true.mpr ⟨d, List.mem_append_right _ hd, error⟩
    exact ⟨_, if_pos wrong, d, List.mem_append_right _ hd, code⟩

/-- The values of a loaded region have the names that its function defines, one by one. They are
unique unless one statement defines a name twice: a redefinition is reported only where two places
of a function define one name, or two functions have one name. -/
theorem load_names (source : String) :
    (∀ loaded, load source = .ok loaded → ∃ p, parse source = ⟨some p, []⟩ ∧
      List.Forall₂ (fun f r => Region.valueNames r = f.definitions.flatten.map Name.text ∧
        (r.valueNames.Nodup ↔ ∀ names ∈ f.definitions, (names.map Name.text).Nodup))
        p.funcs loaded.regions) ∧
    ∀ p, parse source = ⟨some p, []⟩ →
      ((∃ ds, load source = .error ds ∧ ∃ d ∈ ds, d.code = some .redefinition) ↔
        ¬ (p.funcs.map fun f => f.name.text).Nodup ∨
          ∃ f ∈ p.funcs, ¬ f.definitions.Pairwise NamesApart) := by
  refine ⟨fun loaded h => ?_, fun p parsed => (load_redefined_iff parsed).trans p.lower_redefined_iff⟩
  obtain ⟨p, parsed, regions, clean⟩ := load_eq_ok h
  have apart : ∀ f ∈ p.funcs, f.definitions.Pairwise NamesApart := by
    have silent : ¬ ∃ d ∈ p.lower.2, d.code = some .redefinition := by
      rw [← load_redefined_iff parsed]
      rintro ⟨ds, rejected, -⟩
      cases h.symm.trans rejected
    rw [p.lower_redefined_iff, not_or] at silent
    simpa using silent.2
  have built : ∀ r ∈ loaded.regions, r.Nested ∧ r.Numbered := by
    intro r hr
    obtain ⟨-, f, -, -, rfl⟩ := func_of_load h hr
    exact ⟨f.lower_spec.1.toNested, f.lower_spec.2.2.1⟩
  have faithful := Program.lower_faithful (by rw [parsed]) clean
  rw [← regions] at faithful
  have known := (List.forall₂_and_left _ _).mpr ⟨built, faithful.flip⟩
  refine ⟨p, parsed, ((List.forall₂_and_left _ _).mpr ⟨apart, known.flip⟩).imp ?_⟩
  rintro f r ⟨apart, ⟨nested, numbered⟩, realizes, -⟩
  have names := realizes.names nested numbered
  refine ⟨names, ?_⟩
  rw [names, nodup_definitions, and_iff_left apart]

/-- A source text in which one statement defines a name twice. -/
def repeatedResultSource : String :=
  "func @k() \x7b
    %a, %a = op \"p\"() : i32, i32
  \x7d"

/-- A source text in which two loops beside each other define the same names. -/
def siblingsSource : String :=
  "func @k(%m: memref<2xi1>) \x7b
    for %i = 0 to 2 \x7b
      %a = load %m : i1
    \x7d
    for %i = 0 to 2 \x7b
      %a = load %m : i1
    \x7d
  \x7d"

theorem load_names_repeated :
    (∃ loaded, load repeatedResultSource = .ok loaded ∧
      loaded.regions.map Region.valueNames = [["a", "a"]] ∧
      ∃ p, parse repeatedResultSource = ⟨some p, []⟩ ∧
        List.Forall₂ (fun f r => Region.valueNames r = f.definitions.flatten.map Name.text ∧
          (r.valueNames.Nodup ↔ ∀ names ∈ f.definitions, (names.map Name.text).Nodup))
          p.funcs loaded.regions) ∧
    ∃ p, parse siblingsSource = ⟨some p, []⟩ ∧
      (∃ f ∈ p.funcs, ¬ f.definitions.Pairwise NamesApart) ∧
      ∃ ds, load siblingsSource = .error ds ∧ ∃ d ∈ ds, d.code = some .redefinition := by
  constructor
  · obtain ⟨loaded, loads, names⟩ := @exists_of_anyLoaded repeatedResultSource _ (by rfl)
      (fun rs => rs.map Region.valueNames = [["a", "a"]]) (by decide +kernel)
    exact ⟨loaded, loads, of_decide_eq_true names, (load_names repeatedResultSource).1 loaded loads⟩
  · have parses := @parse_eq_parseChars siblingsSource _ (by rfl)
    have clash : ((parse siblingsSource).program.any fun p =>
        p.funcs.any fun f => !decide (f.definitions.Pairwise NamesApart)) = true := by
      rw [parses]
      decide +kernel
    have errors : (parse siblingsSource).errors = [] := by
      rw [parses]
      decide +kernel
    obtain ⟨p, program, clash⟩ := (Option.any_eq_true _ _).mp clash
    have parsed : parse siblingsSource = ⟨some p, []⟩ := by rw [← program, ← errors]
    have clash : ∃ f ∈ p.funcs, ¬ f.definitions.Pairwise NamesApart := by
      simpa using List.any_eq_true.mp clash
    exact ⟨p, parsed, clash, ((load_names siblingsSource).2 p parsed).mpr (Or.inr clash)⟩

/-- Two values of a loaded region can have one name. -/
theorem load_repeats_name : ∃ loaded r, load repeatedResultSource = .ok loaded ∧
    r ∈ loaded.regions ∧ ¬ r.valueNames.Nodup := by
  obtain ⟨loaded, loads, found⟩ := @exists_of_anyLoaded repeatedResultSource _ (by rfl)
    (fun rs => rs.any fun r => !decide r.valueNames.Nodup) (by decide +kernel)
  obtain ⟨r, hr, names⟩ := List.any_eq_true.mp found
  exact ⟨loaded, r, loads, hr, by simpa using names⟩

end Staging
