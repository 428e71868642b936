import Staging.Proofs.Creating

namespace Staging

/-- The names that have been defined so far. -/
def Lowering.noted (s : Lowering) : List String :=
  s.sites.map Prod.fst

/-- Some name has been reported to be defined already. -/
def Lowering.Redefined (s : Lowering) : Prop :=
  ∃ d ∈ s.diagnostics, d.code = some .redefinition

/-- No redefinition has been reported from one state to the other, and these names have been
noted. -/
structure Lowering.Notes (s : Lowering) (names : List Name) (t : Lowering) : Prop where
  redefined : t.Redefined ↔ s.Redefined
  noted : ∀ text, text ∈ t.noted ↔ text ∈ s.noted ∨ text ∈ names.map Name.text

/-- A step reports no redefinition and notes some names, by what it gives. -/
def Lower.Notes {α : Type} (x : Lower α) (names : α → List Name) : Prop :=
  ∀ s : Lowering, s.Notes (names (x s).1) (x s).2

/-- A step reports no redefinition and notes nothing. -/
abbrev Lower.Idle {α : Type} (x : Lower α) : Prop :=
  Lower.Notes x fun _ => []

section Rules

variable {α β : Type} {x : Lower α} {f : α → Lower β} {s t u : Lowering} {names others : List Name}

theorem Lowering.Notes.of_same (diagnostics : t.diagnostics = s.diagnostics)
    (sites : t.sites = s.sites) : s.Notes [] t :=
  ⟨by rw [Redefined, diagnostics, Redefined], by simp [Lowering.noted, sites]⟩

theorem Lowering.Notes.trans (first : s.Notes names t) (second : t.Notes others u) :
    s.Notes (names ++ others) u := by
  refine ⟨second.redefined.trans first.redefined, fun text => ?_⟩
  rw [second.noted, first.noted, List.map_append, List.mem_append, or_assoc]

theorem Lower.Notes.pure (a : α) : Lower.Idle (Pure.pure a) :=
  fun _ => .of_same rfl rfl

/-- What a step notes, it notes behind one that notes nothing. -/
theorem Lower.Idle.bind {names : β → List Name} (hx : Lower.Idle x)
    (hf : ∀ a, Lower.Notes (f a) names) : Lower.Notes (x >>= f) names :=
  fun s => (hx s).trans (hf (x s).1 (x s).2)

end Rules

namespace Lowering

variable {s : Lowering} {results : List Name}

theorem lookup_eq_none_iff_noted {text : String} :
    s.sites.lookup text = none ↔ text ∉ s.noted := by
  simp only [noted, List.lookup_eq_none_iff, List.mem_map, not_exists, not_and, bne_iff_ne]
  exact forall₂_congr fun site _ => ne_comm

theorem get_idle : Lower.Idle get :=
  fun _ => .of_same rfl rfl

theorem markFault_idle : Lower.Idle markFault :=
  fun _ => .of_same rfl rfl

theorem onRegion_idle {α : Type} (f : Region → α × Region) : Lower.Idle (onRegion f) :=
  fun _ => .of_same rfl rfl

theorem onNode_idle (n : NodeId) (f : Node → Node) : Lower.Idle (onNode n f) := by
  intro s
  cases hn : s.region.node? n with
  | some node =>
    rw [onNode_eq hn]
    exact .of_same rfl rfl
  | none =>
    rw [onNode_eq_none hn]
    exact .of_same rfl rfl

theorem attach_idle (block : Option NodeId) (n : NodeId) : Lower.Idle (attach block n) := by
  intro s
  cases h : s.region.append block n with
  | some made =>
    rw [attach_eq h]
    exact .of_same rfl rfl
  | none =>
    rw [attach_eq_none h]
    exact .of_same rfl rfl

theorem closeScope_idle : Lower.Idle closeScope :=
  fun _ => .of_same rfl rfl

theorem report_idle {d : Diagnostic} (code : Code) (known : d.code = some code)
    (other : code ≠ .redefinition) : Lower.Idle (report d) := by
  intro s
  have all : (report d s).2.diagnostics = s.diagnostics ++ [d] := rfl
  have sites : (report d s).2.sites = s.sites := rfl
  exact ⟨by simp [Redefined, all, known, other], by simp [noted, sites]⟩

/-- A step that ends with a report. -/
theorem fail_idle {α : Type} {d : Diagnostic} (code : Code) (known : d.code = some code)
    (other : code ≠ .redefinition) (a : α) : Lower.Idle (do
      report d
      return a) :=
  (report_idle code known other).bind fun _ => .pure a

theorem lookUp_idle (name : Name) : Lower.Idle (lookUp name) := by
  refine get_idle.bind fun s => ?_
  split
  · exact .pure _
  · exact fail_idle .undefinedValue rfl (by decide) none

theorem lowerType_idle (type : TypeExpr) : Lower.Idle (lowerType type) := by
  cases type <;>
  · simp only [lowerType]
    split
    · exact .pure _
    · exact fail_idle .unknownType rfl (by decide) none

theorem mapM_idle {α β : Type} {step : α → Lower β} (each : ∀ a, Lower.Idle (step a)) (as : List α) :
    Lower.Idle (as.mapM step) := by
  induction as with
  | nil => exact .pure []
  | cons a as ih =>
    rw [List.mapM_cons]
    exact (each a).bind fun _ => ih.bind fun _ => .pure _

theorem lookUpAll_idle (names : List Name) : Lower.Idle (lookUpAll names) :=
  (mapM_idle lookUp_idle names).bind fun _ => .pure _

theorem requireMemref_idle (v : ValueId) (name : Name) (what : String) :
    Lower.Idle (requireMemref v name what) := by
  refine get_idle.bind fun s => ?_
  split
  · split
    · exact .pure _
    · exact fail_idle .notMemref rfl (by decide) false
  · exact markFault_idle.bind fun _ => .pure _

theorem copyType_idle (v : ValueId) (type : Option TypeExpr) : Lower.Idle (copyType v type) := by
  cases type with
  | some type => exact lowerType_idle type
  | none =>
    refine get_idle.bind fun s => ?_
    split
    · exact .pure _
    · exact markFault_idle.bind fun _ => .pure _

theorem bind_notes (name : Name) (binding : Binding) :
    Lower.Notes (bind name binding) fun _ => [name] := by
  refine fun s => ⟨Iff.rfl, fun text => ?_⟩
  have sites : (bind name binding s).2.sites = (name.text, name.span) :: s.sites := rfl
  simp [noted, sites, or_comm]

theorem bindAll_notes {names : List Name} {vs : List ValueId} (count : names.length = vs.length) :
    Lower.Notes (bindAll names vs) fun _ => names := by
  induction names generalizing vs with
  | nil => exact .pure ()
  | cons name names ih =>
    obtain ⟨v, vs, rfl⟩ := List.exists_cons_of_length_eq_add_one count.symm
    exact fun s => (bind_notes name (some v) s).trans (ih (Nat.succ.inj count) _)

theorem poison_notes (names : List Name) : Lower.Notes (poison names) fun _ => names := by
  induction names with
  | nil => exact .pure ()
  | cons name names ih =>
    intro s
    unfold poison
    rw [bind_run (get_run s)]
    split
    · exact (bind_notes name none s).trans (ih _)
    next old =>
      -- The name is left out, which makes no difference as it is among the notes.
      have known : name.text ∈ s.noted := by
        by_contra new
        exact old (by simp [lookup_eq_none_iff_noted.mpr new])
      refine ⟨(ih s).redefined, fun text => ((ih s).noted text).trans ?_⟩
      simp only [List.map_cons, List.mem_cons]
      refine or_congr_right' fun here => ⟨Or.inr, fun mem => mem.resolve_left ?_⟩
      rintro rfl
      exact here known

/-- The results of a statement are noted once its node has been created. -/
theorem finish_notes {types : List ValueType} (count : results.length = types.length) (span : Span)
    (kind : NodeKind) (operands : List ValueId) :
    Lower.Notes (finish results span kind operands types) fun _ => results := by
  intro s
  have created (q : Region) : s.Notes [] { s with region := q } := .of_same rfl rfl
  rw [finish_run count]
  exact (created _).trans (bindAll_notes (by simp [count]) _)

/-- What a step notes that makes the node of a statement, if it makes one. -/
def notedIf (results : List Name) (made : Option NodeId) : List Name :=
  if made.isSome then results else []

theorem stop_notes : Lower.Notes (Pure.pure none) (notedIf results) :=
  Lower.Notes.pure none

theorem counted_notes (types : List ValueType) {expected : Nat} (count : types.length = expected)
    (span : Span) (what : String) (kind : NodeKind) (operands : List ValueId) :
    Lower.Notes (do
      if !(← expectResults results span expected what) then return none
      finish results span kind operands types) (notedIf results) := by
  by_cases given : results.length = expected
  · intro s
    rw [pass_eq (expectResults_eq given span what)]
    exact finish_notes (given.trans count.symm) span kind operands s
  · have failed : expectResults results span expected what = (do
        report (.resultCount what expected results.length span)
        return false) := if_neg given
    rw [failed, bind_assoc]
    exact (report_idle .resultCount rfl (by decide)).bind fun _ => stop_notes

theorem guard_notes {b : Bool} {x : Lower (Option NodeId)} (go : Lower.Notes x (notedIf results)) :
    Lower.Notes (if (!b) = true then Pure.pure none else x) (notedIf results) := by
  cases b with
  | true => exact go
  | false => exact stop_notes

/-- The results of an operation are noted if its node is created. -/
theorem lowerOp_notes (results : List Name) (span : Span) (op : Op) :
    Lower.Notes (lowerOp results span op) (notedIf results) := by
  cases op with
  | alloc stack type =>
    refine (lowerType_idle type).bind fun found => ?_
    cases found with
    | none => exact stop_notes
    | some t =>
      simp only
      split
      · exact (report_idle .unknownType rfl (by decide)).bind fun _ => stop_notes
      · exact counted_notes [t] rfl span _ _ _
  | constant value type =>
    refine (lowerType_idle type).bind fun found => ?_
    cases found with
    | none => exact stop_notes
    | some t => exact counted_notes [t] rfl span _ _ _
  | convert conversion operand type =>
    refine (lowerType_idle type).bind fun type' => (lookUp_idle operand).bind fun operand' => ?_
    cases type' with
    | none => exact stop_notes
    | some t =>
    cases operand' with
    | none => exact stop_notes
    | some v => exact counted_notes [t] rfl span _ _ _
  | ret operands =>
    refine (lookUpAll_idle operands).bind fun values => ?_
    cases values with
    | none => exact stop_notes
    | some vs => exact counted_notes [] rfl span _ _ _
  | compute name operands types =>
    refine (lookUpAll_idle operands).bind fun values =>
      (mapM_idle lowerType_idle types).bind fun types' => ?_
    cases values with
    | none => exact stop_notes
    | some vs =>
    cases types'.mapM id with
    | none => exact stop_notes
    | some ts => exact counted_notes ts rfl span _ _ _
  | load memref type =>
    refine (lowerType_idle type).bind fun type' => (lookUp_idle memref).bind fun mem => ?_
    cases type' with
    | none => exact stop_notes
    | some t =>
    cases mem with
    | none => exact stop_notes
    | some mem =>
      exact (requireMemref_idle mem memref "load").bind fun _ =>
        guard_notes (counted_notes [t] rfl span _ _ _)
  | store value memref =>
    refine (lookUp_idle value).bind fun v => (lookUp_idle memref).bind fun mem => ?_
    cases v with
    | none => exact stop_notes
    | some v =>
    cases mem with
    | none => exact stop_notes
    | some mem =>
      exact (requireMemref_idle mem memref "store").bind fun _ =>
        guard_notes (counted_notes [] rfl span _ _ _)
  | copy operands type =>
    refine (lookUpAll_idle operands).bind fun values => ?_
    cases values with
    | none => exact stop_notes
    | some values =>
      simp only
      split
      next source target src dst =>
        exact (requireMemref_idle src source "copy source").bind fun _ =>
          (requireMemref_idle dst target "copy target").bind fun _ =>
            guard_notes (counted_notes [] rfl span _ _ _)
      next source src =>
        refine (copyType_idle src type).bind fun found => ?_
        cases found with
        | none => exact stop_notes
        | some t => exact counted_notes [t] rfl span _ _ _
      next => exact stop_notes

theorem applyAttrs_idle (n : NodeId) (entries : List AttrEntry) :
    Lower.Idle (applyAttrs n entries) := by
  induction entries with
  | nil => exact .pure ()
  | cons entry entries ih =>
    have wrong : Lower.Idle (report (.levelKind entry.span)) :=
      report_idle .invalidSetting rfl (by decide)
    unfold applyAttrs
    split
    · split
      · split
        · exact (onNode_idle n _).bind fun _ => ih
        · exact wrong.bind fun _ => ih
      · exact wrong.bind fun _ => ih
    · exact (onNode_idle n _).bind fun _ => ih

theorem applyFuncAttrs_idle (entries : List AttrEntry) : Lower.Idle (applyFuncAttrs entries) := by
  induction entries with
  | nil => exact .pure ()
  | cons entry entries ih =>
    unfold applyFuncAttrs
    split
    · split
      · exact (onRegion_idle _).bind fun _ => ih
      · exact (report_idle .invalidSetting rfl (by decide)).bind fun _ => ih
    · exact (onRegion_idle _).bind fun _ => ih

end Lowering

end Staging
