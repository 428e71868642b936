import Staging.Lowering
import Staging.Proofs.WellFormed

namespace Staging

/-- The names in scope, innermost block and latest name first. -/
abbrev Scopes := List (List (String × Binding))

/-- What a step of lowering gives, and the region and scopes it leaves, wherever it starts from
this region and these scopes. -/
def Lower.Spec {α : Type} (x : Lower α) (r : Region) (scopes : Scopes)
    (Q : α → Region → Scopes → Prop) : Prop :=
  ∀ s : Lowering, s.region = r → s.scopes = scopes → Q (x s).1 (x s).2.region (x s).2.scopes

/-- States that differ in their diagnostics at most. -/
def Lowering.Agrees (s t : Lowering) : Prop :=
  t.region = s.region ∧ t.scopes = s.scopes ∧ t.sites = s.sites

/-- A step changes nothing but the diagnostics. -/
def Lower.Quiet {α : Type} (x : Lower α) (r : Region) (scopes : Scopes) (P : α → Prop) : Prop :=
  ∀ s : Lowering, s.region = r → s.scopes = scopes → s.Agrees (x s).2 ∧ P (x s).1

/-- The value that a name in scope stands for. -/
def Scopes.find? (scopes : Scopes) (name : String) : Option ValueId :=
  (scopes.findSome? fun scope => scope.lookup name).join

/-- The type that a type expression stands for. -/
def TypeExpr.valueType? : TypeExpr → Option ValueType
  | .named name => if isScalarName name.text then some (.scalar name.text) else none
  | .shaped shape _ => if isScalarName shape.elem then some (.shaped shape) else none

section Rules

variable {α β : Type} {r : Region} {scopes : Scopes} {x : Lower α} {f : α → Lower β}
  {P P' : α → Prop} {Q : α → Region → Scopes → Prop} {R : β → Region → Scopes → Prop}

theorem Lower.Spec.pure {a : α} (h : Q a r scopes) : Lower.Spec (Pure.pure a) r scopes Q := by
  rintro s rfl rfl
  exact h

theorem Lower.Spec.bind (hx : Lower.Spec x r scopes Q)
    (hf : ∀ a s scopes', Q a s scopes' → Lower.Spec (f a) s scopes' R) :
    Lower.Spec (x >>= f) r scopes R := fun s hr hs =>
  hf _ _ _ (hx s hr hs) _ rfl rfl

theorem Lower.Spec.mono {Q' : α → Region → Scopes → Prop} (hx : Lower.Spec x r scopes Q)
    (h : ∀ a s scopes', Q a s scopes' → Q' a s scopes') : Lower.Spec x r scopes Q' :=
  fun s hr hs => h _ _ _ (hx s hr hs)

theorem Lower.Quiet.bind (hx : Lower.Quiet x r scopes P)
    (hf : ∀ a, P a → Lower.Spec (f a) r scopes R) : Lower.Spec (x >>= f) r scopes R := by
  intro s hr hs
  obtain ⟨⟨region, names, -⟩, ha⟩ := hx s hr hs
  exact hf _ ha _ (region.trans hr) (names.trans hs)

theorem Lower.Quiet.pure {a : α} (h : P a) : Lower.Quiet (Pure.pure a) r scopes P :=
  fun _ _ _ => ⟨⟨rfl, rfl, rfl⟩, h⟩

theorem Lower.Quiet.seq {P' : β → Prop} (hx : Lower.Quiet x r scopes P)
    (hf : ∀ a, P a → Lower.Quiet (f a) r scopes P') : Lower.Quiet (x >>= f) r scopes P' := by
  intro s hr hs
  obtain ⟨⟨region, names, sites⟩, ha⟩ := hx s hr hs
  obtain ⟨⟨region', names', sites'⟩, hb⟩ := hf _ ha _ (region.trans hr) (names.trans hs)
  exact ⟨⟨region'.trans region, names'.trans names, sites'.trans sites⟩, hb⟩

/-- A step goes on only if a check holds. -/
theorem Lower.Spec.guard {b : Bool} {y : Lower (Option β)}
    {R : Option β → Region → Scopes → Prop} (stop : R none r scopes)
    (go : b = true → Lower.Spec y r scopes R) :
    Lower.Spec (if (!b) = true then Pure.pure none else y) r scopes R := by
  cases b with
  | true => exact go rfl
  | false => exact Lower.Spec.pure stop

end Rules

namespace Lowering

variable {r : Region} {scopes : Scopes} {visible : List ValueId}

theorem get_quiet : Lower.Quiet get r scopes fun s => s.region = r ∧ s.scopes = scopes := by
  rintro s rfl rfl
  exact ⟨⟨rfl, rfl, rfl⟩, rfl, rfl⟩

theorem report_quiet (d : Diagnostic) : Lower.Quiet (report d) r scopes fun _ => True :=
  fun _ _ _ => ⟨⟨rfl, rfl, rfl⟩, trivial⟩

theorem markFault_quiet : Lower.Quiet markFault r scopes fun _ => True :=
  fun _ _ _ => ⟨⟨rfl, rfl, rfl⟩, trivial⟩

theorem onRegion_spec {α : Type} (f : Region → α × Region) :
    Lower.Spec (onRegion f) r scopes fun a s scopes' =>
      a = (f r).1 ∧ s = (f r).2 ∧ scopes' = scopes := by
  rintro s rfl rfl
  exact ⟨rfl, rfl, rfl⟩

theorem onNode_eq {s : Lowering} {n : NodeId} {node : Node} (hn : s.region.node? n = some node)
    (f : Node → Node) : onNode n f s = ((), { s with region := s.region.modifyNode n f }) := by
  simp only [onNode, modify, modifyGet, MonadStateOf.modifyGet, StateT.modifyGet, hn]
  rfl

theorem onNode_eq_none {s : Lowering} {n : NodeId} (hn : s.region.node? n = none)
    (f : Node → Node) : onNode n f s = ((), { s with fault := true }) := by
  simp only [onNode, modify, modifyGet, MonadStateOf.modifyGet, StateT.modifyGet, hn]
  rfl

theorem attach_eq {s : Lowering} {block : Option NodeId} {n : NodeId} {q : Region} {done : Bool}
    (h : s.region.append block n = some (q, done)) :
    attach block n s = ((), { s with region := q }) := by
  simp only [attach, modify, modifyGet, MonadStateOf.modifyGet, StateT.modifyGet, h]
  rfl

theorem attach_eq_none {s : Lowering} {block : Option NodeId} {n : NodeId}
    (h : s.region.append block n = none) : attach block n s = ((), { s with fault := true }) := by
  simp only [attach, modify, modifyGet, MonadStateOf.modifyGet, StateT.modifyGet, h]
  rfl

theorem checkNew_quiet (name : Name) :
    Lower.Quiet (checkNew name) r scopes fun _ => True := by
  refine get_quiet.seq fun s _ => ?_
  split
  · exact (report_quiet _).seq fun _ _ => Lower.Quiet.pure trivial
  · exact Lower.Quiet.pure trivial

theorem checkAllNew_quiet (names : List Name) :
    Lower.Quiet (checkAllNew names) r scopes fun _ => True := by
  induction names with
  | nil => exact Lower.Quiet.pure trivial
  | cons name names ih =>
    refine (checkNew_quiet name).seq fun new _ => ?_
    split
    · exact ih
    · exact Lower.Quiet.pure trivial

theorem lowerType_quiet (type : TypeExpr) :
    Lower.Quiet (lowerType type) r scopes fun found => found = type.valueType? := by
  cases type with
  | named name =>
    simp only [lowerType, TypeExpr.valueType?]
    split
    · exact Lower.Quiet.pure rfl
    · exact (report_quiet _).seq fun _ _ => Lower.Quiet.pure rfl
  | shaped shape span =>
    simp only [lowerType, TypeExpr.valueType?]
    split
    · exact Lower.Quiet.pure rfl
    · exact (report_quiet _).seq fun _ _ => Lower.Quiet.pure rfl

/-- Steps that find one thing each, one after the other. -/
theorem mapM_quiet {α β : Type} {step : α → Lower β} {find : α → β}
    (each : ∀ a, Lower.Quiet (step a) r scopes fun found => found = find a) (as : List α) :
    Lower.Quiet (as.mapM step) r scopes fun found => found = as.map find := by
  induction as with
  | nil => exact Lower.Quiet.pure rfl
  | cons a as ih =>
    rw [List.mapM_cons]
    refine (each a).seq fun first hfirst => ih.seq fun rest hrest => ?_
    exact Lower.Quiet.pure (by simp [hfirst, hrest])

theorem expectResults_quiet (results : List Name) (span : Span) (expected : Nat)
    (what : String) :
    Lower.Quiet (expectResults results span expected what) r scopes fun ok =>
      ok = true → results.length = expected := by
  unfold expectResults
  split
  next h => exact Lower.Quiet.pure fun _ => h
  next => exact (report_quiet _).seq fun _ _ => Lower.Quiet.pure (by simp)

theorem requireMemref_quiet (v : ValueId) (name : Name) (what : String) :
    Lower.Quiet (requireMemref v name what) r scopes fun ok =>
      ok = true → r.isMemref v = true := by
  refine get_quiet.seq ?_
  rintro s ⟨rfl, -⟩
  split
  next value hv =>
    split
    next memref => exact Lower.Quiet.pure fun _ => by simpa [Region.isMemref, hv] using memref
    next => exact (report_quiet _).seq fun _ _ => Lower.Quiet.pure (by simp)
  next => exact markFault_quiet.seq fun _ _ => Lower.Quiet.pure (by simp)

/-- The type that a copied value gets. -/
def copiedType? (r : Region) (source : ValueId) : Option TypeExpr → Option ValueType
  | some type => type.valueType?
  | none => (r.value? source).map Value.type

theorem copyType_quiet (source : ValueId) (type : Option TypeExpr) :
    Lower.Quiet (copyType source type) r scopes fun found => found = copiedType? r source type := by
  cases type with
  | some type => exact lowerType_quiet type
  | none =>
    refine get_quiet.seq ?_
    rintro s ⟨rfl, -⟩
    simp only [copiedType?]
    split
    next value hv => exact Lower.Quiet.pure (by rw [hv]; rfl)
    next none => exact markFault_quiet.seq fun _ _ => Lower.Quiet.pure (by rw [none]; rfl)

theorem lookUp_quiet (name : Name) :
    Lower.Quiet (lookUp name) r scopes fun found => found = scopes.find? name.text := by
  refine get_quiet.seq ?_
  rintro s ⟨rfl, rfl⟩
  split
  next binding hb => exact Lower.Quiet.pure (by simp [Scopes.find?, hb])
  next none => exact (report_quiet _).seq fun _ _ => Lower.Quiet.pure (by simp [Scopes.find?, none])

theorem mapM_map_id {α β : Type} (f : α → Option β) (as : List α) :
    (as.map f).mapM id = as.mapM f := by
  induction as with
  | nil => rfl
  | cons a as ih => simp [ih]

theorem lookUpAll_quiet (names : List Name) :
    Lower.Quiet (lookUpAll names) r scopes fun found =>
      found = names.mapM fun name => scopes.find? name.text := by
  refine (mapM_quiet lookUp_quiet names).seq ?_
  rintro _ rfl
  exact Lower.Quiet.pure (mapM_map_id _ names)

/-- All values that have a name in scope are among `visible`. -/
def Shows (scopes : Scopes) (visible : List ValueId) : Prop :=
  ∀ scope ∈ scopes, ∀ name v, (name, some v) ∈ scope → v ∈ visible

theorem Shows.mono {visible' : List ValueId} (h : Shows scopes visible)
    (sub : ∀ v ∈ visible, v ∈ visible') : Shows scopes visible' :=
  fun scope hs name v hv => sub v (h scope hs name v hv)

theorem Shows.enter (h : Shows scopes visible) (name : String) (v : ValueId) :
    Shows ([(name, some v)] :: scopes) ([v] ++ visible) := by
  intro scope hs text w hw
  rcases List.mem_cons.mp hs with rfl | hs
  · simp only [List.mem_singleton, Prod.mk.injEq, Option.some.injEq] at hw
    simp [hw.2]
  · exact List.mem_append_right _ (h scope hs text w hw)

theorem Shows.find? (shows : Shows scopes visible) {name : String} {v : ValueId}
    (h : scopes.find? name = some v) : v ∈ visible := by
  obtain ⟨scope, hs, hv⟩ := List.exists_of_findSome?_eq_some (Option.join_eq_some_iff.mp h)
  obtain ⟨before, behind, heq, -⟩ := List.lookup_eq_some_iff.mp hv
  exact shows scope hs name v (by simp [heq])

theorem bind_spec (shows : Shows scopes visible) (name : Name) (binding : Binding)
    (known : ∀ v, binding = some v → v ∈ visible) :
    Lower.Spec (bind name binding) r scopes fun _ s scopes' =>
      s = r ∧ scopes'.tail = scopes.tail ∧ Shows scopes' visible := by
  rintro ⟨region, open_, sites, diagnostics⟩ rfl rfl
  cases open_ with
  | nil =>
    refine ⟨rfl, rfl, ?_⟩
    rintro _ ⟨⟩
  | cons scope outer =>
    refine ⟨rfl, rfl, fun found hf text v hv => ?_⟩
    rcases List.mem_cons.mp hf with rfl | hf
    · rcases List.mem_cons.mp hv with he | hv
      · exact known v (Prod.mk.inj he).2.symm
      · exact shows scope (by simp) text v hv
    · exact shows found (by simp [hf]) text v hv

theorem bindAll_spec (shows : Shows scopes visible) (names : List Name) (vs : List ValueId)
    (known : ∀ v ∈ vs, v ∈ visible) :
    Lower.Spec (bindAll names vs) r scopes fun _ s scopes' =>
      s = r ∧ scopes'.tail = scopes.tail ∧ Shows scopes' visible := by
  induction names generalizing vs scopes with
  | nil => exact Lower.Spec.pure ⟨rfl, rfl, shows⟩
  | cons name names ih =>
    cases vs with
    | nil => exact Lower.Spec.pure ⟨rfl, rfl, shows⟩
    | cons v vs =>
      refine (bind_spec shows name (some v) ?_).bind ?_
      · rintro w ⟨⟩
        exact known v (by simp)
      rintro _ _ scopes' ⟨rfl, tail, shows'⟩
      refine (ih shows' vs fun w hw => known w (by simp [hw])).mono ?_
      rintro _ _ _ ⟨rfl, tail', shows''⟩
      exact ⟨rfl, tail'.trans tail, shows''⟩

theorem poison_spec (shows : Shows scopes visible) (names : List Name) :
    Lower.Spec (poison names) r scopes fun _ s scopes' =>
      s = r ∧ scopes'.tail = scopes.tail ∧ Shows scopes' visible := by
  induction names generalizing scopes with
  | nil => exact Lower.Spec.pure ⟨rfl, rfl, shows⟩
  | cons name names ih =>
    refine get_quiet.bind fun s _ => ?_
    split
    · refine (bind_spec shows name none (by simp)).bind ?_
      rintro _ _ scopes' ⟨rfl, tail, shows'⟩
      refine (ih shows').mono ?_
      rintro _ _ _ ⟨rfl, tail', shows''⟩
      exact ⟨rfl, tail'.trans tail, shows''⟩
    · exact ih shows

end Lowering

end Staging
