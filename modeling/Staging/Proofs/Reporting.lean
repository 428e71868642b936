import Staging.Proofs.Bare
import Staging.Proofs.Creating

namespace Staging

/-- The value of the last entry of a key. -/
def lastEntry (entries : List AttrEntry) (key : String) : Option Attr :=
  (entries.reverse.find? fun e => e.key.text = key).map AttrEntry.value

/-- Sets the values of all keys but one. -/
def Attrs.setAll (reserved : String) (entries : List AttrEntry) (attrs : Attrs) : Attrs :=
  entries.foldl (fun attrs e =>
    if e.key.text = reserved then attrs else attrs.set e.key.text e.value) attrs

/-- How the level of a node is given. -/
def levelAttr (level : Nat) : Attr :=
  .int level

theorem lastEntry_cons (entry : AttrEntry) (entries : List AttrEntry) (key : String) :
    lastEntry (entry :: entries) key =
      (lastEntry entries key).or (if entry.key.text = key then some entry.value else none) := by
  unfold lastEntry
  rw [List.reverse_cons, List.find?_append, Option.map_or]
  by_cases here : entry.key.text = key <;> simp [here]

theorem Attrs.get?_cons (k : String) (v : Attr) (attrs : Attrs) (key : String) :
    Attrs.get? ((k, v) :: attrs) key = if key = k then some v else attrs.get? key := by
  by_cases same : key = k
  · simp [get?, same]
  · simp [get?, List.lookup_cons, same, beq_false_of_ne]

theorem Attrs.get?_set (attrs : Attrs) (key : String) (value : Attr) (other : String) :
    (attrs.set key value).get? other = if other = key then some value else attrs.get? other := by
  induction attrs with
  | nil => exact get?_cons key value [] other
  | cons e attrs ih =>
    obtain ⟨k, v⟩ := e
    unfold set
    split
    · rw [get?_cons]
    · split
      next same =>
        subst same
        rw [get?_cons, get?_cons]
        by_cases here : other = key <;> simp only [here, if_true, if_false]
      next apart =>
        rw [get?_cons, get?_cons, ih]
        by_cases here : other = key
        · rw [if_pos here, if_pos here, if_neg (here ▸ apart)]
        · rw [if_neg here, if_neg here]

theorem Attrs.mem_set {attrs : Attrs} {key : String} {value : Attr} {e : String × Attr}
    (h : e ∈ attrs.set key value) : e = (key, value) ∨ e ∈ attrs := by
  induction attrs with
  | nil => simpa [set] using h
  | cons first attrs ih =>
    obtain ⟨k, v⟩ := first
    unfold set at h
    split at h
    · simpa using h
    · split at h
      · rcases List.mem_cons.mp h with here | later
        · exact Or.inl here
        · exact Or.inr (List.mem_cons_of_mem _ later)
      · rcases List.mem_cons.mp h with here | later
        · exact Or.inr (here ▸ List.mem_cons_self ..)
        · exact (ih later).imp_right (List.mem_cons_of_mem _)

theorem Attrs.sorted_set {attrs : Attrs} (sorted : attrs.Pairwise fun a b => a.1 < b.1)
    (key : String) (value : Attr) : (attrs.set key value).Pairwise fun a b => a.1 < b.1 := by
  induction attrs with
  | nil => simp [set]
  | cons first attrs ih =>
    obtain ⟨k, v⟩ := first
    obtain ⟨above, rest⟩ := List.pairwise_cons.mp sorted
    unfold set
    split
    next low =>
      refine List.pairwise_cons.mpr ⟨fun e he => ?_, sorted⟩
      rcases List.mem_cons.mp he with rfl | he
      · exact low
      · exact lt_trans low (above e he)
    next notLow =>
      split
      next same =>
        subst same
        exact List.pairwise_cons.mpr ⟨above, rest⟩
      next apart =>
        refine List.pairwise_cons.mpr ⟨fun e he => ?_, ih rest⟩
        rcases mem_set he with rfl | he
        · exact lt_of_le_of_ne (le_of_not_gt notLow) (Ne.symm apart)
        · exact above e he

theorem Attrs.setAll_cons (reserved : String) (entry : AttrEntry) (entries : List AttrEntry)
    (attrs : Attrs) : attrs.setAll reserved (entry :: entries) =
      (if entry.key.text = reserved then attrs
        else attrs.set entry.key.text entry.value).setAll reserved entries :=
  rfl

theorem Attrs.get?_setAll (reserved : String) (entries : List AttrEntry) (attrs : Attrs)
    {key : String} (free : key ≠ reserved) : (attrs.setAll reserved entries).get? key =
      (lastEntry entries key).or (attrs.get? key) := by
  induction entries generalizing attrs with
  | nil => rfl
  | cons entry entries ih =>
    rw [lastEntry_cons, setAll_cons, ih, Option.or_assoc]
    congr 1
    by_cases here : entry.key.text = key
    · rw [if_neg (here ▸ free), get?_set, if_pos here.symm, if_pos here, Option.some_or]
    · rw [if_neg here, Option.none_or]
      split
      · rfl
      · rw [get?_set, if_neg (Ne.symm here)]

theorem Attrs.get?_setAll_reserved (reserved : String) (entries : List AttrEntry) (attrs : Attrs) :
    (attrs.setAll reserved entries).get? reserved = attrs.get? reserved := by
  induction entries generalizing attrs with
  | nil => rfl
  | cons entry entries ih =>
    rw [setAll_cons, ih]
    split
    · rfl
    next other => rw [get?_set, if_neg (Ne.symm other)]

theorem Attrs.sorted_setAll {attrs : Attrs} (sorted : attrs.Pairwise fun a b => a.1 < b.1)
    (reserved : String) (entries : List AttrEntry) :
    (attrs.setAll reserved entries).Pairwise fun a b => a.1 < b.1 := by
  induction entries generalizing attrs with
  | nil => exact sorted
  | cons entry entries ih =>
    rw [setAll_cons]
    refine ih ?_
    split
    · exact sorted
    · exact sorted_set sorted _ _

/-- A step only adds to the diagnostics, and only errors. -/
def Lower.Reports {α : Type} (x : Lower α) : Prop :=
  ∀ s, ∃ ds, (x s).2.diagnostics = s.diagnostics ++ ds ∧ ∀ d ∈ ds, d.isError = true

/-- A step from a state in which `P` holds reports an error, or gives what `Q` says. -/
structure Lower.Clean {α : Type} (P : Lowering → Prop) (x : Lower α)
    (Q : α → Lowering → Prop) : Prop where
  reports : Lower.Reports x
  silent : ∀ s, P s → (x s).2.diagnostics = s.diagnostics → Q (x s).1 (x s).2

section Rules

variable {α β : Type} {x : Lower α} {f : α → Lower β} {P P' : Lowering → Prop}
  {Q Q' : α → Lowering → Prop} {R : β → Lowering → Prop}

theorem Lower.Reports.of_same (same : ∀ s, (x s).2.diagnostics = s.diagnostics) :
    Lower.Reports x := fun s => ⟨[], by simp [same s], by simp⟩

theorem Lower.Reports.pure (a : α) : Lower.Reports (Pure.pure a) :=
  .of_same fun _ => rfl

theorem Lower.Reports.bind (hx : Lower.Reports x) (hf : ∀ a, Lower.Reports (f a)) :
    Lower.Reports (x >>= f) := by
  intro s
  obtain ⟨ds, first, errors⟩ := hx s
  obtain ⟨es, second, errors'⟩ := hf (x s).1 (x s).2
  refine ⟨ds ++ es, ?_, fun d hd => (List.mem_append.mp hd).elim (errors d) (errors' d)⟩
  change (f (x s).1 (x s).2).2.diagnostics = _
  rw [second, first, List.append_assoc]

/-- Where both steps together report nothing, neither does. -/
theorem Lower.Reports.silent_bind (hx : Lower.Reports x) (hf : ∀ a, Lower.Reports (f a))
    {s : Lowering} (h : ((x >>= f) s).2.diagnostics = s.diagnostics) :
    (x s).2.diagnostics = s.diagnostics ∧
      (f (x s).1 (x s).2).2.diagnostics = (x s).2.diagnostics := by
  obtain ⟨ds, first, -⟩ := hx s
  obtain ⟨es, second, -⟩ := hf (x s).1 (x s).2
  have none : s.diagnostics ++ (ds ++ es) = s.diagnostics := by
    rw [← List.append_assoc, ← first, ← second]
    exact h
  obtain ⟨rfl, rfl⟩ := List.append_eq_nil_iff.mp (List.append_right_eq_self.mp none)
  exact ⟨by simpa using first, by simpa using second⟩

theorem Lower.Clean.pure {a : α} (h : ∀ s, P s → Q a s) : Lower.Clean P (Pure.pure a) Q :=
  ⟨.pure a, fun s hs _ => h s hs⟩

theorem Lower.Clean.bind (hx : Lower.Clean P x Q) (hf : ∀ a, Lower.Clean (Q a) (f a) R) :
    Lower.Clean P (x >>= f) R := by
  have reports := fun a => (hf a).reports
  refine ⟨hx.reports.bind reports, fun s hs quiet => ?_⟩
  obtain ⟨first, second⟩ := hx.reports.silent_bind reports quiet
  exact (hf _).silent _ (hx.silent s hs first) second

theorem Lower.Clean.mono (hx : Lower.Clean P x Q) (pre : ∀ s, P' s → P s)
    (post : ∀ a s, Q a s → Q' a s) : Lower.Clean P' x Q' :=
  ⟨hx.reports, fun s hs quiet => post _ _ (hx.silent s (pre s hs) quiet)⟩

theorem Lower.Clean.imp (hx : Lower.Clean P x Q) (post : ∀ a s, Q a s → Q' a s) :
    Lower.Clean P x Q' :=
  hx.mono (fun _ h => h) post

/-- What is known of a step in any case holds as well. -/
theorem Lower.Clean.withSpec {s : Lowering} {S : α → Region → Scopes → Prop}
    (hx : Lower.Clean (· = s) x Q) (spec : Lower.Spec x s.region s.scopes S) :
    Lower.Clean (· = s) x fun a t => Q a t ∧ S a t.region t.scopes := by
  refine ⟨hx.reports, ?_⟩
  rintro u rfl quiet
  exact ⟨hx.silent u rfl quiet, spec u rfl rfl⟩

/-- A step that is known for each state in which `P` holds. -/
theorem Lower.Clean.of_each (reports : Lower.Reports x)
    (each : ∀ s, P s → Lower.Clean (· = s) x Q) : Lower.Clean P x Q :=
  ⟨reports, fun s hs quiet => (each s hs).silent s rfl quiet⟩

/-- A step that never reports anything. -/
theorem Lower.Clean.of_same (same : ∀ s, (x s).2.diagnostics = s.diagnostics)
    (h : ∀ s, P s → Q (x s).1 (x s).2) : Lower.Clean P x Q :=
  ⟨.of_same same, fun s hs _ => h s hs⟩

/-- A step whose outcome is known comes first. -/
theorem Lower.Clean.run {s t : Lowering} {a : α} (run : x s = (a, t)) (hx : Lower.Reports x)
    (hf : ∀ a, Lower.Reports (f a)) (rest : Lower.Clean (· = t) (f a) R) :
    Lower.Clean (· = s) (x >>= f) R := by
  refine ⟨hx.bind hf, ?_⟩
  rintro u rfl quiet
  obtain ⟨-, second⟩ := hx.silent_bind hf quiet
  have same : (x >>= f) u = f a t := Lowering.bind_run run
  rw [run] at second
  rw [same]
  exact rest.silent t rfl second

/-- A step that cannot be reached without an error. -/
theorem Lower.Clean.unreached (reports : Lower.Reports x) (never : ∀ s, ¬ P s) :
    Lower.Clean P x Q :=
  ⟨reports, fun s hs => absurd hs (never s)⟩

theorem Lower.Clean.guard {b : Bool} {y : Lower (Option β)} {R : Option β → Lowering → Prop}
    (passed : ∀ s, P s → b = true) (go : Lower.Clean P y R) :
    Lower.Clean P (if (!b) = true then Pure.pure none else y) R := by
  cases b with
  | true => exact go
  | false => exact .unreached (.pure none) fun s hs => nomatch passed s hs

end Rules

namespace Lowering

variable {P : Lowering → Prop}

theorem get_clean : Lower.Clean P get fun a s => a = s ∧ P s :=
  .of_same (fun _ => rfl) fun _ hs => ⟨rfl, hs⟩

theorem report_reports {d : Diagnostic} (error : d.isError = true) : Lower.Reports (report d) :=
  fun _ => ⟨[d], rfl, by simpa using error⟩

/-- What follows an error is not silent. -/
theorem fail_clean {α : Type} {d : Diagnostic} (error : d.isError = true) {f : Unit → Lower α}
    {Q : α → Lowering → Prop} (later : ∀ u, Lower.Reports (f u)) :
    Lower.Clean P (report d >>= f) Q := by
  refine ⟨(report_reports error).bind later, fun s _ quiet => ?_⟩
  obtain ⟨first, -⟩ := (report_reports error).silent_bind later quiet
  have first : s.diagnostics ++ [d] = s.diagnostics := first
  simp at first

theorem onRegion_reports {α : Type} (f : Region → α × Region) : Lower.Reports (onRegion f) :=
  .of_same fun _ => rfl

theorem markFault_reports : Lower.Reports markFault :=
  .of_same fun _ => rfl

theorem onNode_reports (n : NodeId) (f : Node → Node) : Lower.Reports (onNode n f) := by
  refine .of_same fun s => ?_
  cases hn : s.region.node? n with
  | some node => rw [onNode_eq hn]
  | none => rw [onNode_eq_none hn]

theorem bind_reports (name : Name) (binding : Binding) : Lower.Reports (bind name binding) :=
  .of_same fun _ => rfl

theorem checkNew_clean (name : Name) : Lower.Clean P (checkNew name) fun ok s =>
    P s ∧ ok = true ∧ s.sites.lookup name.text = none := by
  refine get_clean.bind fun s => ?_
  split
  · exact fail_clean rfl fun _ => .pure false
  next new =>
    refine .pure ?_
    rintro _ ⟨rfl, hs⟩
    exact ⟨hs, rfl, new⟩

theorem checkAllNew_clean (names : List Name) : Lower.Clean P (checkAllNew names) fun ok s =>
    P s ∧ ok = true ∧ ∀ name ∈ names, s.sites.lookup name.text = none := by
  induction names generalizing P with
  | nil => exact .pure fun s hs => ⟨hs, rfl, by simp⟩
  | cons name names ih =>
    refine (checkNew_clean name).bind fun ok => ?_
    split
    · refine ih.imp ?_
      rintro _ s ⟨⟨hs, -, new⟩, rfl, others⟩
      refine ⟨hs, rfl, fun other h => ?_⟩
      rcases List.mem_cons.mp h with rfl | h
      · exact new
      · exact others other h
    next failed => exact .unreached (.pure false) fun s hs => failed hs.2.1

theorem lowerType_clean (type : TypeExpr) : Lower.Clean P (lowerType type) fun found s =>
    P s ∧ ∃ t, found = some t ∧ type.valueType? = some t := by
  cases type with
  | named name =>
    simp only [lowerType, TypeExpr.valueType?]
    split
    · exact .pure fun s hs => ⟨hs, _, rfl, rfl⟩
    · exact fail_clean rfl fun _ => .pure none
  | shaped shape span =>
    simp only [lowerType, TypeExpr.valueType?]
    split
    · exact .pure fun s hs => ⟨hs, _, rfl, rfl⟩
    · exact fail_clean rfl fun _ => .pure none

theorem expectResults_clean (results : List Name) (span : Span) (expected : Nat) (what : String) :
    Lower.Clean P (expectResults results span expected what) fun ok s =>
      P s ∧ ok = true ∧ results.length = expected := by
  unfold expectResults
  split
  next count => exact .pure fun s hs => ⟨hs, rfl, count⟩
  next => exact fail_clean rfl fun _ => .pure false

/-- Every name in scope stands for a value that has been created. -/
def Bound (s : Lowering) : Prop :=
  ∀ name binding, (s.scopes.findSome? fun scope => scope.lookup name) = some binding →
    ∃ v, binding = some v ∧ v.index < s.region.values.size

theorem lookUp_clean (bound : ∀ s, P s → s.Bound) (name : Name) :
    Lower.Clean P (lookUp name) fun found s =>
      P s ∧ ∃ v, found = some v ∧ v.index < s.region.values.size := by
  refine get_clean.bind fun s => ?_
  split
  next binding found =>
    refine .pure ?_
    rintro _ ⟨rfl, hs⟩
    exact ⟨hs, bound s hs _ _ found⟩
  · exact fail_clean rfl fun _ => .pure none

/-- Steps that find one thing each, one after the other. -/
theorem mapM_clean {α β : Type} {step : α → Lower (Option β)} {ok : Lowering → β → Prop}
    (each : ∀ P : Lowering → Prop, (∀ s, P s → s.Bound) → ∀ a, Lower.Clean P (step a)
      fun found s => P s ∧ ∃ b, found = some b ∧ ok s b)
    (bound : ∀ s, P s → s.Bound) (as : List α) : Lower.Clean P (as.mapM step) fun found s =>
      P s ∧ ∃ bs, found.mapM id = some bs ∧ bs.length = as.length ∧ ∀ b ∈ bs, ok s b := by
  induction as generalizing P with
  | nil => exact .pure fun s hs => ⟨hs, [], rfl, rfl, by simp⟩
  | cons a as ih =>
    rw [List.mapM_cons]
    refine (each P bound a).bind fun first => (ih fun s hs => bound s hs.1).bind fun rest => ?_
    refine .pure ?_
    rintro s ⟨⟨hs, b, rfl, hb⟩, bs, found, length, all⟩
    exact ⟨hs, b :: bs, by simp [found], by simp [length], by simpa using ⟨hb, all⟩⟩

theorem lookUpAll_clean (bound : ∀ s, P s → s.Bound) (names : List Name) :
    Lower.Clean P (lookUpAll names) fun found s => P s ∧ ∃ vs, found = some vs ∧
      vs.length = names.length ∧ ∀ v ∈ vs, v.index < s.region.values.size := by
  refine (mapM_clean (fun P bound => lookUp_clean bound) bound names).bind fun found => .pure ?_
  exact fun s hs => hs

theorem lowerTypes_clean (bound : ∀ s, P s → s.Bound) (types : List TypeExpr) :
    Lower.Clean P (types.mapM lowerType) fun found s => P s ∧ (found.mapM id).isSome = true := by
  have each (P : Lowering → Prop) (_ : ∀ s, P s → s.Bound) (type : TypeExpr) :
      Lower.Clean P (lowerType type) fun found s => P s ∧ ∃ t, found = some t ∧ True :=
    (lowerType_clean type).imp fun found s hs => ⟨hs.1, hs.2.imp fun t h => ⟨h.1, trivial⟩⟩
  refine (mapM_clean each bound types).imp ?_
  rintro found s ⟨hs, ts, known, -⟩
  exact ⟨hs, by simp [known]⟩

theorem requireMemref_clean {v : ValueId} (known : ∀ s, P s → v.index < s.region.values.size)
    (name : Name) (what : String) :
    Lower.Clean P (requireMemref v name what) fun ok s => P s ∧ ok = true := by
  refine get_clean.bind fun s => ?_
  split
  · split
    · exact .pure fun s hs => ⟨hs.2, rfl⟩
    · exact fail_clean rfl fun _ => .pure false
  next missing =>
    refine .unreached (.pure false) ?_
    rintro _ ⟨rfl, hs⟩
    obtain ⟨value, hv⟩ := Region.value?_eq_some (known s hs)
    exact absurd hv (by simp [missing])

theorem copyType_clean {v : ValueId} (known : ∀ s, P s → v.index < s.region.values.size)
    (type : Option TypeExpr) :
    Lower.Clean P (copyType v type) fun found s => P s ∧ found.isSome = true := by
  cases type with
  | some type =>
    refine (lowerType_clean type).imp ?_
    rintro _ s ⟨hs, t, rfl, -⟩
    exact ⟨hs, rfl⟩
  | none =>
    refine get_clean.bind fun s => ?_
    split
    · exact .pure fun s hs => ⟨hs.2, rfl⟩
    next missing =>
      refine .unreached (markFault_reports.bind fun _ => .pure none) ?_
      rintro _ ⟨rfl, hs⟩
      obtain ⟨value, hv⟩ := Region.value?_eq_some (known s hs)
      exact absurd hv (by simp [missing])

theorem bindAll_reports (names : List Name) (vs : List ValueId) :
    Lower.Reports (bindAll names vs) := by
  induction names generalizing vs with
  | nil => exact .pure ()
  | cons name names ih =>
    cases vs with
    | nil => exact .pure ()
    | cons v vs => exact (bind_reports name _).bind fun _ => ih vs

theorem finish_clean (results : List Name) (span : Span) (kind : NodeKind)
    (operands : List ValueId) (types : List ValueType) :
    Lower.Clean P (finish results span kind operands types) fun made _ => made.isSome = true := by
  refine ⟨(onRegion_reports _).bind fun n => Lower.Reports.bind (.of_same fun _ => rfl) fun s =>
    (bindAll_reports _ _).bind fun _ => .pure (some n), fun _ _ _ => rfl⟩

/-- The last check counts the results. -/
theorem counted_clean (results : List Name) (span : Span) (expected : Nat) (what : String)
    (kind : NodeKind) (operands : List ValueId) (types : List ValueType) :
    Lower.Clean P (do
      if !(← expectResults results span expected what) then return none
      finish results span kind operands types) fun made _ => made.isSome = true :=
  (expectResults_clean results span expected what).bind fun _ =>
    .guard (fun _ hs => hs.2.1) (finish_clean results span kind operands types)

/-- An operation that can be written, whose operands are known, is left out only with an error. -/
theorem lowerOp_clean (bound : ∀ s, P s → s.Bound) (results : List Name) (span : Span) {op : Op}
    (formed : ∀ s, P s → op.Formed) :
    Lower.Clean P (lowerOp results span op) fun made _ => made.isSome = true := by
  cases op with
  | alloc stack type =>
    refine (lowerType_clean type).bind fun found => ?_
    cases found with
    | none => exact .unreached (.pure none) fun s hs => nomatch hs.2
    | some t =>
      simp only
      split
      · exact fail_clean rfl fun _ => .pure none
      · exact counted_clean _ _ _ _ _ _ _
  | constant value type =>
    refine (lowerType_clean type).bind fun found => ?_
    cases found with
    | none => exact .unreached (.pure none) fun s hs => nomatch hs.2
    | some t => exact counted_clean _ _ _ _ _ _ _
  | convert conversion operand type =>
    refine (lowerType_clean type).bind fun type' =>
      (lookUp_clean (fun s hs => bound s hs.1) operand).bind fun operand' => ?_
    cases type' with
    | none => exact .unreached (.pure none) fun s hs => nomatch hs.1.2
    | some t =>
    cases operand' with
    | none => exact .unreached (.pure none) fun s hs => nomatch hs.2
    | some v => exact counted_clean _ _ _ _ _ _ _
  | ret operands =>
    refine (lookUpAll_clean bound operands).bind fun values => ?_
    cases values with
    | none => exact .unreached (.pure none) fun s hs => nomatch hs.2
    | some vs => exact counted_clean _ _ _ _ _ _ _
  | compute name operands types =>
    refine (lookUpAll_clean bound operands).bind fun values =>
      (lowerTypes_clean (fun s hs => bound s hs.1) types).bind fun types' => ?_
    cases values with
    | none => exact .unreached (.pure none) fun s hs => nomatch hs.1.2
    | some vs =>
    cases types'.mapM id with
    | none => exact .unreached (.pure none) fun s hs => nomatch hs.2
    | some ts => exact counted_clean _ _ _ _ _ _ _
  | load memref type =>
    refine (lowerType_clean type).bind fun type' =>
      (lookUp_clean (fun s hs => bound s hs.1) memref).bind fun mem => ?_
    cases type' with
    | none => exact .unreached (.pure none) fun s hs => nomatch hs.1.2
    | some t =>
    cases mem with
    | none => exact .unreached (.pure none) fun s hs => nomatch hs.2
    | some mem =>
      refine (requireMemref_clean ?_ memref "load").bind fun _ =>
        .guard (fun _ hs => hs.2) (counted_clean _ _ _ _ _ _ _)
      rintro s ⟨-, _, ⟨⟩, known⟩
      exact known
  | store value memref =>
    refine (lookUp_clean bound value).bind fun v =>
      (lookUp_clean (fun s hs => bound s hs.1) memref).bind fun mem => ?_
    cases v with
    | none => exact .unreached (.pure none) fun s hs => nomatch hs.1.2
    | some v =>
    cases mem with
    | none => exact .unreached (.pure none) fun s hs => nomatch hs.2
    | some mem =>
      refine (requireMemref_clean ?_ memref "store").bind fun _ =>
        .guard (fun _ hs => hs.2) (counted_clean _ _ _ _ _ _ _)
      rintro s ⟨-, _, ⟨⟩, known⟩
      exact known
  | copy operands type =>
    refine (lookUpAll_clean bound operands).bind fun values => ?_
    cases values with
    | none => exact .unreached (.pure none) fun s hs => nomatch hs.2
    | some values =>
      simp only
      split
      next source target src dst =>
        refine (requireMemref_clean ?_ source "copy source").bind fun first =>
          (requireMemref_clean ?_ target "copy target").bind fun second =>
            .guard ?_ (counted_clean _ _ _ _ _ _ _)
        · rintro s ⟨-, _, ⟨⟩, -, known⟩
          exact known src (by simp)
        · rintro s ⟨⟨-, _, ⟨⟩, -, known⟩, -⟩
          exact known dst (by simp)
        · rintro s ⟨⟨-, rfl⟩, rfl⟩
          rfl
      next source src =>
        refine (copyType_clean ?_ type).bind fun found => ?_
        · rintro s ⟨-, _, ⟨⟩, -, known⟩
          exact known src (by simp)
        cases found with
        | none => exact .unreached (.pure none) fun s hs => nomatch hs.2
        | some t => exact counted_clean _ _ _ _ _ _ _
      next two one =>
        refine .unreached (.pure none) ?_
        rintro s ⟨hs, vs, ⟨⟩, length, -⟩
        rcases formed s hs with single | pair
        · obtain ⟨source, rfl⟩ := List.length_eq_one_iff.mp single
          obtain ⟨src, rfl⟩ := List.length_eq_one_iff.mp length
          exact one source src rfl rfl
        · obtain ⟨source, target, rfl⟩ := List.length_eq_two.mp pair
          obtain ⟨src, dst, rfl⟩ := List.length_eq_two.mp length
          exact two source target src dst rfl rfl

/-- A loop is left out only with an error. -/
theorem enterLoop_clean (results : List Name) (iv : Name) (lower upper : Int) (span : Span) :
    Lower.Clean P (enterLoop results iv lower upper span) fun _ _ =>
      results = [] ∧ ∃ s, P s ∧ s.sites.lookup iv.text = none := by
  refine (expectResults_clean results span 0 "loop").bind fun _ =>
    .guard (fun _ hs => hs.2.1) ((checkNew_clean iv).bind fun _ => .guard (fun _ hs => hs.2.1) ?_)
  refine ⟨Lower.Reports.bind (.of_same fun _ => rfl) fun s => (onRegion_reports _).bind fun n =>
    Lower.Reports.bind (.of_same fun _ => rfl) fun _ => (bind_reports _ _).bind fun _ => .pure _, ?_⟩
  rintro s ⟨⟨hs, -, count⟩, -, new⟩ -
  exact ⟨List.length_eq_zero_iff.mp count, s, hs, new⟩

theorem poison_reports (names : List Name) : Lower.Reports (poison names) := by
  induction names with
  | nil => exact .pure ()
  | cons name names ih =>
    refine Lower.Reports.bind (.of_same fun _ => rfl) fun s => ?_
    split
    · exact (bind_reports name none).bind fun _ => ih
    · exact ih

theorem applyAttrs_reports (n : NodeId) (entries : List AttrEntry) :
    Lower.Reports (applyAttrs n entries) := by
  induction entries with
  | nil => exact .pure ()
  | cons entry entries ih =>
    unfold applyAttrs
    split
    · split
      · split
        · exact (onNode_reports n _).bind fun _ => ih
        · exact (report_reports rfl).bind fun _ => ih
      · exact (report_reports rfl).bind fun _ => ih
    · exact (onNode_reports n _).bind fun _ => ih

theorem attributed_modify (n : NodeId) (f : Node → Node) (level : Option Nat) (attrs : Attrs)
    (s : Lowering) (keeps : ∀ node, { f node with level := level, attrs := attrs } =
      { node with level := level, attrs := attrs }) :
    attributed n level attrs { s with region := s.region.modifyNode n f } =
      s.attributed n level attrs := by
  unfold attributed
  simp only [modifyNode_modifyNode]
  congr 2
  exact funext keeps

/-- Each entry of a dictionary is applied. -/
theorem applyAttrs_clean {s : Lowering} {n : NodeId} {node : Node} (hn : s.region.node? n = some node)
    (small : ∀ l, node.level = some l → l < 2 ^ 32) (entries : List AttrEntry) :
    Lower.Clean (· = s) (applyAttrs n entries) fun _ t =>
      ∃ level, level.map levelAttr = (lastEntry entries levelKey).or (node.level.map levelAttr) ∧
        (∀ l, level = some l → l < 2 ^ 32) ∧
        t = s.attributed n level (node.attrs.setAll levelKey entries) := by
  induction entries generalizing s node with
  | nil =>
    refine .pure ?_
    rintro _ rfl
    refine ⟨node.level, by simp [lastEntry], small, ?_⟩
    rw [attributed, Region.modifyNode_self hn rfl]
  | cons entry entries ih =>
    have later := fun _ : Unit => applyAttrs_reports n entries
    unfold applyAttrs
    split
    next key =>
      split
      next level value =>
        split
        next fits =>
          have hn' : (s.region.setLevel n (some level.toNat)).node? n =
              some { node with level := some level.toNat } := by
            rw [Region.node?_setLevel, if_pos rfl, hn, Option.map_some]
          simp only [Bool.and_eq_true, decide_eq_true_eq] at fits
          obtain ⟨low, high⟩ := fits
          have small' : ∀ l, some level.toNat = some l → l < 2 ^ 32 := by
            rintro _ ⟨⟩
            exact (Int.toNat_lt low).mpr high
          refine .run (onNode_eq hn _) (onNode_reports n _) later
            ((@ih { s with region := _ } _ hn' small').imp ?_)
          rintro _ t ⟨latest, levels, bound, rfl⟩
          refine ⟨latest, ?_, bound, ?_⟩
          · rw [levels, lastEntry_cons, if_pos key, Option.or_assoc, Option.some_or, Option.map_some,
              levelAttr, Int.toNat_of_nonneg low, value]
          · rw [Attrs.setAll_cons, if_pos key]
            exact attributed_modify n _ _ _ s fun _ => rfl
        next => exact fail_clean rfl later
      next => exact fail_clean rfl later
    next other =>
      have hn' : (s.region.modifyNode n fun m =>
          { m with attrs := m.attrs.set entry.key.text entry.value }).node? n =
            some { node with attrs := node.attrs.set entry.key.text entry.value } := by
        rw [Region.node?_modifyNode, if_pos rfl, hn, Option.map_some]
      refine .run (onNode_eq hn _) (onNode_reports n _) later
        ((@ih { s with region := _ } _ hn' small).imp ?_)
      rintro _ t ⟨latest, levels, bound, rfl⟩
      refine ⟨latest, ?_, bound, ?_⟩
      · rw [levels, lastEntry_cons, if_neg other, Option.or_none]
      · rw [Attrs.setAll_cons, if_neg other]
        exact attributed_modify n _ _ _ s fun _ => rfl

/-- Each entry of the dictionary of a function is applied. -/
theorem applyFuncAttrs_clean {s : Lowering} (entries : List AttrEntry) :
    Lower.Clean (· = s) (applyFuncAttrs entries) fun _ t =>
      ∃ flag, Attr.bool flag = (lastEntry entries dataflowKey).getD (.bool s.region.dataflow) ∧
        t = { s with region := { s.region with
          dataflow := flag, attrs := s.region.attrs.setAll dataflowKey entries } } := by
  have reports (entries : List AttrEntry) : Lower.Reports (applyFuncAttrs entries) := by
    induction entries with
    | nil => exact .pure ()
    | cons entry entries ih =>
      unfold applyFuncAttrs
      split
      · split
        · exact (onRegion_reports _).bind fun _ => ih
        · exact (report_reports rfl).bind fun _ => ih
      · exact (onRegion_reports _).bind fun _ => ih
  induction entries generalizing s with
  | nil =>
    refine .pure ?_
    rintro _ rfl
    exact ⟨_, rfl, rfl⟩
  | cons entry entries ih =>
    have later := fun _ : Unit => reports entries
    unfold applyFuncAttrs
    split
    next key =>
      split
      next flag value =>
        refine .run rfl (onRegion_reports _) later ((@ih { s with region := _ }).imp ?_)
        rintro _ t ⟨latest, flags, rfl⟩
        refine ⟨latest, ?_, ?_⟩
        · rw [flags, lastEntry_cons, if_pos key, value]
          cases lastEntry entries dataflowKey <;> rfl
        · rw [Attrs.setAll_cons, if_pos key]
      next => exact fail_clean rfl later
    next other =>
      refine .run rfl (onRegion_reports _) later ((@ih { s with region := _ }).imp ?_)
      rintro _ t ⟨latest, flags, rfl⟩
      refine ⟨latest, ?_, ?_⟩
      · rw [flags, lastEntry_cons, if_neg other, Option.or_none]
      · rw [Attrs.setAll_cons, if_neg other]

theorem lowerOp_reports (results : List Name) (span : Span) (op : Op) :
    Lower.Reports (lowerOp results span op) :=
  (lowerOp_clean (fun _ => False.elim) results span fun _ => False.elim).reports

theorem enterLoop_reports (results : List Name) (iv : Name) (lower upper : Int) (span : Span) :
    Lower.Reports (enterLoop results iv lower upper span) :=
  (@enterLoop_clean (fun _ => False) results iv lower upper span).reports

theorem attach_reports (block : Option NodeId) (n : NodeId) : Lower.Reports (attach block n) := by
  refine .of_same fun s => ?_
  cases h : s.region.append block n with
  | some made => rw [attach_eq h]
  | none => rw [attach_eq_none h]

theorem closeScope_reports : Lower.Reports closeScope :=
  .of_same fun _ => rfl

mutual

theorem lowerBlock_reports (block : Option NodeId) : ∀ stmts : List Stmt,
    Lower.Reports (lowerBlock block stmts)
  | [] => by
    unfold lowerBlock
    exact .pure ()
  | stmt :: stmts => by
    unfold lowerBlock
    refine (lowerStmt_reports stmt).bind fun made => ?_
    cases made with
    | none => exact lowerBlock_reports block stmts
    | some n => exact (attach_reports block n).bind fun _ => lowerBlock_reports block stmts

theorem lowerStmt_reports : ∀ stmt : Stmt, Lower.Reports (lowerStmt stmt)
  | .op results op attrs span => by
    have settle (made : Option NodeId) : Lower.Reports (do
        match made with
        | some n => applyAttrs n attrs
        | none => poison results
        return made) := by
      cases made with
      | none => exact (poison_reports results).bind fun _ => .pure none
      | some n => exact (applyAttrs_reports n attrs).bind fun _ => .pure (some n)
    unfold lowerStmt
    refine (checkAllNew_clean (P := fun _ => True) results).reports.bind fun new => ?_
    cases new with
    | true => exact (lowerOp_reports results span op).bind settle
    | false => exact settle none
  | .loop results iv lower upper body attrs span => by
    have settle (made : Option NodeId) : Lower.Reports (do
        match made with
        | some n =>
          lowerBlock (some n) body
          closeScope
          applyAttrs n attrs
        | none => poison results
        return made) := by
      cases made with
      | none => exact (poison_reports results).bind fun _ => .pure none
      | some n =>
        exact (lowerBlock_reports (some n) body).bind fun _ => closeScope_reports.bind fun _ =>
          (applyAttrs_reports n attrs).bind fun _ => .pure (some n)
    unfold lowerStmt
    refine (checkAllNew_clean (P := fun _ => True) results).reports.bind fun new => ?_
    cases new with
    | true => exact (enterLoop_reports results iv lower upper span).bind settle
    | false => exact settle none

end

end Lowering

end Staging
