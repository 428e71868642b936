import Staging.Proofs.Building
import Staging.Proofs.Placed

namespace Staging

/-- A region and its nodes start at places of some kind. -/
structure Region.Spanned (P : Nat → Prop) (r : Region) : Prop where
  span : P r.span.start
  nodes : ∀ n node, r.node? n = some node → P node.span.start

/-- What holds of a lowering at every moment: names stand for values that have been created,
all that can be pointed to starts at places of some kind, and nothing was asked of a node or value
that is not there. -/
structure Lowering.Grounded (P : Nat → Prop) (s : Lowering) : Prop where
  bound : ∀ scope ∈ s.scopes, ∀ name v, (name, some v) ∈ scope → v.index < s.region.values.size
  sites : ∀ site ∈ s.sites, P site.2.start
  diagnostics : ∀ d ∈ s.diagnostics, d.Placed P
  region : s.region.Spanned P
  sound : s.fault = false

/-- Nodes and values that are there stay there. -/
structure Lowering.Grows (s t : Lowering) : Prop where
  nodes : s.region.nodes.size ≤ t.region.nodes.size
  values : s.region.values.size ≤ t.region.values.size

/-- From a state that is grounded, a step leads to one that is, and gives what `Q` says. -/
def Lower.Safe {α : Type} (P : Nat → Prop) (x : Lower α) (s : Lowering)
    (Q : α → Lowering → Prop) : Prop :=
  s.Grounded P → (x s).2.Grounded P ∧ s.Grows (x s).2 ∧ Q (x s).1 (x s).2

section Spanned

variable {P : Nat → Prop} {r s : Region} {n : NodeId} {block : Option NodeId}

theorem Region.Spanned.of_same (spanned : r.Spanned P) (span : s.span = r.span)
    (nodes : s.nodes = r.nodes) : s.Spanned P := by
  refine ⟨span ▸ spanned.span, fun n node hn => ?_⟩
  apply spanned.nodes n
  rw [node?, ← nodes]
  exact hn

theorem Region.Spanned.modifyNode (spanned : r.Spanned P) {f : Node → Node}
    (keeps : ∀ node, (f node).span = node.span) : (r.modifyNode n f).Spanned P := by
  refine ⟨spanned.span, fun m node hm => ?_⟩
  rw [node?_modifyNode] at hm
  split at hm
  next =>
    obtain ⟨old, ho, rfl⟩ := Option.map_eq_some_iff.mp hm
    rw [keeps]
    exact spanned.nodes m old ho
  next => exact spanned.nodes m node hm

theorem Region.Spanned.setBlock (spanned : r.Spanned P) (ns : List NodeId) :
    (r.setBlock ns block).Spanned P := by
  cases block with
  | none => exact spanned.of_same rfl rfl
  | some p => exact spanned.modifyNode fun _ => rfl

theorem Region.Spanned.append (spanned : r.Spanned P) {done : Bool}
    (h : r.append block n = some (s, done)) : s.Spanned P := by
  unfold Region.append attach at h
  obtain ⟨ns, -, h⟩ := Option.bind_eq_some_iff.mp h
  obtain ⟨holds, -, h⟩ := Option.bind_eq_some_iff.mp h
  split at h
  next =>
    obtain ⟨node, -, h⟩ := Option.bind_eq_some_iff.mp h
    cases h
    exact (spanned.setBlock _).modifyNode fun _ => rfl
  next =>
    cases h
    exact spanned

theorem Region.Spanned.extendWith (spanned : r.Spanned P) {node : Node} {news : List Value}
    (here : P node.span.start) : (r.extendWith node news).Spanned P := by
  refine ⟨spanned.span, fun m other hm => ?_⟩
  rw [node?_extendWith] at hm
  split at hm
  next =>
    cases hm
    exact here
  next => exact spanned.nodes m other hm

end Spanned

theorem Lowering.Grows.refl (s : Lowering) : s.Grows s :=
  ⟨le_rfl, le_rfl⟩

theorem Lowering.Grows.trans {s t u : Lowering} (h : s.Grows t) (h' : t.Grows u) : s.Grows u :=
  ⟨h.nodes.trans h'.nodes, h.values.trans h'.values⟩

theorem Lowering.Grounded.of_region {P : Nat → Prop} {s : Lowering} (grounded : s.Grounded P)
    {r : Region} (spanned : r.Spanned P) (values : s.region.values.size ≤ r.values.size) :
    { s with region := r }.Grounded P :=
  ⟨fun scope hs name v hv => lt_of_lt_of_le (grounded.bound scope hs name v hv) values,
    grounded.sites, grounded.diagnostics, spanned, grounded.sound⟩

section Rules

variable {α β : Type} {P : Nat → Prop} {s : Lowering} {x : Lower α} {f : α → Lower β}
  {Q Q' : α → Lowering → Prop} {R : β → Lowering → Prop}

theorem Lower.Safe.pure {a : α} (h : Q a s) : Lower.Safe P (Pure.pure a) s Q :=
  fun grounded => ⟨grounded, .refl s, h⟩

theorem Lower.Safe.bind (hx : Lower.Safe P x s Q)
    (hf : ∀ a t, s.Grows t → Q a t → Lower.Safe P (f a) t R) : Lower.Safe P (x >>= f) s R := by
  intro grounded
  obtain ⟨grounded', grows, ha⟩ := hx grounded
  obtain ⟨grounded'', grows', hb⟩ := hf _ _ grows ha grounded'
  exact ⟨grounded'', grows.trans grows', hb⟩

theorem Lower.Safe.of_grounded (h : s.Grounded P → Lower.Safe P x s Q) : Lower.Safe P x s Q :=
  fun grounded => h grounded grounded

/-- A step goes on only if a check holds. -/
theorem Lower.Safe.guard {b : Bool} {y : Lower (Option β)} {R : Option β → Lowering → Prop}
    (stop : R none s) (go : Lower.Safe P y s R) :
    Lower.Safe P (if (!b) = true then Pure.pure none else y) s R := by
  cases b with
  | true => exact go
  | false => exact .pure stop

end Rules

namespace Lowering

variable {P : Nat → Prop} {s : Lowering}

theorem get_safe : Lower.Safe P get s fun a t => a = s ∧ t = s :=
  fun grounded => ⟨grounded, .refl s, rfl, rfl⟩

theorem report_safe {d : Diagnostic} (placed : d.Placed P) :
    Lower.Safe P (report d) s fun _ _ => True := by
  intro grounded
  refine ⟨⟨grounded.bound, grounded.sites, fun e he => ?_, grounded.region, grounded.sound⟩,
    ⟨le_rfl, le_rfl⟩, trivial⟩
  rcases List.mem_append.mp he with he | he
  · exact grounded.diagnostics e he
  · rw [List.mem_singleton.mp he]
    exact placed

theorem onRegion_safe {α : Type} {f : Region → α × Region}
    (spanned : s.region.Spanned P → (f s.region).2.Spanned P)
    (nodes : s.region.nodes.size ≤ (f s.region).2.nodes.size)
    (values : s.region.values.size ≤ (f s.region).2.values.size) :
    Lower.Safe P (onRegion f) s fun a t => a = (f s.region).1 ∧ t.region = (f s.region).2 :=
  fun grounded => ⟨grounded.of_region (spanned grounded.region) values, ⟨nodes, values⟩, rfl, rfl⟩

theorem onNode_safe {n : NodeId} (known : n.index < s.region.nodes.size) {f : Node → Node}
    (keeps : ∀ node, (f node).span = node.span) :
    Lower.Safe P (onNode n f) s fun _ _ => True := by
  intro grounded
  obtain ⟨node, hn⟩ := Region.node?_eq_some known
  rw [onNode_eq hn]
  refine ⟨grounded.of_region (grounded.region.modifyNode keeps) le_rfl, ⟨?_, le_rfl⟩, trivial⟩
  simp [Region.modifyNode]

theorem attach_safe {block : Option NodeId} {n : NodeId}
    (older : ∀ p, block = some p → p.index < s.region.nodes.size)
    (known : n.index < s.region.nodes.size) : Lower.Safe P (attach block n) s fun _ _ => True := by
  intro grounded
  obtain ⟨⟨q, done⟩, attached⟩ :=
    Region.exists_attach (fun block => some (block ++ [n])) older known
  have appended : s.region.append block n = some (q, done) := attached
  have sizes : q.nodes.size = s.region.nodes.size ∧ q.values = s.region.values := by
    rcases Region.append_effect appended with ⟨-, rfl⟩ | ⟨-, inserts⟩
    · exact ⟨rfl, rfl⟩
    · exact ⟨inserts.size, inserts.values⟩
  rw [attach_eq appended]
  refine ⟨grounded.of_region (grounded.region.append appended) ?_, ⟨?_, ?_⟩, trivial⟩
  · exact (congrArg Array.size sizes.2).ge
  · exact sizes.1.ge
  · exact (congrArg Array.size sizes.2).ge

theorem openScope_safe : Lower.Safe P openScope s fun _ _ => True := by
  intro grounded
  refine ⟨⟨?_, grounded.sites, grounded.diagnostics, grounded.region, grounded.sound⟩,
    ⟨le_rfl, le_rfl⟩, trivial⟩
  intro scope hs name v hv
  rcases List.mem_cons.mp hs with rfl | hs
  · cases hv
  · exact grounded.bound scope hs name v hv

theorem closeScope_safe : Lower.Safe P closeScope s fun _ _ => True := by
  intro grounded
  refine ⟨⟨?_, grounded.sites, grounded.diagnostics, grounded.region, grounded.sound⟩,
    ⟨le_rfl, le_rfl⟩, trivial⟩
  intro scope hs name v hv
  exact grounded.bound scope (List.mem_of_mem_tail hs) name v hv

theorem bind_safe {name : Name} (here : P name.span.start) {binding : Binding}
    (known : ∀ v, binding = some v → v.index < s.region.values.size) :
    Lower.Safe P (Lowering.bind name binding) s fun _ _ => True := by
  intro grounded
  refine ⟨⟨?_, ?_, grounded.diagnostics, grounded.region, grounded.sound⟩, ⟨le_rfl, le_rfl⟩,
    trivial⟩
  · obtain ⟨region, scopes, sites, diagnostics, fault⟩ := s
    intro scope hs text v hv
    cases scopes with
    | nil => cases hs
    | cons first outer =>
      rcases List.mem_cons.mp hs with rfl | hs
      · rcases List.mem_cons.mp hv with same | hv
        · exact known v (Prod.mk.inj same).2.symm
        · exact grounded.bound first (by simp) text v hv
      · exact grounded.bound scope (by simp [hs]) text v hv
  · intro site hs
    rcases List.mem_cons.mp hs with rfl | hs
    · exact here
    · exact grounded.sites site hs

theorem bindAll_safe {names : List Name} (here : ∀ name ∈ names, P name.span.start)
    {vs : List ValueId} (known : ∀ v ∈ vs, v.index < s.region.values.size) :
    Lower.Safe P (bindAll names vs) s fun _ _ => True := by
  induction names generalizing vs s with
  | nil => exact .pure trivial
  | cons name names ih =>
    cases vs with
    | nil => exact .pure trivial
    | cons v vs =>
      have first : ∀ w, some v = some w → w.index < s.region.values.size := by
        rintro w ⟨⟩
        exact known v (by simp)
      refine (bind_safe (here name (by simp)) first).bind fun _ t grows _ => ?_
      apply ih fun other h => here other (by simp [h])
      intro w hw
      exact lt_of_lt_of_le (known w (by simp [hw])) grows.values

/-- A place that a name has had is one of those that can be pointed to. -/
theorem Grounded.site (grounded : s.Grounded P) {name : String} {span : Span}
    (h : s.sites.lookup name = some span) : P span.start := by
  obtain ⟨before, behind, split, -⟩ := List.lookup_eq_some_iff.mp h
  exact grounded.sites (name, span) (by simp [split])

theorem checkNew_safe {name : Name} (here : P name.span.start) :
    Lower.Safe P (checkNew name) s fun _ _ => True := by
  refine .of_grounded fun grounded => get_safe.bind ?_
  rintro _ _ - ⟨rfl, rfl⟩
  split
  next previous found =>
    have placed : (Diagnostic.redefinedValue name previous).Placed P := by
      refine ⟨here, fun place hp => ?_⟩
      rw [List.mem_singleton.mp hp]
      exact grounded.site found
    exact (report_safe placed).bind fun _ _ _ _ => .pure trivial
  next => exact .pure trivial

theorem checkAllNew_safe {names : List Name} (here : ∀ name ∈ names, P name.span.start) :
    Lower.Safe P (checkAllNew names) s fun _ _ => True := by
  induction names generalizing s with
  | nil => exact .pure trivial
  | cons name names ih =>
    refine (checkNew_safe (here name (by simp))).bind fun new t _ _ => ?_
    split
    · exact ih fun other h => here other (by simp [h])
    · exact .pure trivial

theorem poison_safe {names : List Name} (here : ∀ name ∈ names, P name.span.start) :
    Lower.Safe P (poison names) s fun _ _ => True := by
  induction names generalizing s with
  | nil => exact .pure trivial
  | cons name names ih =>
    have later (t : Lowering) := @ih t fun other h => here other (by simp [h])
    refine get_safe.bind fun state t _ _ => ?_
    split
    · exact (bind_safe (here name (by simp)) (by simp)).bind fun _ u _ _ => later u
    · exact later t

theorem lookUp_safe {name : Name} (here : P name.span.start) :
    Lower.Safe P (lookUp name) s fun found t =>
      ∀ v, found = some v → v.index < t.region.values.size := by
  refine .of_grounded fun grounded => get_safe.bind ?_
  rintro _ _ - ⟨rfl, rfl⟩
  split
  next binding found =>
    refine .pure fun v hv => ?_
    obtain ⟨scope, hs, found⟩ := List.exists_of_findSome?_eq_some found
    obtain ⟨before, behind, split, -⟩ := List.lookup_eq_some_iff.mp found
    exact grounded.bound scope hs name.text v (by simp [split, hv])
  next =>
    exact (report_safe (Diagnostic.placed_of_lone here rfl)).bind fun _ _ _ _ => .pure nofun

theorem lookUpAll_safe {names : List Name} (here : ∀ name ∈ names, P name.span.start) :
    Lower.Safe P (lookUpAll names) s fun found t =>
      ∀ vs, found = some vs → ∀ v ∈ vs, v.index < t.region.values.size := by
  have each : Lower.Safe P (names.mapM lookUp) s fun found t =>
      ∀ v, some v ∈ found → v.index < t.region.values.size := by
    induction names generalizing s with
    | nil => exact .pure (by simp)
    | cons name names ih =>
      rw [List.mapM_cons]
      refine (lookUp_safe (here name (by simp))).bind fun first t _ known => ?_
      refine (ih fun other h => here other (by simp [h])).bind fun rest u grows others => ?_
      refine .pure fun v hv => ?_
      rcases List.mem_cons.mp hv with same | hv
      · exact lt_of_lt_of_le (known v same.symm) grows.values
      · exact others v hv
  refine each.bind fun found t _ known => .pure fun vs all v hv => ?_
  obtain ⟨binding, hb, rfl⟩ := mem_of_mapM all v hv
  exact known v hb

theorem lowerType_safe {type : TypeExpr} (here : P type.span.start) :
    Lower.Safe P (lowerType type) s fun _ _ => True := by
  cases type with
  | named name =>
    simp only [lowerType]
    split
    · exact .pure trivial
    · exact (report_safe (Diagnostic.placed_of_lone here rfl)).bind fun _ _ _ _ => .pure trivial
  | shaped shape span =>
    simp only [lowerType]
    split
    · exact .pure trivial
    · exact (report_safe (Diagnostic.placed_of_lone here rfl)).bind fun _ _ _ _ => .pure trivial

theorem lowerTypes_safe {types : List TypeExpr} (here : ∀ type ∈ types, P type.span.start) :
    Lower.Safe P (types.mapM lowerType) s fun _ _ => True := by
  induction types generalizing s with
  | nil => exact .pure trivial
  | cons type types ih =>
    rw [List.mapM_cons]
    refine (lowerType_safe (here type (by simp))).bind fun _ t _ _ => ?_
    refine (ih fun other h => here other (by simp [h])).bind fun _ _ _ _ => ?_
    exact .pure trivial

theorem expectResults_safe {span : Span} (here : P span.start) (results : List Name)
    (expected : Nat) (what : String) :
    Lower.Safe P (expectResults results span expected what) s fun _ _ => True := by
  unfold expectResults
  split
  · exact .pure trivial
  · exact (report_safe (Diagnostic.placed_of_lone here rfl)).bind fun _ _ _ _ => .pure trivial

theorem requireMemref_safe {v : ValueId} (known : v.index < s.region.values.size) {name : Name}
    (here : P name.span.start) (what : String) :
    Lower.Safe P (requireMemref v name what) s fun _ _ => True := by
  refine get_safe.bind ?_
  rintro _ _ - ⟨rfl, rfl⟩
  obtain ⟨value, hv⟩ := Region.value?_eq_some known
  rw [hv]
  simp only
  split
  · exact .pure trivial
  · exact (report_safe (Diagnostic.placed_of_lone here rfl)).bind fun _ _ _ _ => .pure trivial

theorem copyType_safe {v : ValueId} (known : v.index < s.region.values.size)
    {type : Option TypeExpr} (here : ∀ t ∈ type, P t.span.start) :
    Lower.Safe P (copyType v type) s fun _ _ => True := by
  cases type with
  | some type => exact lowerType_safe (here type rfl)
  | none =>
    refine get_safe.bind ?_
    rintro _ _ - ⟨rfl, rfl⟩
    obtain ⟨value, hv⟩ := Region.value?_eq_some known
    rw [hv]
    exact .pure trivial

/-- The node that a step has made is there. -/
def Makes (made : Option NodeId) (t : Lowering) : Prop :=
  ∀ n, made = some n → n.index < t.region.nodes.size

theorem finish_safe {results : List Name} (names : ∀ name ∈ results, P name.span.start)
    {span : Span} (here : P span.start) (kind : NodeKind) (operands : List ValueId)
    (types : List ValueType) :
    Lower.Safe P (finish results span kind operands types) s Makes := by
  have made := @Region.addNode_named s.region kind operands
    (List.zip (results.map Name.text) types) span
  rw [← zipWith_named] at made
  unfold finish
  refine (onRegion_safe (fun spanned => ?_) ?_ ?_).bind ?_
  · rw [made]
    exact spanned.extendWith here
  · rw [made, Region.nodes_extendWith]
    exact Nat.le_succ _
  · rw [made, Region.values_extendWith]
    exact Nat.le_add_right _ _
  rintro _ t grows ⟨rfl, region⟩
  rw [made] at region ⊢
  refine get_safe.bind ?_
  rintro _ t - ⟨rfl, rfl⟩
  refine (bindAll_safe names fun v hv => ?_).bind fun _ u grows _ => .pure ?_
  · simp only [region, Region.results, Region.node?_extendWith, if_true, Option.map_some,
      Option.getD_some] at hv
    obtain ⟨i, hi, rfl⟩ := List.mem_map.mp hv
    rw [region, Region.values_extendWith, namedResults, List.length_mapIdx]
    have := (List.mem_range'_1.mp hi).2
    simpa using this
  · rintro n ⟨⟩
    have here : s.region.nodes.size < t.region.nodes.size := by
      rw [region, Region.nodes_extendWith]
      exact Nat.lt_succ_self _
    exact lt_of_lt_of_le here grows.nodes

/-- The results of an operation are counted last. -/
theorem counted_safe {results : List Name} (names : ∀ name ∈ results, P name.span.start)
    {span : Span} (here : P span.start) (expected : Nat) (what : String) (kind : NodeKind)
    (operands : List ValueId) (types : List ValueType) :
    Lower.Safe P (do
      if !(← expectResults results span expected what) then return none
      finish results span kind operands types) s Makes :=
  (expectResults_safe here results expected what).bind fun _ _ _ _ =>
    .guard nofun (finish_safe names here kind operands types)

theorem lowerOp_safe {results : List Name} (names : ∀ name ∈ results, P name.span.start)
    {span : Span} (here : P span.start) {op : Op} (placed : op.Placed P) :
    Lower.Safe P (lowerOp results span op) s Makes := by
  cases op with
  | alloc stack type =>
    refine (lowerType_safe placed).bind fun found _ _ _ => ?_
    cases found with
    | none => exact .pure nofun
    | some t =>
      simp only
      split
      · exact (report_safe (Diagnostic.placed_of_lone here rfl)).bind fun _ _ _ _ => .pure nofun
      · exact counted_safe names here _ _ _ _ _
  | constant value type =>
    refine (lowerType_safe placed).bind fun found _ _ _ => ?_
    cases found with
    | none => exact .pure nofun
    | some t => exact counted_safe names here _ _ _ _ _
  | convert conversion operand type =>
    refine (lowerType_safe placed.2).bind fun type' _ _ _ =>
      (lookUp_safe placed.1).bind fun operand' _ _ _ => ?_
    cases type' with
    | none => exact .pure nofun
    | some t =>
    cases operand' with
    | none => exact .pure nofun
    | some v => exact counted_safe names here _ _ _ _ _
  | ret operands =>
    refine (lookUpAll_safe placed).bind fun values _ _ _ => ?_
    cases values with
    | none => exact .pure nofun
    | some vs => exact counted_safe names here _ _ _ _ _
  | compute name operands types =>
    refine (lookUpAll_safe placed.1).bind fun values _ _ _ =>
      (lowerTypes_safe placed.2).bind fun types' _ _ _ => ?_
    cases values with
    | none => exact .pure nofun
    | some vs =>
    cases types'.mapM id with
    | none => exact .pure nofun
    | some ts => exact counted_safe names here _ _ _ _ _
  | load memref type =>
    refine (lowerType_safe placed.2).bind fun type' _ _ _ =>
      (lookUp_safe placed.1).bind fun mem t _ known => ?_
    cases type' with
    | none => exact .pure nofun
    | some type' =>
    cases mem with
    | none => exact .pure nofun
    | some mem =>
      exact (requireMemref_safe (known mem rfl) placed.1 "load").bind fun _ _ _ _ =>
        .guard nofun (counted_safe names here _ _ _ _ _)
  | store value memref =>
    refine (lookUp_safe placed.1).bind fun v _ _ _ =>
      (lookUp_safe placed.2).bind fun mem t _ known => ?_
    cases v with
    | none => exact .pure nofun
    | some v =>
    cases mem with
    | none => exact .pure nofun
    | some mem =>
      exact (requireMemref_safe (known mem rfl) placed.2 "store").bind fun _ _ _ _ =>
        .guard nofun (counted_safe names here _ _ _ _ _)
  | copy operands type =>
    obtain ⟨named, typed⟩ := placed
    refine (lookUpAll_safe named).bind fun values t _ known => ?_
    cases values with
    | none => exact .pure nofun
    | some values =>
      simp only
      split
      next source target src dst =>
        have first : src.index < t.region.values.size := known _ rfl src (by simp)
        have second : dst.index < t.region.values.size := known _ rfl dst (by simp)
        refine (requireMemref_safe first (named source (by simp)) _).bind fun _ u grows _ => ?_
        have second : dst.index < u.region.values.size := lt_of_lt_of_le second grows.values
        exact (requireMemref_safe second (named target (by simp)) _).bind fun _ _ _ _ =>
          .guard nofun (counted_safe names here _ _ _ _ _)
      next source src =>
        have first : src.index < t.region.values.size := known _ rfl src (by simp)
        refine (copyType_safe first typed).bind fun found _ _ _ => ?_
        cases found with
        | none => exact .pure nofun
        | some type => exact counted_safe names here _ _ _ _ _
      next => exact .pure nofun

theorem applyAttrs_safe {n : NodeId} (known : n.index < s.region.nodes.size)
    {entries : List AttrEntry} (placed : ∀ e ∈ entries, P e.span.start) :
    Lower.Safe P (applyAttrs n entries) s fun _ _ => True := by
  induction entries generalizing s with
  | nil => exact .pure trivial
  | cons entry entries ih =>
    have later (t : Lowering) (grows : s.Grows t) := @ih t (lt_of_lt_of_le known grows.nodes)
      fun e he => placed e (by simp [he])
    have here : (Diagnostic.levelKind entry.span).Placed P :=
      Diagnostic.placed_of_lone (placed entry (by simp)) rfl
    unfold applyAttrs
    split
    · split
      · split
        · refine (onNode_safe known ?_).bind fun _ t grows _ => later t grows
          exact fun _ => rfl
        · exact (report_safe here).bind fun _ t grows _ => later t grows
      · exact (report_safe here).bind fun _ t grows _ => later t grows
    · refine (onNode_safe known ?_).bind fun _ t grows _ => later t grows
      exact fun _ => rfl

theorem enterLoop_safe {iv : Name} (named : P iv.span.start) {span : Span} (here : P span.start)
    (results : List Name) (lower upper : Int) :
    Lower.Safe P (enterLoop results iv lower upper span) s Makes := by
  refine (expectResults_safe here results 0 "loop").bind fun _ _ _ _ => .guard nofun ?_
  refine (checkNew_safe named).bind fun _ _ _ _ => .guard nofun ?_
  refine get_safe.bind ?_
  rintro _ t - ⟨rfl, rfl⟩
  have made := @Region.addLoop_named t.region iv.text lower upper span
  refine (onRegion_safe (fun spanned => ?_) ?_ ?_).bind ?_
  · rw [made]
    exact spanned.extendWith here
  · rw [made, Region.nodes_extendWith]
    exact Nat.le_succ _
  · rw [made, Region.values_extendWith]
    exact Nat.le_add_right _ _
  rintro _ u - ⟨rfl, region⟩
  rw [made] at region ⊢
  have node : t.region.nodes.size < u.region.nodes.size := by
    rw [region, Region.nodes_extendWith]
    exact Nat.lt_succ_self _
  have value : t.region.values.size < u.region.values.size := by
    rw [region, Region.values_extendWith]
    exact Nat.lt_succ_self _
  refine openScope_safe.bind fun _ v grows _ => ?_
  have value : t.region.values.size < v.region.values.size := lt_of_lt_of_le value grows.values
  refine (bind_safe named ?_).bind fun _ w grows' _ => .pure ?_
  · rintro _ ⟨⟩
    exact value
  · rintro _ ⟨⟩
    exact lt_of_lt_of_le node (grows.nodes.trans grows'.nodes)

mutual

theorem lowerBlock_safe {s : Lowering} {block : Option NodeId}
    (older : ∀ p, block = some p → p.index < s.region.nodes.size) :
    ∀ {stmts : List Stmt}, BlockPlaced P stmts →
      Lower.Safe P (lowerBlock block stmts) s fun _ _ => True
  | [], _ => by
    unfold lowerBlock
    exact .pure trivial
  | stmt :: stmts, ⟨first, others⟩ => by
    have later (t : Lowering) (grows : s.Grows t) : Lower.Safe P (lowerBlock block stmts) t _ :=
      lowerBlock_safe (fun p hp => lt_of_lt_of_le (older p hp) grows.nodes) others
    unfold lowerBlock
    refine (lowerStmt_safe first).bind fun made t grows known => ?_
    cases made with
    | none => exact later t grows
    | some n =>
      have older' : ∀ p, block = some p → p.index < t.region.nodes.size := fun p hp =>
        lt_of_lt_of_le (older p hp) grows.nodes
      exact (attach_safe older' (known n rfl)).bind fun _ u grows' _ => later u (grows.trans grows')

theorem lowerStmt_safe {s : Lowering} : ∀ {stmt : Stmt}, stmt.Placed P →
    Lower.Safe P (lowerStmt stmt) s Makes
  | .op results op attrs span, ⟨names, operands, entries, here⟩ => by
    have settle (made : Option NodeId) (t : Lowering) (known : Makes made t) :
        Lower.Safe P (do
          match made with
          | some n => applyAttrs n attrs
          | none => poison results
          return made) t Makes := by
      cases made with
      | none => exact (poison_safe names).bind fun _ _ _ _ => .pure nofun
      | some n =>
        refine (applyAttrs_safe (known n rfl) entries).bind fun _ u grows _ => .pure ?_
        rintro _ ⟨⟩
        exact lt_of_lt_of_le (known n rfl) grows.nodes
    unfold lowerStmt
    refine (checkAllNew_safe names).bind fun new t _ _ => ?_
    cases new with
    | true =>
      exact (lowerOp_safe names here operands).bind fun made u _ known => settle made u known
    | false => exact settle none t nofun
  | .loop results iv lower upper body attrs span, ⟨names, named, block, entries, here⟩ => by
    have settle (made : Option NodeId) (t : Lowering) (known : Makes made t) :
        Lower.Safe P (do
          match made with
          | some n =>
            lowerBlock (some n) body
            closeScope
            applyAttrs n attrs
          | none => poison results
          return made) t Makes := by
      cases made with
      | none => exact (poison_safe names).bind fun _ _ _ _ => .pure nofun
      | some n =>
        have older : ∀ p, some n = some p → p.index < t.region.nodes.size := by
          rintro _ ⟨⟩
          exact known n rfl
        refine (lowerBlock_safe older block).bind fun _ u first _ => ?_
        refine closeScope_safe.bind fun _ v second _ => ?_
        have known' : n.index < v.region.nodes.size :=
          lt_of_lt_of_le (known n rfl) (first.trans second).nodes
        refine (applyAttrs_safe known' entries).bind fun _ w third _ => .pure ?_
        rintro _ ⟨⟩
        exact lt_of_lt_of_le known' third.nodes
    unfold lowerStmt
    refine (checkAllNew_safe names).bind fun new t _ _ => ?_
    cases new with
    | true =>
      exact (enterLoop_safe named here results lower upper).bind fun made u _ known =>
        settle made u known
    | false => exact settle none t nofun

end

theorem lowerArgs_safe {args : List ArgDecl}
    (placed : ∀ arg ∈ args, P arg.name.span.start ∧ P arg.type.span.start) :
    Lower.Safe P (lowerArgs args) s fun _ _ => True := by
  induction args generalizing s with
  | nil => exact .pure trivial
  | cons arg args ih =>
    obtain ⟨named, typed⟩ := placed arg (by simp)
    have later (t : Lowering) := @ih t fun other h => placed other (by simp [h])
    unfold lowerArgs
    refine (lowerType_safe typed).bind fun type _ _ _ => ?_
    refine (checkNew_safe named).bind fun new t _ _ => ?_
    cases new with
    | false => exact later t
    | true =>
      cases type with
      | none => exact (bind_safe named (by simp)).bind fun _ u _ _ => later u
      | some type =>
        have values : (t.region.addArg arg.name.text type).2.values.size =
            t.region.values.size + 1 := by
          simp [Region.addArg, Region.addValue]
        refine (onRegion_safe (fun spanned => spanned.of_same rfl rfl) le_rfl ?_).bind ?_
        · rw [values]
          exact Nat.le_succ _
        rintro _ u - ⟨rfl, region⟩
        refine (bind_safe named ?_).bind fun _ v _ _ => later v
        rintro _ ⟨⟩
        rw [region, values]
        exact Nat.lt_succ_self _

theorem applyFuncAttrs_safe {entries : List AttrEntry} (placed : ∀ e ∈ entries, P e.span.start) :
    Lower.Safe P (applyFuncAttrs entries) s fun _ _ => True := by
  induction entries generalizing s with
  | nil => exact .pure trivial
  | cons entry entries ih =>
    have later (t : Lowering) := @ih t fun e he => placed e (by simp [he])
    have here : (Diagnostic.dataflowKind entry.span).Placed P :=
      Diagnostic.placed_of_lone (placed entry (by simp)) rfl
    unfold applyFuncAttrs
    split
    · split
      · exact (onRegion_safe (fun spanned => spanned.of_same rfl rfl) le_rfl le_rfl).bind
          fun _ t _ _ => later t
      · exact (report_safe here).bind fun _ t _ _ => later t
    · exact (onRegion_safe (fun spanned => spanned.of_same rfl rfl) le_rfl le_rfl).bind
        fun _ t _ _ => later t

end Lowering

section Functions

variable {P : Nat → Prop} {f : Func}

/-- The lowering of a function asks for nothing that is not there, and points to places of the
function only. -/
theorem Func.Placed.lowered (placed : f.Placed P) : f.lowered.Grounded P := by
  have start : (Lowering.start f).Grounded P := by
    refine ⟨by simp [Lowering.start], by simp [Lowering.start], by simp [Lowering.start],
      ⟨placed.span, fun n node hn => ?_⟩, rfl⟩
    simp [Lowering.start, Region.empty, Region.node?] at hn
  have safe : Lower.Safe P (Lowering.lowerFunc f) (.start f) fun _ _ => True := by
    refine (Lowering.lowerArgs_safe placed.args).bind fun _ _ _ _ => ?_
    refine (Lowering.applyFuncAttrs_safe placed.attrs).bind fun _ _ _ _ => ?_
    exact Lowering.lowerBlock_safe (by simp) placed.body
  exact (safe start).1

/-- What is wrong with the functions of a source text lies in the source text. -/
theorem lowerItems_placed {taken : List (String × Span)} {items : List Item}
    (placed : ∀ item ∈ items, item.Placed P) (before : ∀ entry ∈ taken, P entry.2.start) :
    ∀ d ∈ (lowerItems taken items).2, d.Placed P := by
  induction items generalizing taken with
  | nil => simp [lowerItems]
  | cons item items ih =>
    have others : ∀ item ∈ items, item.Placed P := fun item hi => placed item (by simp [hi])
    cases item with
    | setting s => exact ih others before
    | func f =>
      have func : f.Placed P := placed (.func f) (by simp)
      intro d hd
      unfold lowerItems at hd
      split at hd
      next previous found =>
        rcases List.mem_cons.mp hd with rfl | hd
        · obtain ⟨_, _, split, -⟩ := List.lookup_eq_some_iff.mp found
          refine ⟨func.name, fun place hp => ?_⟩
          rw [List.mem_singleton.mp hp]
          exact before (f.name.text, previous) (by simp [split])
        · exact ih others before d hd
      next =>
        rcases List.mem_append.mp hd with hd | hd
        · exact func.lowered.diagnostics d hd
        · refine ih others (fun entry he => ?_) d hd
          rcases List.mem_append.mp he with he | he
          · exact before entry he
          · rw [List.mem_singleton.mp he]
            exact func.name

theorem Program.diagnostics_placed (p : Program) (placed : ∀ item ∈ p.items, item.Placed P) :
    ∀ d ∈ p.options.2 ++ p.lower.2, d.Placed P := by
  intro d hd
  rcases List.mem_append.mp hd with hd | hd
  · exact Options.applyItems_placed placed _ d hd
  · exact lowerItems_placed placed (by simp) d hd

end Functions

section Loaded

variable {source : String}

/-- Whatever is wrong with a source text, it lies between two characters of it. -/
theorem load_errors_placed {ds : List Diagnostic} (h : load source = .error ds) :
    ∀ d ∈ ds, d.Placed (IsBoundary source.toList) := by
  simp only [load] at h
  split at h
  next program found _ =>
    split at h
    next =>
      cases h
      exact program.diagnostics_placed (parse_placed found)
    next => cases h
  next =>
    cases h
    intro d hd
    obtain ⟨e, he, rfl⟩ := List.mem_map.mp hd
    exact Diagnostic.placed_of_lone (parse_errors_placed e he) rfl

theorem load_warnings_placed {loaded : Loaded} (h : load source = .ok loaded) :
    ∀ d ∈ loaded.warnings, d.Placed (IsBoundary source.toList) := by
  simp only [load] at h
  split at h
  next program found _ =>
    split at h
    next => cases h
    next =>
      cases h
      exact program.diagnostics_placed (parse_placed found)
  next => cases h

theorem load_spanned {loaded : Loaded} (h : load source = .ok loaded) :
    ∀ r ∈ loaded.regions, r.Spanned (IsBoundary source.toList) := by
  intro r hr
  obtain ⟨program, f, found, hf, rfl⟩ := func_of_load h hr
  have placed : f.Placed (IsBoundary source.toList) := parse_placed found (.func f) hf
  exact placed.lowered.region

end Loaded

end Staging
