import Mathlib.Data.List.Nodup
import Staging.Proofs.WellFormed

namespace Staging

/-- New identifiers for the nodes and values of a region. -/
structure Renaming where
  node : NodeId → NodeId
  value : ValueId → ValueId

def Renaming.id : Renaming :=
  ⟨fun n => n, fun v => v⟩

/-- The values that a node defines, not counting those of nodes inside it. -/
def Region.defs (r : Region) (n : NodeId) : List ValueId :=
  r.ivs n ++ r.results n

/-- The nodes of a block and of the blocks in it, and their values, have in program order the
identifiers that come next. -/
inductive Region.Places (r : Region) (φ : Renaming) : IdSupply → List NodeId → IdSupply → Prop
  | nil {s : IdSupply} : Places r φ s [] s
  | cons {s inner s' : IdSupply} {n : NodeId} {ns : List NodeId} (node : φ.node n = ⟨s.nodes⟩)
      (values : (r.defs n).map φ.value =
        (List.range' s.values (r.defs n).length).map ValueId.mk)
      (inside : Places r φ ⟨s.nodes + 1, s.values + (r.defs n).length⟩ (r.bodyOf n) inner)
      (rest : Places r φ inner ns s') : Places r φ s (n :: ns) s'

section Places

variable {r t : Region} {φ : Renaming} {s s' s'' : IdSupply} {ns ms : List NodeId}

theorem Region.Places.mono (h : r.Places φ s ns s') :
    s.nodes ≤ s'.nodes ∧ s.values ≤ s'.values := by
  induction h with
  | nil => exact ⟨le_rfl, le_rfl⟩
  | cons _ _ _ _ ihInside ihRest =>
    obtain ⟨nodes, values⟩ := ihInside
    obtain ⟨nodes', values'⟩ := ihRest
    simp only at nodes values
    exact ⟨by omega, by omega⟩

theorem Region.places_append : r.Places φ s (ns ++ ms) s'' ↔
    ∃ s', r.Places φ s ns s' ∧ r.Places φ s' ms s'' := by
  constructor
  · intro h
    induction ns generalizing s with
    | nil => exact ⟨s, .nil, h⟩
    | cons n ns ih =>
      cases h with
      | cons node values inside rest =>
        obtain ⟨s', first, second⟩ := ih rest
        exact ⟨s', .cons node values inside first, second⟩
  · rintro ⟨s', first, second⟩
    induction first with
    | nil => exact second
    | cons node values inside _ _ ih => exact .cons node values inside (ih second)

/-- A block stays in its place where nothing in it changes. -/
theorem Region.Places.transfer (h : r.Places φ s ns s')
    (bodies : ∀ u ∈ ns, ∀ n, r.Within u n → t.bodyOf n = r.bodyOf n)
    (defs : ∀ u ∈ ns, ∀ n, r.Within u n → t.defs n = r.defs n) : t.Places φ s ns s' := by
  induction h with
  | nil => exact .nil
  | @cons s inner s' n ns node values _ _ ihInside ihRest =>
    have self := Within.refl r n
    have child : ∀ c ∈ r.bodyOf n, ∀ m, r.Within c m → r.Within n m :=
      fun c hc m hm => Relation.ReflTransGen.head hc hm
    have sameDefs := defs n (by simp) n self
    refine .cons node (sameDefs ▸ values) ?_ (ihRest (fun u hu => bodies u (by simp [hu]))
      fun u hu => defs u (by simp [hu]))
    rw [bodies n (by simp) n self, sameDefs]
    exact ihInside (fun c hc m hm => bodies n (by simp) m (child c hc m hm))
      fun c hc m hm => defs n (by simp) m (child c hc m hm)

/-- Between two supplies stand exactly the identifiers that were handed out. -/
theorem Region.Places.node_bounds (h : r.Places φ s ns s') {u n : NodeId} (hu : u ∈ ns)
    (hn : r.Within u n) : s.nodes ≤ (φ.node n).index ∧ (φ.node n).index < s'.nodes := by
  induction h generalizing u with
  | nil => simp at hu
  | @cons s inner s' m ns node values inside rest ihInside ihRest =>
    have inner := inside.mono.1
    have outer := rest.mono.1
    simp only at inner
    rcases List.mem_cons.mp hu with rfl | hu
    · rcases within_iff.mp hn with rfl | ⟨c, hc, hn⟩
      · rw [node]
        exact ⟨le_rfl, by simp only; omega⟩
      · have := ihInside hc hn
        simp only at this
        omega
    · have := ihRest hu hn
      omega

theorem Region.Places.value_bounds (h : r.Places φ s ns s') {u n : NodeId} {v : ValueId}
    (hu : u ∈ ns) (hn : r.Within u n) (hv : v ∈ r.defs n) :
    s.values ≤ (φ.value v).index ∧ (φ.value v).index < s'.values := by
  induction h generalizing u with
  | nil => simp at hu
  | @cons s inner s' m ns node values inside rest ihInside ihRest =>
    have inner := inside.mono.2
    have outer := rest.mono.2
    simp only at inner
    rcases List.mem_cons.mp hu with rfl | hu
    · rcases within_iff.mp hn with rfl | ⟨c, hc, hn⟩
      · have mem : φ.value v ∈ (r.defs n).map φ.value := List.mem_map_of_mem hv
        rw [values] at mem
        obtain ⟨i, hi, he⟩ := List.mem_map.mp mem
        have := List.mem_range'_1.mp hi
        rw [← he]
        simp only
        omega
      · have := ihInside hc hn
        simp only at this
        omega
    · have := ihRest hu hn
      omega

theorem Region.Places.node_surj (h : r.Places φ s ns s') {i : Nat} (low : s.nodes ≤ i)
    (high : i < s'.nodes) : ∃ u ∈ ns, ∃ n, r.Within u n ∧ φ.node n = ⟨i⟩ := by
  induction h with
  | nil => omega
  | @cons s inner s' m ns node values inside rest ihInside ihRest =>
    by_cases here : i = s.nodes
    · subst here
      exact ⟨m, by simp, m, Within.refl r m, node⟩
    · by_cases inward : i < inner.nodes
      · obtain ⟨c, hc, n, hn, he⟩ := ihInside (by simp only; omega) inward
        exact ⟨m, by simp, n, Relation.ReflTransGen.head hc hn, he⟩
      · obtain ⟨u, hu, n, hn, he⟩ := ihRest (by omega) high
        exact ⟨u, by simp [hu], n, hn, he⟩

theorem Region.Places.value_surj (h : r.Places φ s ns s') {i : Nat} (low : s.values ≤ i)
    (high : i < s'.values) :
    ∃ u ∈ ns, ∃ n, r.Within u n ∧ ∃ v ∈ r.defs n, φ.value v = ⟨i⟩ := by
  induction h with
  | nil => omega
  | @cons s inner s' m ns node values inside rest ihInside ihRest =>
    by_cases here : i < s.values + (r.defs m).length
    · have mem : (⟨i⟩ : ValueId) ∈ (r.defs m).map φ.value := by
        rw [values]
        exact List.mem_map_of_mem (List.mem_range'_1.mpr ⟨low, here⟩)
      obtain ⟨v, hv, he⟩ := List.mem_map.mp mem
      exact ⟨m, by simp, m, Within.refl r m, v, hv, he⟩
    · by_cases inward : i < inner.values
      · obtain ⟨c, hc, n, hn, he⟩ := ihInside (by simp only; omega) inward
        exact ⟨m, by simp, n, Relation.ReflTransGen.head hc hn, he⟩
      · obtain ⟨u, hu, n, hn, he⟩ := ihRest (by omega) high
        exact ⟨u, by simp [hu], n, hn, he⟩

end Places

section Order

variable {r : Region} {block : Option NodeId} {ns : List NodeId}

/-- A node is nested in one node of a block only. -/
theorem Region.Nested.sibling_unique (nested : r.Nested) {t u n : NodeId}
    (ht : r.parent? t = block) (hu : r.parent? u = block)
    (deeper : ∀ p, block = some p → p.index < t.index ∧ p.index < u.index)
    (h : r.Within t n) (h' : r.Within u n) : t = u := by
  have unique : Relator.RightUnique (Function.swap r.Child) := fun c p q hp hq =>
    Option.some.inj ((nested.childParent p c hp).symm.trans (nested.childParent q c hq))
  have up := Relation.ReflTransGen.total_of_right_unique unique
    (Relation.reflTransGen_swap.mpr h) (Relation.reflTransGen_swap.mpr h')
  have same {x y : NodeId} (hx : r.parent? x = block) (hy : r.parent? y = block)
      (deeper : ∀ p, block = some p → p.index < x.index) (h : r.Within x y) : x = y := by
    rcases Relation.ReflTransGen.cases_tail h with he | ⟨p, hp, hc⟩
    · exact he.symm
    · have parent := nested.childParent p y hc
      have low := nested.index_le hp
      have := deeper p (by rw [← hy, parent])
      omega
  rcases up with up | up
  · exact (same hu ht (fun p hp => (deeper p hp).2) (Relation.reflTransGen_swap.mp up)).symm
  · exact same ht hu (fun p hp => (deeper p hp).1) (Relation.reflTransGen_swap.mp up)

/-- The nodes of a block stand side by side, outside of each other. -/
def Region.Block (r : Region) (block : Option NodeId) (ns : List NodeId) : Prop :=
  ns.Nodup ∧ ∀ n ∈ ns, n.index < r.nodes.size ∧ r.parent? n = block ∧
    ∀ p, block = some p → p.index < n.index

theorem Region.Nested.body_block (nested : r.Nested) : r.Block none r.body :=
  ⟨nested.bodyNodup, fun n hn => ⟨nested.bodyKnown n hn, nested.bodyParent n hn, by simp⟩⟩

theorem Region.Nested.child_block (nested : r.Nested) (n : NodeId) :
    r.Block (some n) (r.bodyOf n) :=
  ⟨nested.childNodup n, fun c hc => ⟨nested.childKnown n c hc, nested.childParent n c hc,
    fun _ hp => Option.some.inj hp ▸ nested.childDeeper n c hc⟩⟩

/-- The values that a node defines tell the node. -/
theorem Region.Coherent.defs_unique (coherent : r.Coherent) {m n : NodeId} {v : ValueId}
    (hm : v ∈ r.defs m) (hn : v ∈ r.defs n) : m = n := by
  have result {k : NodeId} (h : v ∈ r.results k) : ∃ i, r.definition? v = some (.result k i) := by
    obtain ⟨i, hi, he⟩ := List.mem_iff_getElem.mp h
    exact ⟨i, coherent.resultDefined k i v (by rw [List.getElem?_eq_getElem hi, he])⟩
  have origin {k : NodeId} (h : v ∈ r.defs k) :
      (r.definition? v).bind Definition.node? = some k := by
    rcases List.mem_append.mp h with iv | result'
    · rw [coherent.ivDefined k v iv]
      rfl
    · obtain ⟨i, hi⟩ := result result'
      rw [hi]
      rfl
  exact Option.some.inj ((origin hm).symm.trans (origin hn))

theorem Region.Coherent.defs_nodup (coherent : r.Coherent) (n : NodeId) : (r.defs n).Nodup := by
  refine List.nodup_append'.mpr ⟨?_, ?_, ?_⟩
  · unfold Region.ivs
    cases (r.kind? n).bind NodeKind.inductionVar? <;> simp
  · refine List.nodup_iff_getElem?_ne_getElem?.mpr fun i j hij hj same => ?_
    have hi : i < (r.results n).length := by omega
    have first := coherent.resultDefined n i _ (List.getElem?_eq_getElem hi)
    have second := coherent.resultDefined n j _ (List.getElem?_eq_getElem hj)
    rw [List.getElem?_eq_getElem hi, List.getElem?_eq_getElem hj] at same
    rw [Option.some.inj same, second] at first
    cases first
    exact absurd hij (lt_irrefl _)
  · intro v iv result
    obtain ⟨i, hi, he⟩ := List.mem_iff_getElem.mp result
    have first := coherent.ivDefined n v iv
    rw [coherent.resultDefined n i v (by rw [List.getElem?_eq_getElem hi, he])] at first
    cases first

/-- No node is met twice on a walk through a block. -/
theorem Region.Nested.walks_nodup (nested : r.Nested) (depth : Nat) (h : r.Block block ns)
    (deep : ∀ n ∈ ns, r.nodes.size ≤ n.index + depth) :
    (ns.flatMap (r.walkWithin depth)).Nodup := by
  induction depth generalizing block ns with
  | zero =>
    cases ns with
    | nil => simp
    | cons n ns =>
      have low := (h.2 n (by simp)).1
      have high := deep n (by simp)
      omega
  | succ depth ih =>
    obtain ⟨nodup, inside⟩ := h
    have walk {n m : NodeId} (hn : n ∈ ns) : m ∈ r.walkWithin (depth + 1) n ↔ r.Within n m :=
      nested.mem_walkWithin (inside n hn).1 (deep n hn)
    refine List.nodup_flatMap.mpr ⟨fun n hn => ?_, ?_⟩
    · have below : ∀ c ∈ r.bodyOf n, r.nodes.size ≤ c.index + depth := fun c hc => by
        have := nested.childDeeper n c hc
        have := deep n hn
        omega
      refine List.nodup_cons.mpr ⟨fun self => ?_, ih (nested.child_block n) below⟩
      obtain ⟨c, hc, hm⟩ := List.mem_flatMap.mp self
      have hm := (nested.mem_walkWithin (nested.childKnown n c hc) (below c hc)).mp hm
      have low := nested.index_le hm
      have := nested.childDeeper n c hc
      omega
    · refine nodup.imp_of_mem fun {t u} ht hu ne => ?_
      intro m hm hm'
      exact ne (nested.sibling_unique (inside t ht).2.1 (inside u hu).2.1
        (fun p hp => ⟨(inside t ht).2.2 p hp, (inside u hu).2.2 p hp⟩) ((walk ht).mp hm)
        ((walk hu).mp hm'))

/-- The number of each node and value in program order. -/
def Renaming.ofOrder (nodes : List NodeId) (values : List ValueId) : Renaming :=
  ⟨fun n => ⟨nodes.idxOf n⟩, fun v => ⟨values.idxOf v⟩⟩

theorem map_idxOf_of_append {α β : Type} [DecidableEq α] (make : Nat → β) {before xs behind : List α}
    (nodup : (before ++ (xs ++ behind)).Nodup) :
    (xs.map fun x => make ((before ++ (xs ++ behind)).idxOf x)) =
      (List.range' before.length xs.length).map make := by
  refine List.ext_getElem (by simp) fun i hi _ => ?_
  have low : i < xs.length := by simpa using hi
  have place : (before ++ (xs ++ behind))[before.length + i]? = some xs[i] := by
    rw [List.getElem?_append_right (by omega)]
    simp [List.getElem?_append_left, low]
  obtain ⟨bound, he⟩ := List.getElem?_eq_some_iff.mp place
  have index := nodup.idxOf_getElem (before.length + i) bound
  rw [he] at index
  simp [index]

/-- Along the walk through a block, nodes and values are numbered in program order. -/
theorem Region.Nested.places_ofOrder (nested : r.Nested) {nodes : List NodeId}
    {values : List ValueId} (nodupNodes : nodes.Nodup) (nodupValues : values.Nodup) (depth : Nat)
    (inside : ∀ n ∈ ns, n.index < r.nodes.size)
    (deep : ∀ n ∈ ns, r.nodes.size ≤ n.index + depth) {before behind : List NodeId}
    {known later : List ValueId}
    (hn : nodes = before ++ (ns.flatMap (r.walkWithin depth) ++ behind))
    (hv : values = known ++ ((ns.flatMap (r.walkWithin depth)).flatMap r.defs ++ later)) :
    r.Places (.ofOrder nodes values) ⟨before.length, known.length⟩ ns
      ⟨before.length + (ns.flatMap (r.walkWithin depth)).length,
        known.length + ((ns.flatMap (r.walkWithin depth)).flatMap r.defs).length⟩ := by
  induction depth generalizing ns before behind known later with
  | zero =>
    cases ns with
    | nil => exact .nil
    | cons n ns =>
      have low := inside n (by simp)
      have high := deep n (by simp)
      omega
  | succ depth ih =>
    induction ns generalizing before known with
    | nil => exact .nil
    | cons n ns ihRest =>
      let inner := (r.bodyOf n).flatMap (r.walkWithin depth)
      let rest := ns.flatMap (r.walkWithin (depth + 1))
      have walk : (n :: ns).flatMap (r.walkWithin (depth + 1)) = n :: (inner ++ rest) := by
        simp [walkWithin, inner, rest]
      rw [walk] at hn hv ⊢
      have node : (Renaming.ofOrder nodes values).node n = ⟨before.length⟩ := by
        have place := @map_idxOf_of_append _ _ _ NodeId.mk before [n] (inner ++ rest ++ behind)
          (by simpa [hn] using nodupNodes)
        simpa [Renaming.ofOrder, hn] using place
      have placed : (r.defs n).map (Renaming.ofOrder nodes values).value =
          (List.range' known.length (r.defs n).length).map ValueId.mk := by
        have place := @map_idxOf_of_append _ _ _ ValueId.mk known (r.defs n)
          ((inner ++ rest).flatMap r.defs ++ later) (by simpa [hv] using nodupValues)
        simpa [Renaming.ofOrder, hv] using place
      have below : ∀ c ∈ r.bodyOf n, r.nodes.size ≤ c.index + depth := fun c hc => by
        have := nested.childDeeper n c hc
        have := deep n (by simp)
        omega
      have first := @ih (r.bodyOf n) (nested.childKnown n) below (before ++ [n]) (rest ++ behind)
        (known ++ r.defs n) (rest.flatMap r.defs ++ later) (by simp [hn, inner]) (by simp [hv, inner])
      have second := @ihRest (fun m hm => inside m (by simp [hm])) (fun m hm => deep m (by simp [hm]))
        (before ++ n :: inner) (known ++ (r.defs n ++ inner.flatMap r.defs))
        (by simp [hn, rest]) (by simp [hv, rest])
      let mid : IdSupply := ⟨before.length + (inner.length + 1),
        known.length + ((r.defs n).length + (inner.flatMap r.defs).length)⟩
      refine @Places.cons r _ _ mid _ n ns node placed ?_ ?_
      · simpa [mid, inner, Nat.add_assoc, Nat.add_comm, Nat.add_left_comm] using first
      · simpa [mid, rest, Nat.add_assoc, Nat.add_comm, Nat.add_left_comm] using second

theorem Region.WellFormed.args_nodup (wf : r.WellFormed) : r.args.Nodup := by
  refine List.nodup_iff_getElem?_ne_getElem?.mpr fun i j hij hj same => ?_
  have hi : i < r.args.length := by omega
  have first := wf.argDefined i _ (List.getElem?_eq_getElem hi)
  have second := wf.argDefined j _ (List.getElem?_eq_getElem hj)
  rw [List.getElem?_eq_getElem hi, List.getElem?_eq_getElem hj] at same
  rw [Option.some.inj same, second] at first
  cases first
  exact absurd hij (lt_irrefl _)

theorem Region.WellFormed.arg_not_def (wf : r.WellFormed) {v : ValueId} (hv : v ∈ r.args)
    (n : NodeId) : v ∉ r.defs n := by
  intro hd
  obtain ⟨i, hi⟩ := wf.sound.arg_defined hv
  rcases List.mem_append.mp hd with iv | result
  · simp [wf.ivDefined n v iv] at hi
  · obtain ⟨j, hj⟩ := wf.sound.result_defined result
    simp [hj] at hi

/-- Nodes and values can be numbered in program order, arguments before all others. -/
theorem Region.WellFormed.exists_places (wf : r.WellFormed) : ∃ φ s,
    r.args.map φ.value = (List.range' 0 r.args.length).map ValueId.mk ∧
      r.Places φ ⟨0, r.args.length⟩ r.body s := by
  let nodes := r.body.flatMap (r.walkWithin r.nodes.size)
  have nodup : nodes.Nodup :=
    wf.walks_nodup r.nodes.size wf.body_block fun n _ => Nat.le_add_left _ _
  have defs : (nodes.flatMap r.defs).Nodup := by
    refine List.nodup_flatMap.mpr ⟨fun n _ => wf.defs_nodup n, nodup.imp fun {m n} ne v hm hn => ?_⟩
    exact ne (wf.defs_unique hm hn)
  have values : (r.args ++ nodes.flatMap r.defs).Nodup := by
    refine List.nodup_append'.mpr ⟨wf.args_nodup, defs, fun v hv hd => ?_⟩
    obtain ⟨n, -, hn⟩ := List.mem_flatMap.mp hd
    exact wf.arg_not_def hv n hn
  have first := @map_idxOf_of_append _ _ _ ValueId.mk [] r.args (nodes.flatMap r.defs) values
  have placed := @Nested.places_ofOrder r r.body wf.toNested nodes (r.args ++ nodes.flatMap r.defs)
    nodup values r.nodes.size wf.bodyKnown (fun n _ => Nat.le_add_left _ _) [] [] r.args []
    (by simp [nodes]) (by simp [nodes])
  exact ⟨_, _, first, placed⟩

/-- The nodes and values of a region are numbered in program order, and it has no others. -/
structure Region.Numbered (r : Region) : Prop where
  args : r.args = (List.range' 0 r.args.length).map ValueId.mk
  body : r.Places .id ⟨0, r.args.length⟩ r.body ⟨r.nodes.size, r.values.size⟩

end Order

end Staging
