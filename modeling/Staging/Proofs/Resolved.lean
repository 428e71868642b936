import Staging.Proofs.Carrying
import Staging.Proofs.Lowered

namespace Staging

/-- `m` stands in front of `n`, or of a node around it, in one of the blocks that `n` is in. -/
def Region.Precedes (r : Region) (m n : NodeId) : Prop :=
  ∃ p block t, r.block? p = some block ∧ Before block m t ∧ r.Within t n

/-- What the region of every function keeps to, whatever is wrong with the function. -/
structure Region.Resolved (r : Region) : Prop where
  /-- Every node stands in the arena at its number, and numbers follow program order. -/
  nodeOrder : r.attached = (List.range r.nodes.size).map NodeId.mk
  /-- So do values: the arguments come first, each other value with the node that defines it. -/
  valueOrder : r.args ++ r.attached.flatMap r.defs = (List.range r.values.size).map ValueId.mk
  /-- Calls build the region, and each node and value gets the identifier that is drawn for it. The
  identifiers come in program order as they are drawn, and say where nodes and values are held. -/
  drawn : ∃ w : Staging.Numbered, w.Built ∧ w.region = r ∧ w.Numbers ∧ w.nodes = r.attached ∧
    w.values = r.args ++ r.attached.flatMap r.defs
  /-- Every node is in one block once, and its parent names the block. -/
  block : ∀ n, n.index < r.nodes.size →
    (∃ block, r.block? (r.parent? n) = some block ∧ block.count n = 1) ∧
      ∀ p block, r.block? p = some block → n ∈ block → p = r.parent? n
  argDefined : ∀ i v, r.args[i]? = some v ↔ r.definition? v = some (.arg i)
  resultDefined : ∀ n i v, (r.results n)[i]? = some v ↔ r.definition? v = some (.result n i)
  ivDefined : ∀ n v, v ∈ r.ivs n ↔ r.definition? v = some (.inductionVar n)
  operands : ∀ n, ∀ v ∈ r.operands n, v ∈ r.args ∨ (∃ m, r.Precedes m n ∧ v ∈ r.results m) ∨
    ∃ l, l ≠ n ∧ r.Within l n ∧ v ∈ r.ivs l
  alloc : ∀ n stack, r.kind? n = some (.alloc stack) →
    ∃ v, r.results n = [v] ∧ r.isMemref v = true
  constant : ∀ n value, r.kind? n = some (.constant value) → ∃ v, r.results n = [v]
  convert : ∀ n conversion, r.kind? n = some (.convert conversion) → ∃ v, r.results n = [v]
  ret : ∀ n, r.kind? n = some .ret → r.results n = []
  load : ∀ n, r.kind? n = some .load →
    ∃ mem v, r.operands n = [mem] ∧ r.isMemref mem = true ∧ r.results n = [v]
  store : ∀ n, r.kind? n = some .store →
    ∃ v mem, r.operands n = [v, mem] ∧ r.isMemref mem = true ∧ r.results n = []
  copy : ∀ n, r.kind? n = some .copy →
    (∃ src dst, r.operands n = [src, dst] ∧ r.isMemref src = true ∧ r.isMemref dst = true ∧
      r.results n = []) ∨ ∃ src v, r.operands n = [src] ∧ r.results n = [v]
  loop : ∀ n iv lower upper body, r.kind? n = some (.loop iv lower upper body) → r.results n = []

section Resolved

variable {r : Region} {s s' : IdSupply} {ns : List NodeId}

theorem map_range'_append {α : Type} (make : Nat → α) {a b c : Nat} (low : a ≤ b) (high : b ≤ c) :
    (List.range' a (c - a)).map make =
      (List.range' a (b - a)).map make ++ (List.range' b (c - b)).map make := by
  rw [← List.map_append]
  have split := @List.range'_append_1 a (b - a) (c - b)
  rw [show a + (b - a) = b by omega, show b - a + (c - b) = c - a by omega] at split
  rw [split]

/-- Nodes and values that are numbered as they are met are met in the order of their numbers. -/
theorem Region.Places.walks (h : r.Places .id s ns s') (nested : r.Nested) {depth : Nat}
    (known : ∀ n ∈ ns, n.index < r.nodes.size) (deep : ∀ n ∈ ns, r.nodes.size ≤ n.index + depth) :
    ns.flatMap (r.walkWithin depth) = (List.range' s.nodes (s'.nodes - s.nodes)).map NodeId.mk ∧
      (ns.flatMap (r.walkWithin depth)).flatMap r.defs =
        (List.range' s.values (s'.values - s.values)).map ValueId.mk := by
  induction h generalizing depth with
  | nil => simp
  | @cons s inner s' n ns node values inside rest ihInside ihRest =>
    have low := known n (by simp)
    have high := deep n (by simp)
    obtain ⟨depth, rfl⟩ : ∃ d, depth = d + 1 := ⟨depth - 1, by omega⟩
    obtain ⟨innerNodes, innerValues⟩ := @ihInside depth (nested.childKnown n) fun c hc => by
      have := nested.childDeeper n c hc
      omega
    obtain ⟨restNodes, restValues⟩ := ihRest (fun m hm => known m (by simp [hm]))
      fun m hm => deep m (by simp [hm])
    have grown := inside.mono
    have grown' := rest.mono
    simp only at grown innerNodes innerValues
    have first : n = ⟨s.nodes⟩ := node
    have defs : r.defs n = (List.range' s.values (r.defs n).length).map ValueId.mk :=
      (List.map_id _).symm.trans values
    have walk : (n :: ns).flatMap (r.walkWithin (depth + 1)) = n ::
        ((r.bodyOf n).flatMap (r.walkWithin depth) ++ ns.flatMap (r.walkWithin (depth + 1))) := by
      simp [walkWithin]
    rw [walk]
    constructor
    · rw [innerNodes, restNodes, ← map_range'_append NodeId.mk grown.1 grown'.1]
      have split := @map_range'_append _ NodeId.mk s.nodes (s.nodes + 1) s'.nodes (by omega) (by omega)
      rw [split, first]
      simp
    · rw [List.flatMap_cons, List.flatMap_append, innerValues, restValues,
        ← map_range'_append ValueId.mk grown.2 grown'.2, defs]
      have split := @map_range'_append _ ValueId.mk s.values (s.values + (r.defs n).length) s'.values
        (by omega) (by omega)
      rw [split]
      simp

theorem Region.block?_of_child {t c : NodeId} (h : r.Child t c) :
    r.block? (some t) = some (r.bodyOf t) := by
  unfold Child bodyOf at h
  cases hk : r.kind? t with
  | none => simp [hk] at h
  | some kind => simp [block?, bodyOf, hk]

/-- An operand in a block is visible at its start, a result of a node in front, or the induction
variable of a loop around it. -/
theorem Region.Scoped.operand_cases {visible : List ValueId} (h : r.Scoped visible ns)
    (nested : r.Nested) {p : Option NodeId} {earlier : List NodeId}
    (block : r.block? p = some (earlier ++ ns)) {t n : NodeId} (ht : t ∈ ns) (hn : r.Within t n)
    {v : ValueId} (hv : v ∈ r.operands n) :
    v ∈ visible ∨ (∃ m, r.Precedes m n ∧ v ∈ r.results m) ∨
      ∃ l, l ≠ n ∧ r.Within l n ∧ v ∈ r.ivs l := by
  induction h generalizing p earlier t with
  | nil => simp at ht
  | @cons visible m ns used _ _ ihInside ihRest =>
    rcases List.mem_cons.mp ht with rfl | ht
    · rcases within_iff.mp hn with rfl | ⟨c, hc, below⟩
      · exact Or.inl (used v hv)
      · rcases @ihInside (some t) [] (block?_of_child hc) c hc below with shown | found
        · rcases List.mem_append.mp shown with iv | shown
          · refine Or.inr (Or.inr ⟨t, ?_, hn, iv⟩)
            rintro rfl
            have := nested.childDeeper t c hc
            have := nested.index_le below
            omega
          · exact Or.inl shown
        · exact Or.inr found
    · rcases @ihRest p (earlier ++ [m]) (by simpa using block) t ht hn with shown | found
      · rcases List.mem_append.mp shown with result | shown
        · refine Or.inr (Or.inl ⟨m, ⟨p, _, t, block, ?_, hn⟩, result⟩)
          exact before_iff_append.mpr ⟨earlier, ns, rfl, ht⟩
        · exact Or.inl shown
      · exact Or.inr found

theorem Region.Coherent.fits_kind (coherent : r.Coherent) {n : NodeId} {kind : NodeKind}
    (h : r.kind? n = some kind) : kind.Fits (r.operands n).length (r.results n).length := by
  obtain ⟨node, hn, rfl⟩ := Option.map_eq_some_iff.mp h
  simpa [Region.operands, Region.results, hn] using coherent.fits n node hn

theorem Region.Numbered.nodeOrder (numbered : r.Numbered) (nested : r.Nested) :
    r.attached = (List.range r.nodes.size).map NodeId.mk := by
  rw [List.range_eq_range']
  exact (numbered.body.walks nested nested.bodyKnown fun _ _ => Nat.le_add_left _ _).1

theorem Region.Numbered.valueOrder (numbered : r.Numbered) (nested : r.Nested) :
    r.args ++ r.attached.flatMap r.defs = (List.range r.values.size).map ValueId.mk := by
  have rest := (numbered.body.walks nested nested.bodyKnown fun _ _ => Nat.le_add_left _ _).2
  have split := @map_range'_append _ ValueId.mk 0 r.args.length r.values.size (by omega)
    numbered.body.mono.2
  rw [List.range_eq_range', ← Nat.sub_zero r.values.size, split, Nat.sub_zero, ← numbered.args]
  exact congrArg (r.args ++ ·) rest

/-- Every value is an argument or defined by a node. -/
theorem Region.Numbered.value_cases (numbered : r.Numbered) (nested : r.Nested) {v : ValueId}
    (known : v.index < r.values.size) : v ∈ r.args ∨ ∃ n, v ∈ r.ivs n ∨ v ∈ r.results n := by
  have mem : v ∈ r.args ++ r.attached.flatMap r.defs := by
    rw [numbered.valueOrder nested]
    exact List.mem_map.mpr ⟨v.index, List.mem_range.mpr known, rfl⟩
  refine (List.mem_append.mp mem).imp_right fun hv => ?_
  obtain ⟨n, -, hn⟩ := List.mem_flatMap.mp hv
  exact ⟨n, List.mem_append.mp hn⟩

/-- Every node is in the block that its parent names, and in no other. -/
theorem Region.Numbered.block (numbered : r.Numbered) (nested : r.Nested) {n : NodeId}
    (known : n.index < r.nodes.size) :
    (∃ block, r.block? (r.parent? n) = some block ∧ block.count n = 1) ∧
      ∀ p block, r.block? p = some block → n ∈ block → p = r.parent? n := by
  constructor
  · obtain ⟨t, ht, m, hm, same⟩ := numbered.body.node_surj (Nat.zero_le _) known
    obtain rfl : m = n := same
    rcases Relation.ReflTransGen.cases_tail hm with rfl | ⟨p, -, hc⟩
    · rw [nested.bodyParent m ht]
      exact ⟨r.body, rfl, List.count_eq_one_of_mem nested.bodyNodup ht⟩
    · rw [nested.childParent p m hc]
      exact ⟨_, block?_of_child hc, List.count_eq_one_of_mem (nested.childNodup p) hc⟩
  · rintro (_ | p) block hb hn
    · obtain rfl : r.body = block := Option.some.inj hb
      exact (nested.bodyParent n hn).symm
    · have child : r.Child p n := by
        simp only [block?] at hb
        simpa [Child, bodyOf, hb] using hn
      exact (nested.childParent p n child).symm

/-- The record of a value points to the place where it is defined. -/
theorem Region.WellFormed.defined_iff (wf : r.WellFormed) (numbered : r.Numbered) (v : ValueId) :
    (∀ i, r.args[i]? = some v ↔ r.definition? v = some (.arg i)) ∧
      (∀ n i, (r.results n)[i]? = some v ↔ r.definition? v = some (.result n i)) ∧
      ∀ n, v ∈ r.ivs n ↔ r.definition? v = some (.inductionVar n) := by
  have back {d : Definition} (h : r.definition? v = some d) :
      (∃ i, r.args[i]? = some v ∧ d = .arg i) ∨
        (∃ n i, (r.results n)[i]? = some v ∧ d = .result n i) ∨
        ∃ n, v ∈ r.ivs n ∧ d = .inductionVar n := by
    have place {vs : List ValueId} (hv : v ∈ vs) : ∃ i, vs[i]? = some v := List.mem_iff_getElem?.mp hv
    rcases numbered.value_cases wf.toNested (known_of_definition? h) with arg | ⟨n, iv | result⟩
    · obtain ⟨i, hi⟩ := place arg
      exact Or.inl ⟨i, hi, Option.some.inj (h.symm.trans (wf.argDefined i v hi))⟩
    · exact Or.inr (Or.inr ⟨n, iv, Option.some.inj (h.symm.trans (wf.ivDefined n v iv))⟩)
    · obtain ⟨i, hi⟩ := place result
      exact Or.inr (Or.inl ⟨n, i, hi, Option.some.inj (h.symm.trans (wf.resultDefined n i v hi))⟩)
  refine ⟨fun i => ⟨wf.argDefined i v, fun h => ?_⟩, fun n i => ⟨wf.resultDefined n i v, fun h => ?_⟩,
    fun n => ⟨wf.ivDefined n v, fun h => ?_⟩⟩
  all_goals rcases back h with ⟨j, found, same⟩ | ⟨m, j, found, same⟩ | ⟨m, found, same⟩
  all_goals first | cases same; exact found | cases same

/-- The identifiers that are drawn while a region is made are those of its nodes and values in program
order, if these are numbered as they stand. -/
theorem Region.Numbered.drawn (numbered : r.Numbered) (nested : r.Nested) (drawn : r.Drawn) :
    ∃ w : Staging.Numbered, w.Built ∧ w.region = r ∧ w.Numbers ∧ w.nodes = r.attached ∧
      w.values = r.args ++ r.attached.flatMap r.defs := by
  obtain ⟨w, built, rfl⟩ := drawn
  exact ⟨w, built, rfl, built.numbers, built.numbers.nodes.trans (numbered.nodeOrder nested).symm,
    built.numbers.values.trans (numbered.valueOrder nested).symm⟩

/-- A region that is lawful while calls make it, scoped and numbered in the end is in order. -/
theorem Region.Lawful.resolved (lawful : r.Lawful) (inScope : r.Scoped r.args r.body)
    (numbered : r.Numbered) (drawn : r.Drawn) : r.Resolved := by
  have wf : r.WellFormed := ⟨lawful.toCoherent, inScope⟩
  have one {vs : List ValueId} (h : vs.length = 1) : ∃ v, vs = [v] := List.length_eq_one_iff.mp h
  have empty {vs : List ValueId} (h : vs.length = 0) : vs = [] := List.length_eq_zero_iff.mp h
  refine ⟨numbered.nodeOrder lawful.toNested, numbered.valueOrder lawful.toNested,
    numbered.drawn lawful.toNested drawn, fun n known => numbered.block lawful.toNested known, fun i v => (wf.defined_iff numbered v).1 i,
    fun n i v => (wf.defined_iff numbered v).2.1 n i, fun n v => (wf.defined_iff numbered v).2.2 n,
    ?operands, ?alloc, ?constant, ?convert, ?ret, ?load, ?store, ?copy, ?loop⟩
  case operands =>
    intro n v hv
    have known : n.index < r.nodes.size := by
      by_contra high
      simp [Region.operands, node?_eq_none (Nat.le_of_not_lt high)] at hv
    obtain ⟨t, ht, m, hm, same⟩ := numbered.body.node_surj (Nat.zero_le _) known
    obtain rfl : m = n := same
    exact @Scoped.operand_cases r r.body r.args inScope lawful.toNested none [] rfl t m ht hm v hv
  case alloc =>
    intro n stack hk
    obtain ⟨v, hv⟩ := one (lawful.fits_kind hk).2
    exact ⟨v, hv, lawful.allocated n stack hk v (by simp [hv])⟩
  case constant => exact fun n _ hk => one (lawful.fits_kind hk).2
  case convert => exact fun n _ hk => one (lawful.fits_kind hk).2
  case ret => exact fun n hk => empty (lawful.fits_kind hk)
  case load =>
    intro n hk
    obtain ⟨mem, hmem⟩ := one (lawful.fits_kind hk).1
    obtain ⟨v, hv⟩ := one (lawful.fits_kind hk).2
    exact ⟨mem, v, hmem, lawful.buffers n mem .read (by simp [touched, hk, hmem]), hv⟩
  case store =>
    intro n hk
    obtain ⟨v, mem, hv⟩ := List.length_eq_two.mp (lawful.fits_kind hk).1
    exact ⟨v, mem, hv, lawful.buffers n mem .write (by simp [touched, hk, hv]),
      empty (lawful.fits_kind hk).2⟩
  case copy =>
    intro n hk
    rcases lawful.fits_kind hk with ⟨two, noResult⟩ | ⟨single, result⟩
    · obtain ⟨src, dst, hv⟩ := List.length_eq_two.mp two
      exact Or.inl ⟨src, dst, hv, lawful.buffers n src .read (by simp [touched, hk, hv]),
        lawful.buffers n dst .write (by simp [touched, hk, hv]), empty noResult⟩
    · obtain ⟨src, hsrc⟩ := one single
      obtain ⟨v, hv⟩ := one result
      exact Or.inr ⟨src, v, hsrc, hv⟩
  case loop => exact fun n _ _ _ _ hk => empty (lawful.fits_kind hk).2

end Resolved

/-- Resolution makes a region that is in order of every function, with errors or without. -/
theorem Program.lower_resolved (p : Program) : ∀ r ∈ p.lower.1, r.Resolved := by
  intro r hr
  obtain ⟨f, -, rfl⟩ := mem_lowerItems hr
  obtain ⟨lawful, inScope, numbered, drawn⟩ := f.lower_spec
  exact lawful.resolved inScope numbered drawn

/-- A source text with an argument named twice, names that are not visible where they are used
and a loop that is left out with its body. -/
def faultySource : String :=
  "func @k(%s: i1, %m: memref<1xi1>, %s: f9) \x7b
    for %i = 0 to 1 \x7b
      %a = load %s : i1
      for %i = 0 to 1 \x7b
        store %s, %m
      \x7d
      store %a, %m
      %b = load %m : i1
      store %b, %m
    \x7d
    %c = op \"x\"(%b) : i1
    store %s, %m
  \x7d"

theorem Program.lower_resolved_faulty : ∃ p r, (parse faultySource).program = some p ∧
    r ∈ p.lower.1 ∧ anyError p.lower.2 = true ∧ r.body.length = 2 ∧ r.nodes.size = 4 ∧
    r.Resolved := by
  have faulty : ((parse faultySource).program.any fun p => anyError p.lower.2 &&
      p.lower.1.any fun r => r.body.length == 2 && r.nodes.size == 4) = true := by
    rw [@parse_eq_parseChars faultySource _ (by rfl)]
    decide +kernel
  obtain ⟨p, parsed, faulty⟩ := (Option.any_eq_true _ _).mp faulty
  simp only [Bool.and_eq_true, List.any_eq_true, beq_iff_eq] at faulty
  obtain ⟨wrong, r, hr, top, all⟩ := faulty
  exact ⟨p, r, parsed, hr, wrong, top, all, p.lower_resolved r hr⟩

end Staging
