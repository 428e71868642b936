import Staging.Proofs.Carrying
import Staging.Proofs.Relevel

namespace Staging

/-- A copy on a chain, with the buffer that it fills if it needs one. -/
structure Link where
  copy : NodeId
  buffer : Option NodeId
  source : ValueId
  target : ValueId
  level : Nat

/-- A chain with the copies that were made for it. -/
structure BuiltChain where
  chain : CopyChain
  links : List Link

/-- The nodes of a link in the order of their creation. -/
def Link.nodes (l : Link) : List NodeId :=
  l.buffer.toList ++ [l.copy]

def newNodes (built : List BuiltChain) : List NodeId :=
  built.flatMap fun b => b.links.flatMap Link.nodes

def newValues (built : List BuiltChain) : List ValueId :=
  built.flatMap fun b => b.links.map Link.target

def newBuffers (built : List BuiltChain) : List NodeId :=
  built.flatMap fun b => b.links.flatMap fun l => l.buffer.toList

/-- The copies that stand in front of a consumer. -/
def copiesFor (built : List BuiltChain) (n : NodeId) : List NodeId :=
  (built.filter fun b => b.chain.consumer = n).flatMap fun b => b.links.map Link.copy

/-- What some links bring a value to. -/
def endOf (v : ValueId) (links : List Link) : ValueId :=
  (links.getLast?.map Link.target).getD v

/-- Each link reads what the one before it writes, and the first reads `v`. -/
def Linked : ValueId → List Link → Prop
  | _, [] => True
  | v, l :: ls => l.source = v ∧ Linked l.target ls

/-- Whether a chain carries a value to a node. -/
def CopyChain.carries (chain : CopyChain) (t : NodeId) (v : ValueId) : Bool :=
  chain.consumer = t && chain.carrier.id = v

/-- What a node of the body reads in place of `v`: the end of the first chain that carries `v`
to it. -/
def rewired (wired : List BuiltChain) (t : NodeId) (v : ValueId) : ValueId :=
  match wired.find? fun b => b.chain.carries t v with
  | some b => endOf v b.links
  | none => v

/-- A region holds the nodes of a link that carries values of some type. -/
structure Region.HasLink (s : Region) (type : ValueType) (l : Link) : Prop where
  kind : s.kind? l.copy = some .copy
  operands : s.operands l.copy = if l.buffer.isSome then [l.source, l.target] else [l.source]
  results : s.results l.copy = if l.buffer.isSome then [] else [l.target]
  parent : s.parent? l.copy = none
  buffer : ∀ b, l.buffer = some b → s.kind? b = some (.alloc false) ∧ s.operands b = [] ∧
    s.results b = [l.target] ∧ s.parent? b = none
  filled : l.buffer.isSome = type.isMemref
  target : ∃ name, s.value? l.target = some ⟨name, type, .result (l.buffer.getD l.copy) 0⟩

/-- A region that is another one with chains of copies added, when the consumers of the chains
`wired` read their ends. -/
structure Region.Rewritten (r : Region) (built wired : List BuiltChain) (s : Region) : Prop where
  args : s.args = r.args
  kind : ∀ n, n.index < r.nodes.size → s.kind? n = r.kind? n
  results : ∀ n, n.index < r.nodes.size → s.results n = r.results n
  parent : ∀ n, n.index < r.nodes.size → s.parent? n = r.parent? n
  operands : ∀ t ∈ r.body, ∀ n, r.Within t n → s.operands n = (r.operands n).map (rewired wired t)
  loose : ∀ n, n.index < r.nodes.size → (∀ t ∈ r.body, ¬ r.Within t n) →
    s.operands n = r.operands n
  value : ∀ v, v.index < r.values.size → s.value? v = r.value? v
  links : ∀ b ∈ built, ∃ value, r.value? b.chain.carrier.id = some value ∧
    ∀ l ∈ b.links, s.HasLink value.type l
  linked : ∀ b ∈ built, Linked b.chain.carrier.id b.links
  consumers : ∀ b ∈ built, b.chain.consumer ∈ r.body
  ready : ∀ b ∈ wired, b ∈ built ∧ b.links ≠ []
  nodes : newNodes built = (List.range' r.nodes.size (newNodes built).length).map NodeId.mk
  values : newValues built = (List.range' r.values.size (newValues built).length).map ValueId.mk
  nodeCount : s.nodes.size = r.nodes.size + (newNodes built).length

theorem endOf_append (v : ValueId) (links : List Link) (l : Link) :
    endOf v (links ++ [l]) = l.target := by
  simp [endOf]

theorem endOf_mem {v : ValueId} {links : List Link} (h : links ≠ []) :
    ∃ l ∈ links, links.getLast? = some l ∧ endOf v links = l.target := by
  refine ⟨links.getLast h, List.getLast_mem h, List.getLast?_eq_some_getLast h, ?_⟩
  simp [endOf, List.getLast?_eq_some_getLast h]

theorem CopyChain.carries_iff {chain : CopyChain} {t : NodeId} {v : ValueId} :
    chain.carries t v = true ↔ chain.consumer = t ∧ chain.carrier.id = v := by
  simp [carries]

theorem rewired_of_none {wired : List BuiltChain} {t : NodeId} {v : ValueId}
    (h : wired.find? (fun b => b.chain.carries t v) = none) : rewired wired t v = v := by
  simp [rewired, h]

theorem rewired_of_some {wired : List BuiltChain} {t : NodeId} {v : ValueId} {b : BuiltChain}
    (h : wired.find? (fun b => b.chain.carries t v) = some b) :
    rewired wired t v = endOf v b.links ∧ b ∈ wired ∧ b.chain.consumer = t ∧
      b.chain.carrier.id = v := by
  have carries := List.find?_some h
  exact ⟨by simp [rewired, h], List.mem_of_find?_eq_some h, CopyChain.carries_iff.mp carries⟩

theorem linked_append {v : ValueId} {links : List Link} {l : Link} :
    Linked v (links ++ [l]) ↔ Linked v links ∧ l.source = endOf v links := by
  induction links generalizing v with
  | nil => simp [Linked, endOf]
  | cons k links ih =>
    have last : endOf v (k :: links) = endOf k.target links := by
      cases links <;> simp [endOf, List.getLast?_cons_cons]
      rw [List.getLast?_eq_some_getLast (by simp)]
      simp
    simp only [List.cons_append, Linked, ih, last, and_assoc]

/-- The first link reads the start of the chain, any other one what the link before it writes. -/
theorem Linked.source_cases {v : ValueId} {links : List Link} (h : Linked v links) {l : Link}
    (hl : l ∈ links) : (links.head? = some l ∧ l.source = v) ∨
      ∃ k, [k, l] <:+: links ∧ l.source = k.target := by
  induction links generalizing v with
  | nil => simp at hl
  | cons k links ih =>
    obtain ⟨hk, rest⟩ := h
    rcases List.mem_cons.mp hl with rfl | hl
    · exact Or.inl ⟨rfl, hk⟩
    · refine Or.inr ?_
      rcases ih rest hl with ⟨hhead, hs⟩ | ⟨m, hm, hs⟩
      · obtain ⟨behind, rfl⟩ := List.head?_eq_some_iff.mp hhead
        exact ⟨k, ⟨[], behind, rfl⟩, hs⟩
      · exact ⟨m, hm.trans (List.suffix_cons k links).isInfix, hs⟩

theorem Linked.source_head {v : ValueId} {links : List Link} (h : Linked v links) {l : Link}
    (hl : links.head? = some l) : l.source = v := by
  obtain ⟨behind, rfl⟩ := List.head?_eq_some_iff.mp hl
  exact h.1

theorem Linked.source_next {v : ValueId} {links : List Link} (h : Linked v links) {k l : Link}
    (hkl : [k, l] <:+: links) : l.source = k.target := by
  induction links generalizing v with
  | nil => simp at hkl
  | cons m links ih =>
    rcases List.infix_cons_iff.mp hkl with hkl | hkl
    · obtain ⟨rfl, hl⟩ := List.cons_prefix_cons.mp hkl
      obtain ⟨behind, rfl⟩ := hl
      exact h.2.1
    · exact ih h.2 hkl

theorem eq_of_mem_flatMap {α β : Type} {f : α → List β} {l : List α} (nodup : (l.flatMap f).Nodup)
    {a b : α} (ha : a ∈ l) (hb : b ∈ l) {x : β} (hxa : x ∈ f a) (hxb : x ∈ f b) : a = b := by
  induction l with
  | nil => simp at ha
  | cons c l ih =>
    rw [List.flatMap_cons, List.nodup_append] at nodup
    obtain ⟨_, rest, apart⟩ := nodup
    rcases List.mem_cons.mp ha with rfl | ha'
    · rcases List.mem_cons.mp hb with rfl | hb'
      · rfl
      · exact absurd rfl (apart x hxa x (List.mem_flatMap.mpr ⟨b, hb', hxb⟩))
    · rcases List.mem_cons.mp hb with rfl | hb'
      · exact absurd rfl (apart x hxb x (List.mem_flatMap.mpr ⟨a, ha', hxa⟩))
      · exact ih rest ha' hb'

theorem mem_newNodes {built : List BuiltChain} {n : NodeId} :
    n ∈ newNodes built ↔ ∃ b ∈ built, ∃ l ∈ b.links, l.buffer = some n ∨ n = l.copy := by
  simp [newNodes, Link.nodes]

theorem mem_newValues {built : List BuiltChain} {v : ValueId} :
    v ∈ newValues built ↔ ∃ b ∈ built, ∃ l ∈ b.links, l.target = v := by
  simp [newValues]

theorem mem_copiesFor {built : List BuiltChain} {n c : NodeId} :
    c ∈ copiesFor built n ↔ ∃ b ∈ built, b.chain.consumer = n ∧ ∃ l ∈ b.links, l.copy = c := by
  simp [copiesFor, and_assoc]

theorem mem_newBuffers {built : List BuiltChain} {n : NodeId} :
    n ∈ newBuffers built ↔ ∃ b ∈ built, ∃ l ∈ b.links, l.buffer = some n := by
  simp [newBuffers]

section Rewritten

variable {r s : Region} {built wired : List BuiltChain}

theorem Region.HasLink.sameNodes {s' : Region} {type : ValueType} {l : Link}
    (h : s.HasLink type l) (same : s.SameNodes s') : s'.HasLink type l := by
  refine ⟨?_, ?_, ?_, ?_, ?_, h.filled, ?_⟩
  · rw [same.kind, h.kind]
  · rw [same.operands, h.operands]
  · rw [same.results, h.results]
  · rw [same.parent, h.parent]
  · rw [same.kind, same.operands, same.results, same.parent]
    exact h.buffer
  · rw [same.value]
    exact h.target

theorem Region.Rewritten.sameNodes {s' : Region} (h : r.Rewritten built wired s)
    (same : s.SameNodes s') : r.Rewritten built wired s' := by
  refine ⟨same.args.trans h.args, fun n hn => ?_, fun n hn => ?_, fun n hn => ?_,
    fun t ht n hn => ?_, fun n hn loose => ?_, fun v hv => ?_, fun b hb => ?_, h.linked,
    h.consumers, h.ready, h.nodes, h.values, same.size.trans h.nodeCount⟩
  · rw [same.kind, h.kind n hn]
  · rw [same.results, h.results n hn]
  · rw [same.parent, h.parent n hn]
  · rw [same.operands, h.operands t ht n hn]
  · rw [same.operands, h.loose n hn loose]
  · rw [same.value, h.value v hv]
  · obtain ⟨value, hv, hl⟩ := h.links b hb
    exact ⟨value, hv, fun l hlb => (hl l hlb).sameNodes same⟩

theorem Region.Rewritten.nodes_nodup (h : r.Rewritten built wired s) : (newNodes built).Nodup := by
  rw [h.nodes]
  exact List.Nodup.map (fun a b hab => congrArg NodeId.index hab) List.nodup_range'

theorem Region.Rewritten.values_nodup (h : r.Rewritten built wired s) :
    (newValues built).Nodup := by
  rw [h.values]
  exact List.Nodup.map (fun a b hab => congrArg ValueId.index hab) List.nodup_range'

theorem Region.Rewritten.mem_newNodes_iff (h : r.Rewritten built wired s) {n : NodeId} :
    n ∈ newNodes built ↔ r.nodes.size ≤ n.index ∧ n.index < s.nodes.size := by
  rw [h.nodes, h.nodeCount]
  simp only [List.mem_map, List.mem_range'_1]
  constructor
  · rintro ⟨i, hi, rfl⟩
    exact hi
  · exact fun hi => ⟨n.index, hi, rfl⟩

theorem Region.Rewritten.newValue_index (h : r.Rewritten built wired s) {v : ValueId}
    (hv : v ∈ newValues built) : r.values.size ≤ v.index := by
  rw [h.values] at hv
  obtain ⟨i, hi, rfl⟩ := List.mem_map.mp hv
  exact (List.mem_range'_1.mp hi).1

theorem Region.Rewritten.node_cases (h : r.Rewritten built wired s) {n : NodeId}
    (hn : n.index < s.nodes.size) : n.index < r.nodes.size ∨ n ∈ newNodes built := by
  rw [h.mem_newNodes_iff]
  omega

/-- A node that was not there is the copy or the buffer of a link, or unknown. -/
theorem Region.Rewritten.new_cases (h : r.Rewritten built wired s) {n : NodeId}
    (hn : r.nodes.size ≤ n.index) : (∃ b ∈ built, ∃ l ∈ b.links, l.copy = n) ∨
      (∃ b ∈ built, ∃ l ∈ b.links, l.buffer = some n) ∨ s.nodes.size ≤ n.index := by
  by_cases known : n.index < s.nodes.size
  · obtain ⟨b, hb, l, hl, hbuf | hcopy⟩ := mem_newNodes.mp (h.mem_newNodes_iff.mpr ⟨hn, known⟩)
    · exact Or.inr (Or.inl ⟨b, hb, l, hl, hbuf⟩)
    · exact Or.inl ⟨b, hb, l, hl, hcopy.symm⟩
  · exact Or.inr (Or.inr (Nat.le_of_not_lt known))

section Link

variable {b b' : BuiltChain} {l l' : Link}

theorem Region.Rewritten.copy_new (h : r.Rewritten built wired s) (hb : b ∈ built)
    (hl : l ∈ b.links) : r.nodes.size ≤ l.copy.index ∧ l.copy.index < s.nodes.size :=
  h.mem_newNodes_iff.mp (mem_newNodes.mpr ⟨b, hb, l, hl, Or.inr rfl⟩)

theorem Region.Rewritten.buffer_new (h : r.Rewritten built wired s) (hb : b ∈ built)
    (hl : l ∈ b.links) {n : NodeId} (hn : l.buffer = some n) :
    r.nodes.size ≤ n.index ∧ n.index < s.nodes.size :=
  h.mem_newNodes_iff.mp (mem_newNodes.mpr ⟨b, hb, l, hl, Or.inl hn⟩)

theorem Region.Rewritten.target_new (h : r.Rewritten built wired s) (hb : b ∈ built)
    (hl : l ∈ b.links) : r.values.size ≤ l.target.index :=
  h.newValue_index (mem_newValues.mpr ⟨b, hb, l, hl, rfl⟩)

/-- A new node belongs to one link. -/
theorem Region.Rewritten.link_of_node (h : r.Rewritten built wired s) (hb : b ∈ built)
    (hb' : b' ∈ built) (hl : l ∈ b.links) (hl' : l' ∈ b'.links) {n : NodeId} (hn : n ∈ l.nodes)
    (hn' : n ∈ l'.nodes) : b = b' ∧ l = l' := by
  have same := eq_of_mem_flatMap h.nodes_nodup hb hb' (List.mem_flatMap.mpr ⟨l, hl, hn⟩)
    (List.mem_flatMap.mpr ⟨l', hl', hn'⟩)
  subst same
  exact ⟨rfl, eq_of_mem_flatMap ((List.nodup_flatMap.mp h.nodes_nodup).1 b hb) hl hl' hn hn'⟩

theorem Region.Rewritten.link_of_copy (h : r.Rewritten built wired s) (hb : b ∈ built)
    (hb' : b' ∈ built) (hl : l ∈ b.links) (hl' : l' ∈ b'.links) (he : l.copy = l'.copy) :
    b = b' ∧ l = l' :=
  h.link_of_node hb hb' hl hl' (n := l.copy) (by simp [Link.nodes]) (by simp [Link.nodes, he])

/-- A new value is the target of one link. -/
theorem Region.Rewritten.link_of_target (h : r.Rewritten built wired s) (hb : b ∈ built)
    (hb' : b' ∈ built) (hl : l ∈ b.links) (hl' : l' ∈ b'.links) (he : l.target = l'.target) :
    b = b' ∧ l = l' := by
  have same := eq_of_mem_flatMap h.values_nodup hb hb' (List.mem_map.mpr ⟨l, hl, rfl⟩)
    (List.mem_map.mpr ⟨l', hl', he.symm⟩)
  subst same
  exact ⟨rfl, List.inj_on_of_nodup_map ((List.nodup_flatMap.mp h.values_nodup).1 b hb) hl hl' he⟩

theorem Region.Rewritten.hasLink (h : r.Rewritten built wired s) (hb : b ∈ built)
    (hl : l ∈ b.links) : ∃ value, r.value? b.chain.carrier.id = some value ∧
      s.HasLink value.type l := by
  obtain ⟨value, hv, links⟩ := h.links b hb
  exact ⟨value, hv, links l hl⟩

end Link

/-- What was put into a region is copies and their buffers. -/
theorem Region.Rewritten.kind_cases (h : r.Rewritten built wired s) {n : NodeId} {kind : NodeKind}
    (hk : s.kind? n = some kind) : r.kind? n = some kind ∨ kind = .copy ∨ kind = .alloc false := by
  rcases Nat.lt_or_ge n.index r.nodes.size with old | new
  · exact Or.inl (h.kind n old ▸ hk)
  · rcases h.new_cases new with ⟨b, hb, l, hl, rfl⟩ | ⟨b, hb, l, hl, buffer⟩ | unknown
    · obtain ⟨_, -, link⟩ := h.hasLink hb hl
      exact Or.inr (Or.inl (Option.some.inj (hk.symm.trans link.kind)))
    · obtain ⟨_, -, link⟩ := h.hasLink hb hl
      exact Or.inr (Or.inr (Option.some.inj (hk.symm.trans (link.buffer n buffer).1)))
    · simp [kind?, node?_eq_none unknown] at hk

theorem Region.HasLink.isDataflow {type : ValueType} {l : Link} (h : s.HasLink type l) :
    s.isDataflow l.copy = true ∧ s.isLoop l.copy = false := by
  simp [Region.isDataflow, isLoop, h.kind, NodeKind.isDataflow, NodeKind.isLoop]

theorem Region.HasLink.bodyOf {type : ValueType} {l : Link} (h : s.HasLink type l) :
    s.bodyOf l.copy = [] := by
  simp [Region.bodyOf, h.kind, NodeKind.body]

/-- The new nodes have nothing in them. -/
theorem Region.Rewritten.bodyOf_new (h : r.Rewritten built wired s) {n : NodeId}
    (hn : n ∈ newNodes built) : s.bodyOf n = [] := by
  obtain ⟨b, hb, l, hl, hn | rfl⟩ := mem_newNodes.mp hn
  · obtain ⟨_, _, link⟩ := h.hasLink hb hl
    simp [Region.bodyOf, (link.buffer n hn).1, NodeKind.body]
  · obtain ⟨_, _, link⟩ := h.hasLink hb hl
    exact link.bodyOf

theorem Region.Rewritten.bodyOf (h : r.Rewritten built wired s) {n : NodeId}
    (hn : n.index < r.nodes.size) : s.bodyOf n = r.bodyOf n := by
  simp [Region.bodyOf, h.kind n hn]

theorem Region.Rewritten.child (h : r.Rewritten built wired s) {p c : NodeId} :
    s.Child p c ↔ r.Child p c := by
  unfold Child
  by_cases hp : p.index < r.nodes.size
  · rw [h.bodyOf hp]
  · rw [Region.bodyOf_eq_nil (Nat.le_of_not_lt hp)]
    by_cases hs : p.index < s.nodes.size
    · rw [h.bodyOf_new ((h.node_cases hs).resolve_left hp)]
    · rw [Region.bodyOf_eq_nil (Nat.le_of_not_lt hs)]

theorem Region.Rewritten.within (h : r.Rewritten built wired s) : s.Within = r.Within := by
  have child : s.Child = r.Child := by
    funext p c
    exact propext h.child
  funext t n
  unfold Within
  rw [child]

theorem Region.Rewritten.mentions_iff (h : r.Rewritten built wired s) {t : NodeId}
    (ht : t ∈ r.body) {w : ValueId} :
    s.Mentions t w ↔ ∃ v, r.Mentions t v ∧ rewired wired t v = w := by
  unfold Mentions
  rw [h.within]
  constructor
  · rintro ⟨n, hn, hw⟩
    rw [h.operands t ht n hn] at hw
    obtain ⟨v, hv, he⟩ := List.mem_map.mp hw
    exact ⟨v, ⟨n, hn, hv⟩, he⟩
  · rintro ⟨v, ⟨n, hn, hv⟩, he⟩
    refine ⟨n, hn, ?_⟩
    rw [h.operands t ht n hn]
    exact List.mem_map.mpr ⟨v, hv, he⟩

theorem Region.Rewritten.touched (h : r.Rewritten built wired s) (nested : r.Nested)
    {t n : NodeId} (ht : t ∈ r.body) (hn : r.Within t n) : s.touched n =
      (r.touched n).map fun access => (rewired wired t access.1, access.2) := by
  have known := nested.known (nested.bodyKnown t ht) hn
  unfold Region.touched
  rw [h.kind n known, h.operands t ht n hn]
  rcases r.kind? n with _ | kind
  · rfl
  · cases kind <;> try rfl
    all_goals
      rcases r.operands n with _ | ⟨a, _ | ⟨b, _ | ⟨c, rest⟩⟩⟩ <;> rfl

theorem Region.Rewritten.touches_iff (h : r.Rewritten built wired s) (nested : r.Nested)
    {t : NodeId} (ht : t ∈ r.body) {mem : ValueId} {kind : AccessKind} :
    s.Touches t mem kind ↔ ∃ m, r.Touches t m kind ∧ rewired wired t m = mem := by
  unfold Touches
  rw [h.within]
  constructor
  · rintro ⟨n, hn, hm⟩
    rw [h.touched nested ht hn] at hm
    obtain ⟨⟨m, k⟩, hmk, he⟩ := List.mem_map.mp hm
    cases he
    exact ⟨m, ⟨n, hn, hmk⟩, rfl⟩
  · rintro ⟨m, ⟨n, hn, hm⟩, rfl⟩
    refine ⟨n, hn, ?_⟩
    rw [h.touched nested ht hn]
    exact List.mem_map.mpr ⟨(m, kind), hm, rfl⟩

/-- The value that stands for an old one is the old one itself, or new. -/
theorem Region.Rewritten.rewired_old (h : r.Rewritten built wired s) {t : NodeId} {v w : ValueId}
    (hw : w.index < r.values.size) :
    rewired wired t v = w ↔ v = w ∧ wired.find? (fun b => b.chain.carries t w) = none := by
  cases hf : wired.find? fun b => b.chain.carries t v with
  | none =>
    rw [rewired_of_none hf]
    constructor
    · rintro rfl
      exact ⟨rfl, hf⟩
    · exact fun he => he.1
  | some b =>
    obtain ⟨he, hb, _, _⟩ := rewired_of_some hf
    obtain ⟨hbuilt, ne⟩ := h.ready b hb
    obtain ⟨l, hl, _, hend⟩ := @endOf_mem v b.links ne
    have new := h.target_new hbuilt hl
    constructor
    · intro heq
      rw [he, hend] at heq
      subst heq
      omega
    · rintro ⟨rfl, hnone⟩
      simp [hf] at hnone

/-- The target of a link stands for an old value where the link is the end of the first chain
that carries the old value there. -/
theorem Region.Rewritten.rewired_new (h : r.Rewritten built wired s) {t : NodeId} {v : ValueId}
    (hv : v.index < r.values.size) {b : BuiltChain} {l : Link} (hb : b ∈ built)
    (hl : l ∈ b.links) :
    rewired wired t v = l.target ↔ wired.find? (fun b => b.chain.carries t v) = some b ∧
      b.links.getLast? = some l := by
  cases hf : wired.find? fun b => b.chain.carries t v with
  | none =>
    rw [rewired_of_none hf]
    have new := h.target_new hb hl
    refine ⟨?_, by simp⟩
    rintro rfl
    omega
  | some b' =>
    obtain ⟨he, hb', _, _⟩ := rewired_of_some hf
    obtain ⟨hbuilt, ne⟩ := h.ready b' hb'
    obtain ⟨l', hl', hlast, hend⟩ := @endOf_mem v b'.links ne
    rw [he, hend]
    constructor
    · intro heq
      obtain ⟨rfl, rfl⟩ := h.link_of_target hb hbuilt hl hl' heq.symm
      exact ⟨rfl, hlast⟩
    · rintro ⟨hsome, hlast'⟩
      cases hsome
      rw [hlast] at hlast'
      cases hlast'
      rfl

theorem Region.Rewritten.mentions_old (h : r.Rewritten built wired s) {t : NodeId}
    (ht : t ∈ r.body) {w : ValueId} (hw : w.index < r.values.size) :
    s.Mentions t w ↔ r.Mentions t w ∧ wired.find? (fun b => b.chain.carries t w) = none := by
  rw [h.mentions_iff ht]
  constructor
  · rintro ⟨v, hv, he⟩
    obtain ⟨rfl, hf⟩ := (h.rewired_old hw).mp he
    exact ⟨hv, hf⟩
  · exact fun ⟨hv, hf⟩ => ⟨w, hv, rewired_of_none hf⟩

theorem Region.Rewritten.touches_old (h : r.Rewritten built wired s) (nested : r.Nested)
    {t : NodeId} (ht : t ∈ r.body) {mem : ValueId} {kind : AccessKind}
    (hm : mem.index < r.values.size) :
    s.Touches t mem kind ↔ r.Touches t mem kind ∧
      wired.find? (fun b => b.chain.carries t mem) = none := by
  rw [h.touches_iff nested ht]
  constructor
  · rintro ⟨v, hv, he⟩
    obtain ⟨rfl, hf⟩ := (h.rewired_old hm).mp he
    exact ⟨hv, hf⟩
  · exact fun ⟨hv, hf⟩ => ⟨mem, hv, rewired_of_none hf⟩

/-- A copy mentions what it reads, and the buffer that it fills. -/
theorem Region.Rewritten.mentions_copy (h : r.Rewritten built wired s) {b : BuiltChain} {l : Link}
    (hb : b ∈ built) (hl : l ∈ b.links) {w : ValueId} :
    s.Mentions l.copy w ↔ w = l.source ∨ (l.buffer.isSome = true ∧ w = l.target) := by
  obtain ⟨_, _, link⟩ := h.hasLink hb hl
  rw [Region.mentions_iff]
  simp only [Child, link.bodyOf, List.not_mem_nil, false_and, exists_false, or_false,
    link.operands]
  split <;> simp_all

end Rewritten

end Staging
