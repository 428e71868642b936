import Staging.Proofs.Growth
import Staging.Proofs.Forest
import Staging.Proofs.Moves

namespace Staging

/-- A node is in no block. -/
def Region.Free (r : Region) (n : NodeId) : Prop :=
  ∀ block ns, r.block? block = some ns → n ∉ ns

/-- A node may be put into a block: it is in none, and the block is not within it. -/
def Region.Takes (r : Region) (block : Option NodeId) (n : NodeId) : Prop :=
  r.Free n ∧ ∀ p, block = some p → ¬ r.Within n p

/-- A node that is not in the body and names no parent is in no block. -/
theorem Region.Forest.free {r : Region} {n : NodeId} (forest : r.Forest) (body : n ∉ r.body)
    (top : r.parent? n = none) : r.Free n := by
  intro q ns hns hn
  obtain rfl : none = q := top.symm.trans (forest.named q ns hns n hn)
  exact body (Option.some.inj hns ▸ hn)

/-- A node that stands nowhere is free. -/
theorem Region.free_of_nowhere {r : Region} {n : NodeId} (body : n ∉ r.body)
    (loops : ∀ i, i < r.nodes.size → n ∉ r.bodyOf ⟨i⟩) : r.Free n := by
  intro q ns hns hn
  cases q with
  | none => exact body (Option.some.inj hns ▸ hn)
  | some p =>
    have child : r.Child p n := child_iff.mpr ⟨ns, hns, hn⟩
    exact loops p.index (child_known child) child

/-- With nothing in it, it may be put into any block but its own. -/
theorem Region.Free.takes {r : Region} {block : Option NodeId} {n : NodeId} (free : r.Free n)
    (bare : r.bodyOf n = []) (ne : block ≠ some n) : r.Takes block n := by
  refine ⟨free, fun p here within => ?_⟩
  rcases within_iff.mp within with same | ⟨c, hc, -⟩
  · exact ne (here.trans (congrArg some same))
  · unfold Child at hc
    simp [bare] at hc

section Blocks

variable {r s : Region} {n m p : NodeId} {block q : Option NodeId} {ns : List NodeId}

/-- The blocks of two regions, and what their nodes say about them, are the same. -/
structure Region.SameBlocks (r s : Region) : Prop where
  size : s.nodes.size = r.nodes.size
  block : ∀ q, s.block? q = r.block? q
  parent : ∀ n, s.parent? n = r.parent? n

theorem Region.SameNodes.sameBlocks (same : r.SameNodes s) (body : s.body = r.body) :
    r.SameBlocks s := by
  refine ⟨same.size, fun q => ?_, fun n => congrFun same.parent n⟩
  cases q with
  | none => exact congrArg some body
  | some p => rw [block?, block?, same.kind]

/-- A region has one more node, with nothing in it and in no block. -/
structure Region.Gains (r s : Region) : Prop where
  size : s.nodes.size = r.nodes.size + 1
  block : ∀ q, s.block? q = if q = some ⟨r.nodes.size⟩ then some [] else r.block? q
  parent : ∀ n, s.parent? n = r.parent? n

/-- A node has been put into a block. -/
structure Region.Inserts (r : Region) (block : Option NodeId) (n : NodeId) (s : Region) : Prop where
  size : s.nodes.size = r.nodes.size
  known : n.index < r.nodes.size
  place : ∃ x y, r.block? block = some (x ++ y) ∧ s.block? block = some (x ++ n :: y)
  others : ∀ q, q ≠ block → s.block? q = r.block? q
  parent : ∀ m, s.parent? m = if m = n then block else r.parent? m
  values : s.values = r.values

/-- A node has been moved directly in front of another one of its block. All other nodes stay
where they are. -/
structure Region.Moves (r : Region) (n anchor : NodeId) (s : Region) : Prop where
  size : s.nodes.size = r.nodes.size
  place : ∃ block ns x y, r.block? block = some ns ∧ n ∈ ns ∧ ns.erase n = x ++ anchor :: y ∧
    s.block? block = some (x ++ n :: anchor :: y) ∧
    ∀ q, q ≠ block → s.block? q = r.block? q
  parent : ∀ m, s.parent? m = r.parent? m
  values : s.values = r.values

theorem Region.block?_setBlock (holds : r.hasBlock? block = some true) :
    (r.setBlock ns block).block? q = if q = block then some ns else r.block? q := by
  cases block with
  | none =>
    cases q with
    | none => rfl
    | some m => rfl
  | some p =>
    cases q with
    | none => rfl
    | some m =>
      obtain ⟨kind, found, loop⟩ := Option.map_eq_some_iff.mp holds
      obtain ⟨node, hn, rfl⟩ := Option.map_eq_some_iff.mp found
      by_cases same : m = p
      · subst same
        simp [block?, setBlock, kind?, node?_modifyNode, hn, NodeKind.body_withBody _ _ loop]
      · simp [block?, setBlock, kind?, node?_modifyNode, same]

theorem Region.parent?_setBlock : (r.setBlock ns block).parent? m = r.parent? m := by
  cases block with
  | none => rfl
  | some p =>
    unfold setBlock parent?
    rw [node?_modifyNode]
    by_cases same : m = p
    · rw [if_pos same]
      cases r.node? m <;> rfl
    · rw [if_neg same]

theorem Region.block?_setParent : (r.setParent n block).block? q = r.block? q := by
  cases q with
  | none => rfl
  | some m =>
    simp only [setParent, block?, kind?, node?_modifyNode]
    split
    next => cases r.node? m <;> rfl
    next => rfl

theorem Region.parent?_setParent (known : n.index < r.nodes.size) :
    (r.setParent n block).parent? m = if m = n then block else r.parent? m := by
  unfold setParent parent?
  rw [node?_modifyNode]
  by_cases same : m = n
  · obtain ⟨node, hn⟩ := node?_eq_some known
    rw [if_pos same, if_pos same, same, hn]
    rfl
  · rw [if_neg same, if_neg same]

theorem Region.size_setBlock : (r.setBlock ns block).nodes.size = r.nodes.size := by
  cases block with
  | none => rfl
  | some p => simp [setBlock, modifyNode]

theorem Region.values_setBlock : (r.setBlock ns block).values = r.values := by
  cases block with
  | none => rfl
  | some p => rfl

/-- A node is put into a block, or nothing is done. -/
theorem Region.attach_effect {place : List NodeId → Option (List NodeId)} {done : Bool}
    (places : ∀ ns placed, place ns = some placed → ∃ x y, ns = x ++ y ∧ placed = x ++ n :: y)
    (h : r.attach block n place = some (s, done)) :
    (done = false ∧ s = r) ∨ (done = true ∧ r.Inserts block n s) := by
  unfold attach at h
  obtain ⟨ns, hns, h⟩ := Option.bind_eq_some_iff.mp h
  obtain ⟨holds, hholds, h⟩ := Option.bind_eq_some_iff.mp h
  cases holds with
  | false =>
    cases h
    exact Or.inl ⟨rfl, rfl⟩
  | true =>
    split at h
    next placed hplaced =>
      obtain ⟨node, hn, h⟩ := Option.bind_eq_some_iff.mp h
      cases h
      obtain ⟨x, y, rfl, rfl⟩ := places ns placed hplaced
      have known := index_lt_of_node? hn
      refine Or.inr ⟨rfl, ?_, known, ⟨x, y, hns, ?_⟩, fun q ne => ?_, fun m => ?_, values_setBlock⟩
      · unfold setParent modifyNode
        rw [Array.size_modify, size_setBlock]
      · rw [block?_setParent, block?_setBlock hholds, if_pos rfl]
      · rw [block?_setParent, block?_setBlock hholds, if_neg ne]
      · rw [parent?_setParent (by rwa [size_setBlock]), parent?_setBlock]
    next =>
      cases h
      exact Or.inl ⟨rfl, rfl⟩

theorem Region.append_effect {done : Bool} (h : r.append block n = some (s, done)) :
    (done = false ∧ s = r) ∨ (done = true ∧ r.Inserts block n s) := by
  apply attach_effect _ h
  intro ns placed hplaced
  cases hplaced
  exact ⟨ns, [], (List.append_nil ns).symm, rfl⟩

theorem Region.insertAt_effect {index : Nat} {done : Bool}
    (h : r.insertAt block index n = some (s, done)) :
    (done = false ∧ s = r) ∨ (done = true ∧ r.Inserts block n s) := by
  apply attach_effect _ h
  intro ns placed hplaced
  split at hplaced
  next inside =>
    cases hplaced
    refine ⟨ns.take index, ns.drop index, (List.take_append_drop index ns).symm, ?_⟩
    have split := insertIdx_append_length (ns.take index) (ns.drop index) n
    rwa [List.take_append_drop, List.length_take, Nat.min_eq_left inside] at split
  next => cases hplaced

theorem Region.insertBefore_effect {anchor : NodeId} {done : Bool}
    (h : r.insertBefore anchor n = some (s, done)) :
    (done = false ∧ s = r) ∨ (done = true ∧ r.Inserts (r.parent? anchor) n s) := by
  unfold insertBefore at h
  obtain ⟨node, hn, h⟩ := Option.bind_eq_some_iff.mp h
  obtain ⟨ns, hns, h⟩ := Option.bind_eq_some_iff.mp h
  have parent : r.parent? anchor = node.parent := by simp [parent?, hn]
  rw [parent]
  split at h
  next => exact insertAt_effect h
  next =>
    cases h
    exact Or.inl ⟨rfl, rfl⟩

/-- A block that holds a node is one that can. -/
theorem Region.hasBlock?_of_mem (h : r.block? block = some ns) (hn : n ∈ ns) :
    r.hasBlock? block = some true := by
  cases block with
  | none => rfl
  | some p =>
    obtain ⟨kind, found, rfl⟩ := Option.map_eq_some_iff.mp h
    have loop : kind.isLoop = true := by
      cases kind <;> simp_all [NodeKind.body, NodeKind.isLoop]
    simp [hasBlock?, found, loop]

theorem moveInFront_eq_some {anchor : NodeId} {moved : List NodeId}
    (h : moveInFront n anchor ns = some moved) : n ∈ ns ∧ ∃ x y, ns.erase n = x ++ anchor :: y ∧
      moved = x ++ n :: anchor :: y := by
  unfold moveInFront at h
  split at h
  next hn =>
    obtain ⟨index, found, rfl⟩ := Option.map_eq_some_iff.mp h
    have ha : anchor ∈ ns.erase n := List.isSome_idxOf?.mp (by rw [found]; rfl)
    obtain ⟨x, y, rest, first⟩ := List.eq_append_cons_of_mem ha
    rw [rest, idxOf?_append_cons first] at found
    refine ⟨hn, x, y, rest, ?_⟩
    rw [← Option.some.inj found, rest, insertIdx_append_length]
  next => cases h

/-- A node is moved in front of another one, or nothing is done. -/
theorem Region.moveBefore_effect {anchor : NodeId} {done : Bool} (ne : n ≠ anchor)
    (h : r.moveBefore n anchor = some (s, done)) :
    (done = false ∧ s = r) ∨ (done = true ∧ r.Moves n anchor s) := by
  unfold moveBefore at h
  rw [if_neg ne] at h
  obtain ⟨node, hn, h⟩ := Option.bind_eq_some_iff.mp h
  obtain ⟨target, ht, h⟩ := Option.bind_eq_some_iff.mp h
  split at h
  next =>
    cases h
    exact Or.inl ⟨rfl, rfl⟩
  obtain ⟨ns, hns, h⟩ := Option.bind_eq_some_iff.mp h
  split at h
  next moved hmoved =>
    cases h
    obtain ⟨hn, x, y, rest, rfl⟩ := moveInFront_eq_some hmoved
    have holds := hasBlock?_of_mem hns hn
    refine Or.inr ⟨rfl, size_setBlock, ⟨node.parent, ns, x, y, hns, hn, rest, ?_, fun q ne => ?_⟩,
      fun m => parent?_setBlock, values_setBlock⟩
    · rw [block?_setBlock holds, if_pos rfl]
    · rw [block?_setBlock holds, if_neg ne]
  next =>
    cases h
    exact Or.inl ⟨rfl, rfl⟩

/-- Takes a node out of its block, looks for another one in what is left, and puts the node in
front of that, or back to where it was. -/
def Region.moveInPlace (r : Region) (n anchor : NodeId) : Option (Region × Bool) :=
  if n = anchor then some (r, true)
  else do
    let node ← r.node? n
    let target ← r.node? anchor
    if target.parent ≠ node.parent then return (r, false)
    let block ← r.block? node.parent
    match block.idxOf? n with
    | none => return (r, false)
    | some start =>
      let others := block.eraseIdx start
      match others.idxOf? anchor with
      | some goal => return (r.setBlock (others.insertIdx goal n) node.parent, true)
      | none => return (r.setBlock (others.insertIdx start n) node.parent, false)

theorem Region.setBlock_self (h : r.block? block = some ns) : r.setBlock ns block = r := by
  cases block with
  | none =>
    cases h
    rfl
  | some p =>
    obtain ⟨kind, found, rfl⟩ := Option.map_eq_some_iff.mp h
    obtain ⟨node, hn, rfl⟩ := Option.map_eq_some_iff.mp found
    refine modifyNode_self hn ?_
    rw [NodeKind.withBody_body]

/-- What is taken out of a list can be put back. -/
theorem insertIdx_eraseIdx {start : Nat} (h : ns.idxOf? n = some start) :
    (ns.eraseIdx start).insertIdx start n = ns ∧ n ∈ ns ∧ ns.eraseIdx start = ns.erase n := by
  have hn : n ∈ ns := List.isSome_idxOf?.mp (by rw [h]; rfl)
  obtain ⟨x, y, rfl, first⟩ := List.eq_append_cons_of_mem hn
  rw [idxOf?_append_cons first] at h
  have others : (x ++ n :: y).eraseIdx x.length = x ++ y := by
    simp [List.eraseIdx_append_of_length_le]
  rw [← Option.some.inj h, others, insertIdx_append_length, List.erase_append_right _ first]
  simp

/-- A move that finds no place for a node puts it back to where it was. -/
theorem Region.moveInPlace_eq (r : Region) (n anchor : NodeId) :
    r.moveInPlace n anchor = r.moveBefore n anchor := by
  unfold moveInPlace moveBefore
  split
  next => rfl
  congr 1
  funext node
  congr 1
  funext target
  split
  next => rfl
  cases block : r.block? node.parent with
  | none => rfl
  | some ns =>
    simp only [bind, Option.bind]
    cases place : ns.idxOf? n with
    | none =>
      have away : n ∉ ns := List.idxOf?_eq_none_iff.mp place
      simp [moveInFront, away]
    | some start =>
      obtain ⟨back, hn, others⟩ := insertIdx_eraseIdx place
      unfold moveInFront
      rw [if_pos hn]
      dsimp only
      cases goal : (ns.eraseIdx start).idxOf? anchor with
      | none =>
        rw [others] at goal
        rw [goal, back, setBlock_self block]
        rfl
      | some index =>
        rw [others] at goal
        rw [goal, others]
        rfl

/-- A change to what does not belong to the blocks. -/
theorem Region.sameBlocks_modifyNode {f : Node → Node}
    (keep : ∀ node, (f node).kind = node.kind ∧ (f node).parent = node.parent) :
    r.SameBlocks (r.modifyNode n f) := by
  refine ⟨by simp [modifyNode], fun q => ?_, fun m => ?_⟩
  · cases q with
    | none => rfl
    | some m =>
      simp only [block?, kind?, node?_modifyNode]
      split
      next => cases r.node? m <;> simp [keep]
      next => rfl
  · simp only [parent?, node?_modifyNode]
    split
    next => cases r.node? m <;> simp [keep]
    next => rfl

theorem Region.SameBlocks.trans {t : Region} (h : r.SameBlocks s) (h' : s.SameBlocks t) :
    r.SameBlocks t :=
  ⟨h'.size.trans h.size, fun q => (h'.block q).trans (h.block q),
    fun n => (h'.parent n).trans (h.parent n)⟩

theorem Region.addArg_sameBlocks (name : String) (type : ValueType) :
    r.SameBlocks (r.addArg name type).2 :=
  ⟨rfl, fun _ => rfl, fun _ => rfl⟩

/-- What replacing the operands of any node keeps, replacing the uses in a scope keeps. -/
theorem Region.replaceUses_keeps {old new : ValueId} {k : Nat} {P : Region → Prop} (start : P r)
    (step : ∀ t m, P t → P (t.replaceOperand old new m).1)
    (h : r.replaceUses old new n = some (s, k)) : P s := by
  unfold replaceUses at h
  obtain ⟨-, -, h⟩ := Option.bind_eq_some_iff.mp h
  have all := @foldl_keeps _ _ (fun (state : Region × Nat) m =>
    ((state.1.replaceOperand old new m).1, state.2 + (state.1.replaceOperand old new m).2))
    (fun state => P state.1) (r.walk n) (r, 0) start fun state kept m _ => step state.1 m kept
  have made : _ = s := congrArg Prod.fst (Option.some.inj h)
  rw [← made]
  exact all

theorem Region.replaceUses_sameBlocks {old new : ValueId} {k : Nat}
    (h : r.replaceUses old new n = some (s, k)) : r.SameBlocks s :=
  replaceUses_keeps ⟨rfl, fun _ => rfl, fun _ => rfl⟩
    (fun _ _ same => same.trans (sameBlocks_modifyNode fun _ => ⟨rfl, rfl⟩)) h

theorem Region.replaceUses_values {old new : ValueId} {k : Nat}
    (h : r.replaceUses old new n = some (s, k)) : s.values = r.values :=
  replaceUses_keeps (P := fun t => t.values = r.values) rfl (fun _ _ same => same) h

theorem Region.clearLevels_sameBlocks : r.SameBlocks r.clearLevels := by
  have node : ∀ m, r.clearLevels.node? m =
      (r.node? m).map fun node => { node with level := none } := by
    intro m
    simp [clearLevels, node?]
  refine ⟨by simp [clearLevels], fun q => ?_, fun m => ?_⟩
  · cases q with
    | none => rfl
    | some m =>
      simp only [block?, kind?, node]
      cases r.node? m <;> rfl
  · simp only [parent?, node]
    cases r.node? m <;> rfl

theorem Region.node?_pushNode (node : Node) (m : NodeId) : (r.pushNode node).node? m =
    if m = ⟨r.nodes.size⟩ then some node else r.node? m := by
  obtain ⟨i⟩ := m
  simp only [pushNode, node?, Array.getElem?_push, NodeId.mk.injEq]

theorem Region.block?_pushNode (node : Node) (q : Option NodeId) : (r.pushNode node).block? q =
    if q = some ⟨r.nodes.size⟩ then some node.kind.body else r.block? q := by
  cases q with
  | none => rfl
  | some m =>
    simp only [block?, kind?, node?_pushNode, Option.some.injEq]
    split <;> rfl

theorem Region.parent?_pushNode {node : Node} (top : node.parent = none) (m : NodeId) :
    (r.pushNode node).parent? m = r.parent? m := by
  simp only [parent?, node?_pushNode]
  split
  next new =>
    have unknown : r.node? m = none := by
      rw [new]
      simp [node?]
    simp [unknown, top]
  next => rfl

theorem Region.pushNode_gains {node : Node} (empty : node.kind.body = [])
    (top : node.parent = none) : r.Gains (r.pushNode node) :=
  ⟨by simp [pushNode], fun q => empty ▸ block?_pushNode node q, parent?_pushNode top⟩

/-- A new node has the block that it is created with, and is in no block that was there before. -/
theorem Region.addNode_blocks (kind : NodeKind) (operands : List ValueId)
    (results : List (Option String × ValueType)) (span : Span) :
    (r.addNode kind operands results span).2.nodes.size = r.nodes.size + 1 ∧
      (∀ q, (r.addNode kind operands results span).2.block? q =
        if q = some ⟨r.nodes.size⟩ then some kind.body else r.block? q) ∧
      ∀ m, (r.addNode kind operands results span).2.parent? m = r.parent? m := by
  obtain ⟨news, made, -⟩ := r.addResults_eq ⟨r.nodes.size⟩ 0 results
  let t : Region := { r with values := r.values ++ news.toArray }
  let node : Node := ⟨kind, operands, (List.range' r.values.size results.length).map ValueId.mk, none,
    none, [], span⟩
  have same : (r.addNode kind operands results span).2 = t.pushNode node := by
    simp only [addNode, made]
    rfl
  rw [same]
  exact ⟨by simp [pushNode, t], @block?_pushNode t node, @parent?_pushNode t node rfl⟩

theorem Region.addNode_gains {kind : NodeKind} (empty : kind.body = []) (operands : List ValueId)
    (results : List (Option String × ValueType)) (span : Span) :
    r.Gains (r.addNode kind operands results span).2 := by
  obtain ⟨size, block, parent⟩ := r.addNode_blocks kind operands results span
  exact ⟨size, fun q => empty ▸ block q, parent⟩

theorem Region.addLoop_gains (iv : Option String) (lower upper : Int) (span : Span) :
    r.Gains (r.addLoop iv lower upper span).2 := by
  have gains := @pushNode_gains (r.addValue iv (.scalar "index") (.inductionVar ⟨r.nodes.size⟩)).2
    ⟨.loop ⟨r.values.size⟩ lower upper [], [], [], none, none, [], span⟩ rfl rfl
  exact ⟨gains.size, gains.block, gains.parent⟩

end Blocks

section Tidy

variable {r s : Region} {n anchor : NodeId} {block : Option NodeId}

theorem Region.child_congr (h : ∀ p, s.block? (some p) = r.block? (some p)) :
    s.Child = r.Child := by
  funext p c
  exact propext (by rw [child_iff, child_iff, h])

/-- A forest whose nodes name other blocks only as they stand in them. -/
theorem Region.Tidy.sameBlocks (tidy : r.Tidy) (h : r.SameBlocks s) : s.Tidy := by
  have child : s.Child = r.Child := child_congr fun p => h.block (some p)
  refine ⟨⟨fun q ns hns m hm => ?_, fun q ns hns => ?_, fun q ns hns m hm => ?_,
    fun p c hc => ?_⟩, fun m p hp => ?_⟩
  · rw [h.size]
    exact tidy.known q ns (h.block q ▸ hns) m hm
  · exact tidy.once q ns (h.block q ▸ hns)
  · rw [h.parent]
    exact tidy.named q ns (h.block q ▸ hns) m hm
  · unfold Within
    rw [child] at hc ⊢
    exact tidy.acyclic p c hc
  · rw [child]
    rw [h.parent] at hp
    exact tidy.held m p hp

theorem Region.Gains.block_of (h : r.Gains s) {q : Option NodeId} {ns : List NodeId}
    (hns : s.block? q = some ns) : ns = [] ∨ r.block? q = some ns := by
  rw [h.block] at hns
  split at hns
  next => exact Or.inl (Option.some.inj hns).symm
  next => exact Or.inr hns

theorem Region.Tidy.gains (tidy : r.Tidy) (h : r.Gains s) : s.Tidy := by
  have child : s.Child = r.Child := by
    funext p c
    apply propext
    rw [child_iff, child_iff, h.block]
    split
    next new =>
      have unknown : r.block? (some p) = none := by
        rw [new]
        simp [block?, kind?, node?]
      simp [unknown]
    next => rfl
  refine ⟨⟨fun q ns hns m hm => ?_, fun q ns hns => ?_, fun q ns hns m hm => ?_,
    fun p c hc => ?_⟩, fun m p hp => ?_⟩
  · rcases h.block_of hns with rfl | hns
    · cases hm
    · have known := tidy.known q ns hns m hm
      rw [h.size]
      omega
  · rcases h.block_of hns with rfl | hns
    · exact List.nodup_nil
    · exact tidy.once q ns hns
  · rcases h.block_of hns with rfl | hns
    · cases hm
    · rw [h.parent]
      exact tidy.named q ns hns m hm
  · unfold Within
    rw [child] at hc ⊢
    exact tidy.acyclic p c hc
  · rw [child]
    rw [h.parent] at hp
    exact tidy.held m p hp

theorem Region.Inserts.child_iff (h : r.Inserts block n s) {p c : NodeId} :
    s.Child p c ↔ r.Child p c ∨ (block = some p ∧ c = n) := by
  obtain ⟨x, y, old, new⟩ := h.place
  rw [Region.child_iff, Region.child_iff]
  by_cases same : some p = block
  · rw [same, old, new]
    simp [or_left_comm, or_comm]
  · rw [h.others _ same]
    simp [Ne.symm same]

/-- What a node that has been put somewhere brings along is all that is new there. -/
theorem Region.Inserts.within (h : r.Inserts block n s) {t m : NodeId} (within : s.Within t m) :
    r.Within t m ∨ ∃ p, block = some p ∧ r.Within t p ∧ r.Within n m := by
  induction within with
  | refl => exact Or.inl (Within.refl r t)
  | @tail p c _ hc ih =>
    rcases h.child_iff.mp hc with old | ⟨here, rfl⟩
    · rcases ih with inside | ⟨p, here, outer, inner⟩
      · exact Or.inl (inside.tail old)
      · exact Or.inr ⟨p, here, outer, inner.tail old⟩
    · rcases ih with inside | ⟨q, here', outer, -⟩
      · exact Or.inr ⟨p, here, inside, Within.refl r c⟩
      · exact Or.inr ⟨q, here', outer, Within.refl r c⟩

theorem Region.Tidy.inserts (tidy : r.Tidy) (h : r.Inserts block n s) (takes : r.Takes block n) :
    s.Tidy := by
  obtain ⟨free, outside⟩ := takes
  obtain ⟨x, y, old, new⟩ := h.place
  have other : ∀ {q ns m}, r.block? q = some ns → m ∈ ns → m ≠ n := by
    intro q ns m hns hm same
    exact free q ns hns (same ▸ hm)
  have entry : ∀ {q ns}, s.block? q = some ns → (q = block ∧ ns = x ++ n :: y) ∨
      r.block? q = some ns := by
    intro q ns hns
    by_cases same : q = block
    · rw [same, new] at hns
      exact Or.inl ⟨same, (Option.some.inj hns).symm⟩
    · rw [h.others q same] at hns
      exact Or.inr hns
  have member : ∀ {m}, m ∈ x ++ n :: y → m = n ∨ m ∈ x ++ y := by
    intro m hm
    rw [List.mem_append, List.mem_cons] at hm
    rw [List.mem_append]
    tauto
  refine ⟨⟨fun q ns hns m hm => ?_, fun q ns hns => ?_, fun q ns hns m hm => ?_,
    fun p c hc back => ?_⟩, fun m p hp => ?_⟩
  · rw [h.size]
    rcases entry hns with ⟨-, rfl⟩ | hns
    · rcases member hm with rfl | hm
      · exact h.known
      · exact tidy.known _ _ old m hm
    · exact tidy.known q ns hns m hm
  · rcases entry hns with ⟨-, rfl⟩ | hns
    · refine List.nodup_middle.mpr (List.nodup_cons.mpr ⟨?_, tidy.once _ _ old⟩)
      exact free _ _ old
    · exact tidy.once q ns hns
  · rw [h.parent]
    rcases entry hns with ⟨rfl, rfl⟩ | hns
    · rcases member hm with rfl | hm
      · rw [if_pos rfl]
      · rw [if_neg (other old hm)]
        exact tidy.named _ _ old m hm
    · rw [if_neg (other hns hm)]
      exact tidy.named q ns hns m hm
  · -- A circle would have to go through the node, and so lead from it to the block it was put into.
    rcases h.child_iff.mp hc with inside | ⟨here, rfl⟩
    · rcases h.within back with up | ⟨q, here, outer, inner⟩
      · exact tidy.acyclic p c inside up
      · exact outside q here ((inner.tail inside).trans outer)
    · rcases h.within back with up | ⟨q, here', outer, inner⟩
      · exact outside p here up
      · exact outside q here' outer
  · rw [h.parent] at hp
    rw [h.child_iff]
    split at hp
    next same => exact Or.inr ⟨hp, same⟩
    next => exact Or.inl (tidy.held m p hp)

theorem Region.Tidy.moves (tidy : r.Tidy) (h : r.Moves n anchor s) : s.Tidy := by
  obtain ⟨block, ns, x, y, old, hn, rest, new, others⟩ := h.place
  have perm : (x ++ n :: anchor :: y).Perm ns := by
    have front := (List.perm_cons_erase hn).symm
    rw [rest] at front
    exact List.perm_middle.trans front
  -- Each block has the same nodes as before, though perhaps in another order.
  have entry : ∀ {q ms}, s.block? q = some ms → ∃ before, r.block? q = some before ∧
      ms.Perm before := by
    intro q ms hms
    by_cases same : q = block
    · rw [same, new] at hms
      exact ⟨ns, same ▸ old, Option.some.inj hms ▸ perm⟩
    · rw [others q same] at hms
      exact ⟨ms, hms, .refl ms⟩
  have child : s.Child = r.Child := by
    funext p c
    apply propext
    rw [child_iff, child_iff]
    by_cases same : some p = block
    · rw [same, old, new]
      simp only [Option.some.injEq, exists_eq_left']
      exact perm.mem_iff
    · rw [others _ same]
  refine ⟨⟨fun q ms hms m hm => ?_, fun q ms hms => ?_, fun q ms hms m hm => ?_,
    fun p c hc => ?_⟩, fun m p hp => ?_⟩
  · obtain ⟨before, hb, same⟩ := entry hms
    rw [h.size]
    exact tidy.known q before hb m (same.mem_iff.mp hm)
  · obtain ⟨before, hb, same⟩ := entry hms
    exact same.nodup_iff.mpr (tidy.once q before hb)
  · obtain ⟨before, hb, same⟩ := entry hms
    rw [h.parent]
    exact tidy.named q before hb m (same.mem_iff.mp hm)
  · unfold Within
    rw [child] at hc ⊢
    exact tidy.acyclic p c hc
  · rw [child]
    rw [h.parent] at hp
    exact tidy.held m p hp

end Tidy

end Staging
