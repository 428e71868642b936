import Staging.Proofs.Blocks
import Staging.Proofs.Creating

namespace Staging

/-- What is done to a region, bit by bit, to make it legal: a node is changed up to its attributes
and its place in the source, all levels are, the body is, or the region is marked; or a node is
created, with at most one result, which has a fresh name. -/
inductive Region.Alters (r : Region) : Region → Prop
  | node (n : NodeId) {f : Node → Node}
      (keep : ∀ node, (f node).attrs = node.attrs ∧ (f node).span = node.span) :
    Alters r (r.modifyNode n f)
  | levels (level : NodeId → Option Nat) : Alters r (r.withLevels level)
  | body (body : List NodeId) : Alters r { r with body := body }
  | mark : Alters r { r with dataflow := true }
  | create (kind : NodeKind) (operands : List ValueId) {entries : List (String × ValueType)}
      (one : entries.length ≤ 1) (fresh : ∀ e ∈ entries, e.1 = r.freshName forwardStem)
      (span : Span) :
    Alters r (r.addNode kind operands (entries.map fun e => (some e.1, e.2)) span).2

/-- What becomes of a region by any number of such steps. -/
def Region.Evolves : Region → Region → Prop :=
  Relation.ReflTransGen Region.Alters

section Steps

variable {r s t : Region} {n : NodeId}

theorem Region.Alters.evolves (h : r.Alters s) : r.Evolves s :=
  .single h

theorem Region.Evolves.refl (r : Region) : r.Evolves r :=
  Relation.ReflTransGen.refl

theorem Region.Evolves.trans (h : r.Evolves s) (h' : s.Evolves t) : r.Evolves t :=
  Relation.ReflTransGen.trans h h'

theorem Region.setLevel_alters (level : Option Nat) : r.Alters (r.setLevel n level) :=
  .node n fun _ => ⟨rfl, rfl⟩

theorem Region.setParent_alters (parent : Option NodeId) : r.Alters (r.setParent n parent) :=
  .node n fun _ => ⟨rfl, rfl⟩

theorem Region.replaceOperand_alters {old new : ValueId} :
    r.Alters (r.replaceOperand old new n).1 :=
  .node n fun _ => ⟨rfl, rfl⟩

theorem Region.setBlock_alters (block : List NodeId) (parent : Option NodeId) :
    r.Alters (r.setBlock block parent) := by
  cases parent with
  | none => exact .body block
  | some p => exact .node p fun _ => ⟨rfl, rfl⟩

theorem Region.attach_evolves {parent : Option NodeId} {place : List NodeId → Option (List NodeId)}
    {done : Bool} (h : r.attach parent n place = some (s, done)) : r.Evolves s := by
  unfold attach at h
  obtain ⟨block, -, h⟩ := Option.bind_eq_some_iff.mp h
  obtain ⟨holds, -, h⟩ := Option.bind_eq_some_iff.mp h
  split at h
  · obtain ⟨node, -, h⟩ := Option.bind_eq_some_iff.mp h
    cases h
    exact (setBlock_alters _ parent).evolves.trans (setParent_alters parent).evolves
  · cases h
    exact .refl r

theorem Region.insertBefore_evolves {anchor : NodeId} {done : Bool}
    (h : r.insertBefore anchor n = some (s, done)) : r.Evolves s := by
  unfold insertBefore at h
  obtain ⟨node, -, h⟩ := Option.bind_eq_some_iff.mp h
  obtain ⟨block, -, h⟩ := Option.bind_eq_some_iff.mp h
  split at h
  · exact attach_evolves h
  · cases h
    exact .refl r

theorem Region.moveBefore_evolves {anchor : NodeId} {done : Bool}
    (h : r.moveBefore n anchor = some (s, done)) : r.Evolves s := by
  unfold moveBefore at h
  split at h
  · cases h
    exact .refl r
  obtain ⟨node, -, h⟩ := Option.bind_eq_some_iff.mp h
  obtain ⟨target, -, h⟩ := Option.bind_eq_some_iff.mp h
  split at h
  · cases h
    exact .refl r
  obtain ⟨block, -, h⟩ := Option.bind_eq_some_iff.mp h
  split at h
  · cases h
    exact (setBlock_alters _ _).evolves
  · cases h
    exact .refl r

/-- What every step of a fold keeps, the whole fold keeps. -/
theorem foldlM_keeps {σ α : Type} {P : σ → Prop} {f : σ → α → Option σ}
    (step : ∀ x a y, P x → f x a = some y → P y) {as : List α} {x y : σ} (hx : P x)
    (h : as.foldlM f x = some y) : P y := by
  induction as generalizing x with
  | nil =>
    cases h
    exact hx
  | cons a as ih =>
    rw [List.foldlM_cons] at h
    obtain ⟨z, hz, h⟩ := Option.bind_eq_some_iff.mp h
    exact ih (step x a z hx hz) h

/-- Where every step of a fold makes a region evolve, the whole fold does. -/
theorem foldlM_evolves {σ α : Type} (region : σ → Region) {f : σ → α → Option σ}
    (step : ∀ x a y, f x a = some y → (region x).Evolves (region y)) {as : List α} {x y : σ}
    (h : as.foldlM f x = some y) : (region x).Evolves (region y) :=
  foldlM_keeps (P := fun y => (region x).Evolves (region y))
    (fun z a y evolves hy => evolves.trans (step z a y hy)) (.refl _) h

theorem Region.replaceUses_evolves {old new : ValueId} {scope : NodeId} {count : Nat}
    (h : r.replaceUses old new scope = some (s, count)) : r.Evolves s :=
  replaceUses_keeps (.refl r) (fun _ _ evolves => evolves.trans replaceOperand_alters.evolves) h

end Steps

section Forward

variable {s t : Forwarding} {chain : CopyChain} {type : ValueType} {span : Span}

theorem Forwarding.addBuffer_inv {buffer : ValueId}
    (h : s.addBuffer type span = some (buffer, t)) : ∃ done,
      (s.region.addNode (.alloc false) [] [(some (s.region.freshName forwardStem), type)] span).2.insertAt
        none s.slot ⟨s.region.nodes.size⟩ = some (t.region, done) ∧
      t.done.copies = s.done.copies := by
  unfold addBuffer at h
  obtain ⟨⟨r, done⟩, insert, h⟩ := Option.bind_eq_some_iff.mp h
  obtain ⟨result, -, h⟩ := Option.bind_eq_some_iff.mp h
  cases h
  exact ⟨done, insert, rfl⟩

theorem Forwarding.place_inv {consumer copy : NodeId} {level : Nat}
    (h : s.place consumer copy level = some t) : ∃ done,
      (s.region.setLevel copy (some level)).insertBefore consumer copy = some (t.region, done) ∧
      t.done.copies = s.done.copies + 1 := by
  unfold place at h
  obtain ⟨⟨r, done⟩, insert, h⟩ := Option.bind_eq_some_iff.mp h
  cases h
  exact ⟨done, insert, rfl⟩

/-- A copy goes into a buffer that is created for it, or gives a value of its own. -/
theorem Forwarding.addCopy_inv {current last : ValueId} {level : Nat}
    (h : addCopy chain type span (s, current) level = some (t, last)) :
    (∃ buffer u, s.addBuffer type span = some (buffer, u) ∧
      { u with region := (u.region.addNode .copy [current, buffer] [] span).2 }.place chain.consumer
        ⟨u.region.nodes.size⟩ level = some t) ∨
    { s with region := (s.region.addNode .copy [current]
      [(some (s.region.freshName forwardStem), type)] span).2 }.place chain.consumer
        ⟨s.region.nodes.size⟩ level = some t := by
  unfold addCopy at h
  dsimp only at h
  split at h
  · obtain ⟨⟨buffer, u⟩, add, h⟩ := Option.bind_eq_some_iff.mp h
    obtain ⟨v, place, h⟩ := Option.bind_eq_some_iff.mp h
    cases h
    exact Or.inl ⟨buffer, u, add, place⟩
  · obtain ⟨result, -, h⟩ := Option.bind_eq_some_iff.mp h
    obtain ⟨v, place, h⟩ := Option.bind_eq_some_iff.mp h
    cases h
    exact Or.inr place

theorem Forwarding.addChain_inv (h : s.addChain chain = some t) : ∃ type span u last count,
    chain.levels.foldlM (addCopy chain type span) (s, chain.carrier.id) = some (u, last) ∧
      u.region.replaceUses chain.carrier.id last chain.consumer = some (t.region, count) ∧
      t.done.copies = u.done.copies := by
  unfold addChain at h
  obtain ⟨value, -, h⟩ := Option.bind_eq_some_iff.mp h
  obtain ⟨producer, -, h⟩ := Option.bind_eq_some_iff.mp h
  obtain ⟨⟨u, last⟩, copies, h⟩ := Option.bind_eq_some_iff.mp h
  obtain ⟨⟨r, count⟩, uses, h⟩ := Option.bind_eq_some_iff.mp h
  cases h
  exact ⟨_, _, u, last, count, copies, uses, rfl⟩

theorem Region.forward_inv {r s : Region} {levels : Levels} {b : Bypasses} {f : Forwarded}
    (h : r.forward levels b = some (s, f)) : ∃ leveled state,
      levels.applyTo r.clearLevels = some leveled ∧
      b.chains.foldlM Forwarding.addChain (.start leveled) = some state ∧
      s = state.region ∧ f = state.done := by
  unfold forward at h
  obtain ⟨leveled, apply, h⟩ := Option.bind_eq_some_iff.mp h
  obtain ⟨state, chains, h⟩ := Option.bind_eq_some_iff.mp h
  cases h
  exact ⟨leveled, state, apply, chains, rfl, rfl⟩

/-- Writing levels into a region changes one level after another. -/
theorem Levels.applyTo_keeps {P : Region → Prop} {levels : Levels} {r s : Region} (start : P r)
    (step : ∀ r n level, P r → P (r.setLevel n (some level))) (h : levels.applyTo r = some s) :
    P s := by
  refine foldlM_keeps (fun x entry y hx hy => ?_) start h
  obtain ⟨node, -, hy⟩ := Option.bind_eq_some_iff.mp hy
  cases hy
  exact step x entry.1 entry.2 hx

theorem Forwarding.addBuffer_evolves {buffer : ValueId}
    (h : s.addBuffer type span = some (buffer, t)) : s.region.Evolves t.region := by
  obtain ⟨done, insert, -⟩ := addBuffer_inv h
  have made := @Region.Alters.create s.region (.alloc false) []
    [(s.region.freshName forwardStem, type)] le_rfl (by simp) span
  exact made.evolves.trans (Region.attach_evolves insert)

theorem Forwarding.place_evolves {consumer copy : NodeId} {level : Nat}
    (h : s.place consumer copy level = some t) : s.region.Evolves t.region := by
  obtain ⟨done, insert, -⟩ := place_inv h
  exact (Region.setLevel_alters _).evolves.trans (Region.insertBefore_evolves insert)

theorem Forwarding.addCopy_evolves {current last : ValueId} {level : Nat}
    (h : addCopy chain type span (s, current) level = some (t, last)) :
    s.region.Evolves t.region := by
  rcases addCopy_inv h with ⟨buffer, u, add, place⟩ | place
  · have made := @Region.Alters.create u.region .copy [current, buffer] [] (Nat.zero_le 1)
      (by simp) span
    exact (addBuffer_evolves add).trans (made.evolves.trans (place_evolves place))
  · have made := @Region.Alters.create s.region .copy [current]
      [(s.region.freshName forwardStem, type)] le_rfl (by simp) span
    exact made.evolves.trans (place_evolves place)

theorem Forwarding.addChain_evolves (h : s.addChain chain = some t) :
    s.region.Evolves t.region := by
  obtain ⟨type, span, u, last, count, copies, uses, -⟩ := addChain_inv h
  refine .trans ?_ (Region.replaceUses_evolves uses)
  exact foldlM_evolves (fun state : Forwarding × ValueId => state.1.region)
    (fun _ _ _ => addCopy_evolves) copies

end Forward

section Legalize

variable {r s : Region} {o : Options}

theorem Region.forward_evolves {levels : Levels} {b : Bypasses} {f : Forwarded}
    (h : r.forward levels b = some (s, f)) : r.Evolves s := by
  obtain ⟨leveled, state, apply, chains, rfl, -⟩ := forward_inv h
  have cleared : r.Evolves r.clearLevels := clearLevels_eq r ▸ (Alters.levels _).evolves
  have marked : r.clearLevels.Evolves leveled :=
    Levels.applyTo_keeps (.refl _)
      (fun x n level evolves => evolves.trans (setLevel_alters (some level)).evolves) apply
  exact cleared.trans (marked.trans
    (foldlM_evolves Forwarding.region (fun _ _ _ => Forwarding.addChain_evolves) chains))

theorem Region.gather_evolves {count : Nat} (h : r.gather = some (s, count)) : r.Evolves s := by
  unfold gather at h
  refine foldlM_evolves Prod.fst (fun state group state' hg => ?_) h
  unfold gatherGroup at hg
  split at hg
  · refine foldlM_evolves Prod.fst (fun state n state' hm => ?_) hg
    obtain ⟨carried, -, hm⟩ := Option.bind_eq_some_iff.mp hm
    refine foldlM_evolves Prod.fst (fun state n state' hc => ?_) hm
    obtain ⟨⟨moved, done⟩, move, hc⟩ := Option.bind_eq_some_iff.mp hc
    cases hc
    exact moveBefore_evolves move
  · cases hg
    exact .refl _

theorem Region.restage_evolves (merges : List (Nat × Nat)) (gran : Nat) :
    r.Evolves (r.restage merges gran).1 := by
  refine foldl_keeps (P := r.Evolves) (.refl r) fun x evolves n _ => ?_
  unfold restageNode
  split
  · exact evolves.trans (setLevel_alters _).evolves
  · exact evolves

theorem Region.compact_evolves {b : Bypasses} {c : Compacted}
    (h : r.compact b o = some (s, c)) : r.Evolves s := by
  unfold compact at h
  obtain ⟨⟨gathered, moved⟩, gather, h⟩ := Option.bind_eq_some_iff.mp h
  dsimp only at h
  split at h
  · cases h
    exact (gather_evolves gather).trans ((restage_evolves _ _).trans Alters.mark.evolves)
  · cases h
    exact (gather_evolves gather).trans Alters.mark.evolves

end Legalize

/-- The nodes of a region are still there, with their attributes, where they stood in the source. -/
theorem Region.Evolves.node {r s : Region} (h : r.Evolves s) {n : NodeId} {node : Node}
    (hn : r.node? n = some node) :
    ∃ new, s.node? n = some new ∧ new.attrs = node.attrs ∧ new.span = node.span := by
  induction h with
  | refl => exact ⟨node, hn, rfl, rfl⟩
  | tail _ step ih =>
    obtain ⟨old, ho, attrs, span⟩ := ih
    cases step with
    | node m keep =>
      rw [node?_modifyNode]
      split
      · exact ⟨_, congrArg _ ho, (keep old).1.trans attrs, (keep old).2.trans span⟩
      · exact ⟨old, ho, attrs, span⟩
    | levels level =>
      rw [node?_withLevels]
      exact ⟨_, congrArg _ ho, attrs, span⟩
    | body | mark => exact ⟨old, ho, attrs, span⟩
    | create =>
      refine ⟨old, ?_, attrs, span⟩
      have known := index_lt_of_node? ho
      rw [addNode_named, node?_extendWith, if_neg, ho]
      rintro rfl
      exact absurd known (lt_irrefl _)

end Staging
