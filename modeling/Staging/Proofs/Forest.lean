import Staging.Proofs.Nesting

namespace Staging

/-- The blocks of a region form a forest: each node stands at most once, in the block that its
parent names, and not within itself. Loops may be younger than what stands in them. -/
structure Region.Forest (r : Region) : Prop where
  known : ∀ block ns, r.block? block = some ns → ∀ n ∈ ns, n.index < r.nodes.size
  once : ∀ block ns, r.block? block = some ns → ns.Nodup
  named : ∀ block ns, r.block? block = some ns → ∀ n ∈ ns, r.parent? n = block
  acyclic : ∀ p c, r.Child p c → ¬ r.Within c p

/-- Moreover, a node that names a parent stands in its block, so that one without a parent is
either in the body or in no block. -/
structure Region.Tidy (r : Region) : Prop extends r.Forest where
  held : ∀ n p, r.parent? n = some p → r.Child p n

/-- Going from a node from parent to parent ends at `t`. -/
inductive Region.Climbs (r : Region) : NodeId → NodeId → Prop
  | here {n : NodeId} (top : r.parent? n = none) : Climbs r n n
  | up {n p t : NodeId} (inside : r.parent? n = some p) (rest : Climbs r p t) : Climbs r n t

section Forest

variable {r : Region} {t u n p c : NodeId}

theorem Region.child_iff : r.Child p c ↔ ∃ ns, r.block? (some p) = some ns ∧ c ∈ ns := by
  unfold Child bodyOf block?
  cases block : r.kind? p with
  | none => simp [block]
  | some kind => simp [block]

theorem Region.child_known (h : r.Child p c) : p.index < r.nodes.size :=
  isLoop_known (isLoop_of_child h)

theorem Region.Forest.childKnown (forest : r.Forest) (h : r.Child p c) :
    c.index < r.nodes.size := by
  obtain ⟨ns, block, hc⟩ := child_iff.mp h
  exact forest.known _ ns block c hc

theorem Region.Forest.childParent (forest : r.Forest) (h : r.Child p c) :
    r.parent? c = some p := by
  obtain ⟨ns, block, hc⟩ := child_iff.mp h
  exact forest.named _ ns block c hc

theorem Region.Forest.bodyKnown (forest : r.Forest) (h : n ∈ r.body) : n.index < r.nodes.size :=
  forest.known none r.body rfl n h

theorem Region.Forest.bodyNodup (forest : r.Forest) : r.body.Nodup :=
  forest.once none r.body rfl

theorem Region.Forest.bodyParent (forest : r.Forest) (h : n ∈ r.body) : r.parent? n = none :=
  forest.named none r.body rfl n h

/-- Of two nodes around a third, one is around the other. -/
theorem Region.Forest.comparable (forest : r.Forest) (ht : r.Within t n) (hu : r.Within u n) :
    r.Within t u ∨ r.Within u t := by
  induction ht generalizing u with
  | refl => exact Or.inr hu
  | tail outer hc ih =>
    rcases Relation.ReflTransGen.cases_tail hu with same | ⟨q, inner, hq⟩
    · rw [← same]
      exact Or.inl (outer.tail hc)
    · have parent := (forest.childParent hq).symm.trans (forest.childParent hc)
      rw [Option.some.inj parent] at inner
      exact ih inner

theorem Region.Nested.forest (nested : r.Nested) : r.Forest where
  known block ns h n hn := by
    cases block with
    | none => exact nested.bodyKnown n (Option.some.inj h ▸ hn)
    | some p => exact nested.childKnown p n (child_iff.mpr ⟨ns, h, hn⟩)
  once block ns h := by
    cases block with
    | none => exact Option.some.inj h ▸ nested.bodyNodup
    | some p =>
      have body : r.bodyOf p = ns := by
        change (r.block? (some p)).getD [] = ns
        rw [h, Option.getD_some]
      exact body ▸ nested.childNodup p
  named block ns h n hn := by
    cases block with
    | none => exact nested.bodyParent n (Option.some.inj h ▸ hn)
    | some p => exact nested.childParent p n (child_iff.mpr ⟨ns, h, hn⟩)
  acyclic p c h back := by
    have older := nested.childDeeper p c h
    have younger := nested.index_le back
    omega

end Forest

section Depth

variable {r : Region} {t u n p c : NodeId}

open Classical in
/-- The number of nodes that a node is within, with itself among them. -/
noncomputable def Region.depth (r : Region) (n : NodeId) : Nat :=
  ((Finset.range r.nodes.size).filter fun i => r.Within ⟨i⟩ n).card

section

open Classical

theorem Region.depth_le (r : Region) (n : NodeId) : r.depth n ≤ r.nodes.size := by
  have all := Finset.card_filter_le (Finset.range r.nodes.size) fun i => r.Within ⟨i⟩ n
  rwa [Finset.card_range] at all

theorem Region.one_le_depth (known : n.index < r.nodes.size) : 1 ≤ r.depth n := by
  apply Finset.card_pos.mpr
  exact ⟨n.index, Finset.mem_filter.mpr ⟨Finset.mem_range.mpr known, Within.refl r n⟩⟩

theorem Region.Forest.depth_lt (forest : r.Forest) (h : r.Child p c) : r.depth p < r.depth c := by
  apply Finset.card_lt_card
  refine Finset.ssubset_iff_of_subset ?_ |>.mpr ⟨c.index, ?_, ?_⟩
  · intro i hi
    obtain ⟨range, within⟩ := Finset.mem_filter.mp hi
    exact Finset.mem_filter.mpr ⟨range, within.tail h⟩
  · have known := forest.childKnown h
    exact Finset.mem_filter.mpr ⟨Finset.mem_range.mpr known, Within.refl r c⟩
  · intro hi
    exact forest.acyclic p c h (Finset.mem_filter.mp hi).2

end

/-- As far as nodes are deep, it does not matter how much deeper a walk could go. -/
theorem Region.Forest.walkWithin_eq (forest : r.Forest) {d e : Nat}
    (hd : r.nodes.size < r.depth t + d) (he : r.nodes.size < r.depth t + e) :
    r.walkWithin d t = r.walkWithin e t := by
  have low := r.depth_le t
  induction d generalizing e t with
  | zero => omega
  | succ d ih =>
    cases e with
    | zero => omega
    | succ e =>
      rw [walkWithin, walkWithin]
      congr 1
      apply List.flatMap_congr
      intro c hc
      have deeper := forest.depth_lt (show r.Child t c from hc)
      exact ih (by omega) (by omega) (r.depth_le c)

/-- A walk visits a node and then walks through all that stands directly in it. -/
theorem Region.Forest.walk_eq (forest : r.Forest) (known : t.index < r.nodes.size) :
    r.walk t = t :: (r.bodyOf t).flatMap r.walk := by
  obtain ⟨d, hd⟩ : ∃ d, r.nodes.size = d + 1 := ⟨r.nodes.size - 1, by omega⟩
  have here := one_le_depth known
  unfold walk
  rw [hd, walkWithin]
  congr 1
  apply List.flatMap_congr
  intro c hc
  have deeper := forest.depth_lt (show r.Child t c from hc)
  exact forest.walkWithin_eq (by omega) (by omega)

/-- What holds of every node once it holds of all that stands directly in it. -/
theorem Region.Forest.inward (forest : r.Forest) {P : NodeId → Prop}
    (step : ∀ t, t.index < r.nodes.size → (∀ c, r.Child t c → P c) → P t)
    (known : t.index < r.nodes.size) : P t := by
  obtain ⟨d, hd⟩ : ∃ d, r.nodes.size ≤ r.depth t + d := ⟨r.nodes.size, by omega⟩
  induction d generalizing t with
  | zero =>
    refine step t known fun c hc => ?_
    have deeper := forest.depth_lt hc
    have low := r.depth_le c
    omega
  | succ d ih =>
    refine step t known fun c hc => ?_
    have deeper := forest.depth_lt hc
    exact ih (forest.childKnown hc) (by omega)

/-- A walk meets exactly the nodes within its root. -/
theorem Region.Forest.mem_walk (forest : r.Forest) (known : t.index < r.nodes.size) :
    n ∈ r.walk t ↔ r.Within t n := by
  refine forest.inward (P := fun t => n ∈ r.walk t ↔ r.Within t n) (fun t known inner => ?_) known
  rw [forest.walk_eq known, within_iff, List.mem_cons, List.mem_flatMap]
  apply or_congr_right
  exact exists_congr fun c => and_congr_right fun hc => inner c hc

/-- Nodes of one block have nothing in common within them. -/
theorem Region.Forest.apart (forest : r.Forest) {block : Option NodeId} {ns : List NodeId}
    (h : r.block? block = some ns) {a b : NodeId} (ha : a ∈ ns) (hb : b ∈ ns)
    (hna : r.Within a n) (hnb : r.Within b n) : a = b := by
  -- If one of them is around the other, then so is the parent of both, or there is none.
  have outer : ∀ {a b : NodeId}, a ∈ ns → b ∈ ns → r.Within a b → a = b := by
    intro a b ha hb within
    rcases Relation.ReflTransGen.cases_tail within with same | ⟨q, inner, hq⟩
    · exact same.symm
    · have parent := (forest.childParent hq).symm.trans (forest.named _ _ h b hb)
      rw [← parent] at h
      exact absurd inner (forest.acyclic q a (child_iff.mpr ⟨ns, h, ha⟩))
  rcases forest.comparable hna hnb with within | within
  · exact outer ha hb within
  · exact (outer hb ha within).symm

theorem Region.Forest.top_unique (forest : r.Forest) (ht : t ∈ r.body) (hu : u ∈ r.body)
    (hn : r.Within t n) (hn' : r.Within u n) : t = u := by
  have block : r.block? none = some r.body := rfl
  exact forest.apart block ht hu hn hn'

theorem Region.Forest.eq_of_within_body (forest : r.Forest) (ht : t ∈ r.body) (hn : n ∈ r.body)
    (h : r.Within t n) : n = t :=
  forest.top_unique hn ht (Within.refl r n) h

theorem Region.Forest.topWithin_eq (forest : r.Forest) (ht : t ∈ r.body) (h : r.Within t n) {d : Nat}
    (deep : r.depth n ≤ d) : r.topWithin d n = t := by
  induction h generalizing d with
  | refl =>
    have top := forest.bodyParent ht
    unfold parent? at top
    cases d <;> simp [topWithin, top]
  | @tail p n outer hc ih =>
    have inside := forest.childParent hc
    have deeper := forest.depth_lt hc
    obtain ⟨d, rfl⟩ : ∃ e, d = e + 1 := ⟨d - 1, by omega⟩
    unfold parent? at inside
    simp only [topWithin, inside]
    exact ih (by omega)

/-- The outermost node around a node is the node of the body that it is within. -/
theorem Region.Forest.topLevel_eq (forest : r.Forest) (ht : t ∈ r.body) (h : r.Within t n) :
    r.topLevel n = t :=
  forest.topWithin_eq ht h (r.depth_le n)

theorem Region.Forest.nodup_walks (forest : r.Forest) {block : Option NodeId} {ns : List NodeId}
    (h : r.block? block = some ns) (walks : ∀ n ∈ ns, (r.walk n).Nodup) :
    (ns.flatMap r.walk).Nodup := by
  refine List.nodup_flatMap.mpr ⟨walks, ?_⟩
  apply (forest.once _ _ h).imp_of_mem
  intro a b ha hb ne n hna hnb
  have hna' := (forest.mem_walk (forest.known _ _ h a ha)).mp hna
  have hnb' := (forest.mem_walk (forest.known _ _ h b hb)).mp hnb
  exact ne (forest.apart h ha hb hna' hnb')

theorem Region.Forest.nodup_walk (forest : r.Forest) (known : t.index < r.nodes.size) :
    (r.walk t).Nodup := by
  refine forest.inward (P := fun t => (r.walk t).Nodup) (fun t known inner => ?_) known
  rw [forest.walk_eq known]
  refine List.nodup_cons.mpr ⟨fun within => ?_, ?_⟩
  · obtain ⟨c, hc, back⟩ := List.mem_flatMap.mp within
    exact forest.acyclic t c hc ((forest.mem_walk (forest.childKnown hc)).mp back)
  · obtain ⟨node, hn⟩ := node?_eq_some known
    have block : r.block? (some t) = some (r.bodyOf t) := by
      simp [block?, bodyOf, kind?, hn]
    exact forest.nodup_walks block inner

/-- Walking the body visits exactly the nodes within the nodes of the body. -/
theorem Region.Forest.mem_attached (forest : r.Forest) :
    n ∈ r.attached ↔ ∃ t ∈ r.body, r.Within t n := by
  unfold attached
  rw [List.mem_flatMap]
  exact exists_congr fun t => and_congr_right fun ht => forest.mem_walk (forest.bodyKnown ht)

/-- Walking the body visits no node twice. -/
theorem Region.Forest.nodup_attached (forest : r.Forest) : r.attached.Nodup := by
  have block : r.block? none = some r.body := rfl
  exact forest.nodup_walks block fun n hn => forest.nodup_walk (forest.bodyKnown hn)

end Depth

section Climbs

variable {r : Region} {t n : NodeId}

theorem Region.Climbs.within (tidy : r.Tidy) (h : r.Climbs n t) : r.Within t n := by
  induction h with
  | here => exact Within.refl r _
  | up inside _ ih => exact ih.tail (tidy.held _ _ inside)

/-- A node around another one that has no parent itself is the outermost one. -/
theorem Region.Forest.climbs_of_within (forest : r.Forest) (top : r.parent? t = none)
    (h : r.Within t n) : r.Climbs n t := by
  induction h with
  | refl => exact .here top
  | tail _ hc ih => exact .up (forest.childParent hc) ih

theorem Region.Climbs.unique {u : NodeId} (h : r.Climbs n t) (h' : r.Climbs n u) : t = u := by
  induction h with
  | here top =>
    cases h' with
    | here => rfl
    | up inside _ => simp [top] at inside
  | up inside _ ih =>
    cases h' with
    | here top => simp [top] at inside
    | up inside' rest => exact ih (Option.some.inj (inside.symm.trans inside') ▸ rest)

theorem Region.Tidy.climbs (tidy : r.Tidy) {d : Nat} (deep : r.depth n ≤ d)
    (known : n.index < r.nodes.size) : r.Climbs n (r.topWithin d n) := by
  induction d generalizing n with
  | zero =>
    have here := one_le_depth known
    omega
  | succ d ih =>
    rw [topWithin]
    split
    next p inside =>
      have child := tidy.held n p inside
      have outer := tidy.depth_lt child
      exact .up inside (ih (by omega) (child_known child))
    next top => exact .here top

/-- The search for the outermost node around a node comes to an end, and finds it. -/
theorem Region.Tidy.climbs_topLevel (tidy : r.Tidy) (known : n.index < r.nodes.size) :
    r.Climbs n (r.topLevel n) :=
  tidy.climbs (r.depth_le n) known

/-- The walk of the body visits a node just in case the outermost one around it is in the body. -/
theorem Region.Tidy.mem_attached_iff (tidy : r.Tidy) (known : n.index < r.nodes.size) :
    n ∈ r.attached ↔ r.topLevel n ∈ r.body := by
  have climbs := tidy.climbs_topLevel known
  rw [tidy.mem_attached]
  constructor
  · rintro ⟨t, ht, within⟩
    have same := climbs.unique (tidy.climbs_of_within (tidy.bodyParent ht) within)
    rw [same]
    exact ht
  · intro top
    exact ⟨r.topLevel n, top, climbs.within tidy⟩

end Climbs

end Staging
