import Staging.Proofs.Building
import Staging.Proofs.Resolved

namespace Staging

/-- `v` can be used by `n`: it is an argument, a result of a node in front of `n` or of a loop
around it, or the induction variable of a loop around `n`. -/
def Region.Visible (r : Region) (n : NodeId) (v : ValueId) : Prop :=
  v ∈ r.args ∨ (∃ m, r.Precedes m n ∧ v ∈ r.results m) ∨ ∃ l, l ≠ n ∧ r.Within l n ∧ v ∈ r.ivs l

/-- `v` belongs to a loop that has ended in front of `n`: it is the induction variable of the loop,
or it is defined in the loop. -/
def Region.LeftBehind (r : Region) (n : NodeId) (v : ValueId) : Prop :=
  ∃ l m, r.Precedes l n ∧ r.Within l m ∧ (v ∈ r.ivs m ∨ m ≠ l ∧ v ∈ r.results m)

/-- `v` is defined by a node or by one nested in it. -/
def Region.Introduces (r : Region) (t : NodeId) (v : ValueId) : Prop :=
  ∃ m, r.Within t m ∧ (v ∈ r.ivs m ∨ v ∈ r.results m)

/-- `v` has been defined, by whatever node, when `n` is reached. -/
def Region.Met (r : Region) (n : NodeId) (v : ValueId) : Prop :=
  v ∈ r.args ∨ (∃ l, r.Precedes l n ∧ r.Introduces l v) ∨ ∃ l, l ≠ n ∧ r.Within l n ∧ v ∈ r.ivs l

/-- `v` has been defined when the first node of a block is reached. -/
def Region.Entered (r : Region) (v : ValueId) : Option NodeId → Prop
  | none => v ∈ r.args
  | some p => r.Met p v ∨ v ∈ r.ivs p

/-- All operands of a node, and of those nested in it, have been defined when they are reached. -/
def Region.Covered (r : Region) (t : NodeId) : Prop :=
  ∀ n, r.Within t n → ∀ v ∈ r.operands n, r.Met n v

section Met

variable {r : Region} {n t q : NodeId} {v : ValueId}

theorem Region.met_iff : r.Met n v ↔ r.Visible n v ∨ r.LeftBehind n v := by
  constructor
  · rintro (arg | ⟨l, front, m, within, iv | result⟩ | iv)
    · exact Or.inl (Or.inl arg)
    · exact Or.inr ⟨l, m, front, within, Or.inl iv⟩
    · by_cases same : m = l
      · exact Or.inl (Or.inr (Or.inl ⟨l, front, same ▸ result⟩))
      · exact Or.inr ⟨l, m, front, within, Or.inr ⟨same, result⟩⟩
    · exact Or.inl (Or.inr (Or.inr iv))
  · rintro ((arg | ⟨m, front, result⟩ | iv) | ⟨l, m, front, within, defined⟩)
    · exact Or.inl arg
    · exact Or.inr (Or.inl ⟨m, front, m, Within.refl r m, Or.inr result⟩)
    · exact Or.inr (Or.inr iv)
    · exact Or.inr (Or.inl ⟨l, front, m, within, defined.imp_right And.right⟩)

theorem Region.introduces_iff : r.Introduces t v ↔
    v ∈ r.ivs t ∨ v ∈ r.results t ∨ ∃ c, r.Child t c ∧ r.Introduces c v := by
  constructor
  · rintro ⟨m, within, defined⟩
    rcases within_iff.mp within with rfl | ⟨c, hc, within⟩
    · exact defined.imp_right Or.inl
    · exact Or.inr (Or.inr ⟨c, hc, m, within, defined⟩)
  · rintro (iv | result | ⟨c, hc, m, within, defined⟩)
    · exact ⟨t, Within.refl r t, Or.inl iv⟩
    · exact ⟨t, Within.refl r t, Or.inr result⟩
    · exact ⟨m, Relation.ReflTransGen.head hc within, defined⟩

theorem Region.covered_iff : r.Covered t ↔
    (∀ v ∈ r.operands t, r.Met t v) ∧ ∀ c ∈ r.bodyOf t, r.Covered c := by
  constructor
  · intro h
    exact ⟨h t (Within.refl r t), fun c hc n within => h n (Relation.ReflTransGen.head hc within)⟩
  · rintro ⟨here, inside⟩ n within
    rcases within_iff.mp within with rfl | ⟨c, hc, within⟩
    · exact here
    · exact inside c hc n within

theorem Region.Precedes.within {l : NodeId} (h : r.Precedes l t) (within : r.Within t n) :
    r.Precedes l n := by
  obtain ⟨p, block, s, hblock, before, around⟩ := h
  exact ⟨p, block, s, hblock, before, around.trans within⟩

section Block

variable {p : Option NodeId} {earlier later ns : List NodeId} {l : NodeId}

theorem Region.Forest.around_iff (forest : r.Forest) (block : r.block? p = some ns) (ht : t ∈ ns) :
    r.Within l t ↔ l = t ∨ ∃ q, p = some q ∧ r.Within l q := by
  have parent := forest.named p ns block t ht
  constructor
  · intro within
    rcases Relation.ReflTransGen.cases_tail within with same | ⟨q, outer, hq⟩
    · exact Or.inl same.symm
    · exact Or.inr ⟨q, parent.symm.trans (forest.childParent hq), outer⟩
  · rintro (rfl | ⟨q, rfl, outer⟩)
    · exact Within.refl r l
    · exact outer.tail (child_iff.mpr ⟨ns, block, ht⟩)

theorem Region.Forest.precedes_iff (forest : r.Forest)
    (block : r.block? p = some (earlier ++ t :: later)) :
    r.Precedes l t ↔ l ∈ earlier ∨ ∃ q, p = some q ∧ r.Precedes l q := by
  have ht : t ∈ earlier ++ t :: later := by simp
  constructor
  · rintro ⟨p', block', s, hblock, before, around⟩
    rcases (forest.around_iff block ht).mp around with rfl | ⟨q, rfl, outer⟩
    · have same := (forest.named p' _ hblock s before.mem_right).symm.trans
        (forest.named p _ block s ht)
      rw [same, block] at hblock
      have once := forest.once p _ block
      rw [Option.some.inj hblock] at once
      exact Or.inl (before.mem_front once (Option.some.inj hblock).symm)
    · exact Or.inr ⟨q, rfl, p', block', s, hblock, before, outer⟩
  · rintro (front | ⟨q, rfl, precedes⟩)
    · obtain ⟨x, y, rfl⟩ := List.append_of_mem front
      exact ⟨p, _, t, block, before_iff_append.mpr ⟨x, y ++ t :: later, by simp, by simp⟩,
        Within.refl r t⟩
    · exact precedes.within (.single (child_iff.mpr ⟨_, block, ht⟩))

/-- What has been defined when a node is reached was defined when its block was entered, or by the
nodes in front of it. -/
theorem Region.Forest.met_iff_of_block (forest : r.Forest)
    (block : r.block? p = some (earlier ++ t :: later)) :
    r.Met t v ↔ r.Entered v p ∨ ∃ s ∈ earlier, r.Introduces s v := by
  have ht : t ∈ earlier ++ t :: later := by simp
  have ivs : (∃ l, l ≠ t ∧ r.Within l t ∧ v ∈ r.ivs l) ↔
      ∃ q, p = some q ∧ (v ∈ r.ivs q ∨ ∃ l, l ≠ q ∧ r.Within l q ∧ v ∈ r.ivs l) := by
    constructor
    · rintro ⟨l, ne, around, iv⟩
      obtain ⟨q, rfl, outer⟩ := ((forest.around_iff block ht).mp around).resolve_left ne
      by_cases same : l = q
      · exact ⟨q, rfl, Or.inl (same ▸ iv)⟩
      · exact ⟨q, rfl, Or.inr ⟨l, same, outer, iv⟩⟩
    · rintro ⟨q, rfl, found⟩
      have child : r.Child q t := child_iff.mpr ⟨_, block, ht⟩
      have apart {l : NodeId} (outer : r.Within l q) : l ≠ t :=
        fun same => forest.acyclic q t child (same ▸ outer)
      rcases found with iv | ⟨l, -, outer, iv⟩
      · exact ⟨q, apart (Within.refl r q), .single child, iv⟩
      · exact ⟨l, apart outer, outer.tail child, iv⟩
  unfold Met
  rw [ivs]
  simp only [forest.precedes_iff block]
  cases p with
  | none =>
    simp [Entered]
  | some q =>
    simp only [Option.some.injEq, exists_eq_left', Entered, Met]
    constructor
    · rintro (arg | ⟨l, front | front, defines⟩ | iv | iv)
      · exact Or.inl (Or.inl (Or.inl arg))
      · exact Or.inr ⟨l, front, defines⟩
      · exact Or.inl (Or.inl (Or.inr (Or.inl ⟨l, front, defines⟩)))
      · exact Or.inl (Or.inr iv)
      · exact Or.inl (Or.inl (Or.inr (Or.inr iv)))
    · rintro (((arg | ⟨l, front, defines⟩ | iv) | iv) | ⟨l, front, defines⟩)
      · exact Or.inl arg
      · exact Or.inr (Or.inl ⟨l, Or.inr front, defines⟩)
      · exact Or.inr (Or.inr (Or.inr iv))
      · exact Or.inr (Or.inr (Or.inl iv))
      · exact Or.inr (Or.inl ⟨l, Or.inl front, defines⟩)

end Block

end Met

/-- What the check comes to: it fails if operands are missing, and else it knows some values. -/
def Verdict (covered : Prop) (known : ValueId → Prop) : Option (List ValueId) → Prop
  | some out => covered ∧ ∀ v, v ∈ out ↔ known v
  | none => ¬covered

theorem Verdict.congr {covered covered' : Prop} {known known' : ValueId → Prop}
    {out : Option (List ValueId)} (h : Verdict covered known out) (hc : covered ↔ covered')
    (hk : ∀ v, known v ↔ known' v) : Verdict covered' known' out := by
  cases out with
  | none => exact fun c => h (hc.mpr c)
  | some out => exact ⟨hc.mp h.1, fun v => (h.2 v).trans (hk v)⟩

section Check

variable {r : Region} {p : Option NodeId} {earlier ns : List NodeId} {defined : List ValueId}

/-- The nodes of a block are checked one after the other. -/
theorem Region.Forest.verdict_block (forest : r.Forest)
    {check : List ValueId → NodeId → Option (List ValueId)}
    (each : ∀ t ∈ ns, ∀ defined, (∀ v, v ∈ defined ↔ r.Met t v) →
      Verdict (r.Covered t) (fun v => r.Met t v ∨ r.Introduces t v) (check defined t))
    (block : r.block? p = some (earlier ++ ns))
    (start : ∀ v, v ∈ defined ↔ r.Entered v p ∨ ∃ s ∈ earlier, r.Introduces s v) :
    Verdict (∀ t ∈ ns, r.Covered t)
      (fun v => r.Entered v p ∨ ∃ s ∈ earlier ++ ns, r.Introduces s v)
      (ns.foldlM check defined) := by
  induction ns generalizing earlier defined with
  | nil => exact ⟨by simp, by simpa using start⟩
  | cons t ns ih =>
    have met (v : ValueId) := @met_iff_of_block r t v p earlier ns forest block
    have here := each t (by simp) defined fun v => (start v).trans (met v).symm
    rw [List.foldlM_cons]
    cases checked : check defined t with
    | none =>
      rw [checked] at here
      exact fun all => here (all t (by simp))
    | some out =>
      rw [checked] at here
      obtain ⟨covered, known⟩ := here
      have grown (v : ValueId) :
          v ∈ out ↔ r.Entered v p ∨ ∃ s ∈ earlier ++ [t], r.Introduces s v := by
        refine (known v).trans ((or_congr_left (met v)).trans ?_)
        simp [or_assoc, or_and_right, exists_or]
      have later := ih (fun s hs => each s (by simp [hs])) (by simpa using block) grown
      rw [List.append_assoc, List.singleton_append] at later
      refine later.congr ?_ fun v => Iff.rfl
      exact ⟨fun all => List.forall_mem_cons.mpr ⟨covered, all⟩,
        fun all => (List.forall_mem_cons.mp all).2⟩

/-- A node is checked, and then all that stands in it. -/
theorem Region.Forest.verdict_node (forest : r.Forest) {d : Nat} {n : NodeId}
    (deep : r.nodes.size < r.depth n + d) (known : n.index < r.nodes.size)
    (met : ∀ v, v ∈ defined ↔ r.Met n v) :
    Verdict (r.Covered n) (fun v => r.Met n v ∨ r.Introduces n v) (r.defineWithin d defined n) := by
  induction d generalizing n defined with
  | zero =>
    have low := r.depth_le n
    omega
  | succ d ih =>
    rw [defineWithin]
    split
    next used =>
      have used : ∀ v ∈ r.operands n, r.Met n v := fun v hv =>
        (met v).mp (by simpa using List.all_eq_true.mp used v hv)
      obtain ⟨node, hn⟩ := node?_eq_some known
      have block : r.block? (some n) = some ([] ++ r.bodyOf n) := by
        simp [block?, bodyOf, kind?, hn]
      have start : ∀ v, v ∈ r.ivs n ++ defined ↔
          r.Entered v (some n) ∨ ∃ s ∈ [], r.Introduces s v := fun v => by
        simp [Entered, met, or_comm]
      have inside := forest.verdict_block (fun c hc defined met =>
        have deeper := forest.depth_lt hc
        ih (by omega) (forest.childKnown hc) met) block start
      rw [List.nil_append] at inside
      change Verdict _ _ (((r.bodyOf n).foldlM (r.defineWithin d) (r.ivs n ++ defined)).bind
        fun inner => some (r.results n ++ inner))
      cases folded : (r.bodyOf n).foldlM (r.defineWithin d) (r.ivs n ++ defined) with
      | none =>
        rw [folded] at inside
        exact fun covered => inside (covered_iff.mp covered).2
      | some inner =>
        rw [folded] at inside
        refine ⟨covered_iff.mpr ⟨used, inside.1⟩, fun v => ?_⟩
        rw [List.mem_append, inside.2 v]
        change v ∈ r.results n ∨ (r.Met n v ∨ v ∈ r.ivs n) ∨ (∃ c, r.Child n c ∧ r.Introduces c v) ↔
          r.Met n v ∨ r.Introduces n v
        rw [introduces_iff (t := n)]
        tauto
    next missing =>
      intro covered
      refine missing (List.all_eq_true.mpr fun v hv => ?_)
      have seen := (met v).mpr ((covered_iff.mp covered).1 v hv)
      simpa using seen

theorem Region.Forest.checked_iff (forest : r.Forest) :
    r.defsBeforeUses = true ↔ ∀ t ∈ r.body, r.Covered t := by
  have block : r.block? none = some ([] ++ r.body) := rfl
  have start : ∀ v, v ∈ r.args ↔ r.Entered v none ∨ ∃ s ∈ [], r.Introduces s v := fun v => by
    simp [Entered]
  have verdict := forest.verdict_block (fun t ht defined met =>
    forest.verdict_node (d := r.nodes.size) (by have := one_le_depth (forest.bodyKnown ht); omega)
      (forest.bodyKnown ht) met) block start
  unfold defsBeforeUses
  cases checked : r.body.foldlM (r.defineWithin r.nodes.size) r.args with
  | none =>
    rw [checked] at verdict
    exact iff_of_false (by simp) verdict
  | some out =>
    rw [checked] at verdict
    exact iff_of_true rfl verdict.1

end Check

namespace Numbered

/-- The certificate of a region that is built says that definitions come before uses just if each
operand of an attached node is visible there, or is left behind by a loop that has ended in front of
it. -/
theorem Built.defsBeforeUses_iff {w : Numbered} (built : w.Built) (o : Options) :
    (w.region.certify o).defsBeforeUses = true ↔ ∀ n ∈ w.region.attached,
      ∀ v ∈ w.region.operands n, w.region.Visible n v ∨ w.region.LeftBehind n v := by
  have forest := built.tidy.toForest
  have checks : (w.region.certify o).defsBeforeUses = w.region.defsBeforeUses := rfl
  rw [checks, forest.checked_iff]
  simp only [forest.mem_attached, ← Region.met_iff]
  exact ⟨fun h n ⟨t, ht, within⟩ => h t ht n within, fun h t ht n within => h n ⟨t, ht, within⟩⟩

/-- Two loops. In the second one, an operation uses the induction variable of the first one and a
result from inside it. -/
def leftBehind : Numbered :=
  ((((((((new "f" default).next (.addLoop none 0 2 default)).next (.append none ⟨0⟩)).next
    (.addNode (.compute "x") [] [(none, .scalar "i32")] default)).next
    (.append (some ⟨0⟩) ⟨1⟩)).next (.addLoop none 0 2 default)).next (.append none ⟨2⟩)).next
    (.addNode (.compute "y") [⟨0⟩, ⟨1⟩, ⟨2⟩] [] default)).next (.append (some ⟨2⟩) ⟨3⟩)

theorem leftBehind_built : leftBehind.Built := by
  unfold leftBehind
  refine .next (.next (.next (.next (.next (.next (.next (.next (.new "f" default)
    trivial trivial) ?_ trivial) trivial rfl) ?_ trivial) trivial trivial) ?_ trivial) trivial rfl)
    ?_ trivial
  all_goals exact (Region.free_of_nowhere (by decide) (by decide)).takes (by decide) (by decide)

theorem Built.defsBeforeUses_iff_leftBehind :
    (leftBehind.region.certify ⟨true, 1⟩).defsBeforeUses = true ∧
      ∀ n ∈ leftBehind.region.attached, ∀ v ∈ leftBehind.region.operands n,
        leftBehind.region.Visible n v ∨ leftBehind.region.LeftBehind n v := by
  have checked : (leftBehind.region.certify ⟨true, 1⟩).defsBeforeUses = true := by decide
  exact ⟨checked, (Built.defsBeforeUses_iff leftBehind_built ⟨true, 1⟩).mp checked⟩

/-- In the second loop only its own induction variable is visible, and yet all operands are
accepted. -/
theorem certify_leftBehind : leftBehind.Built ∧ ⟨3⟩ ∈ leftBehind.region.attached ∧
    leftBehind.region.operands ⟨3⟩ = [⟨0⟩, ⟨1⟩, ⟨2⟩] ∧
    (∀ v, leftBehind.region.Visible ⟨3⟩ v → v = ⟨2⟩) ∧
    (leftBehind.region.certify ⟨true, 1⟩).defsBeforeUses = true := by
  refine ⟨leftBehind_built, by decide, by decide, fun v visible => ?_, by decide⟩
  have forest := leftBehind_built.tidy.toForest
  have inner : leftBehind.region.block? (some ⟨2⟩) = some ([] ++ ⟨3⟩ :: []) := by decide
  have outer : leftBehind.region.block? none = some ([⟨0⟩] ++ ⟨2⟩ :: []) := by decide
  rcases visible with arg | ⟨m, front, result⟩ | ⟨l, other, around, iv⟩
  · have none : leftBehind.region.args = [] := by decide
    simp [none] at arg
  · obtain ⟨q, same, front⟩ := ((forest.precedes_iff inner).mp front).resolve_left (by simp)
    obtain rfl := Option.some.inj same
    have first := ((forest.precedes_iff outer).mp front).resolve_right (by simp)
    obtain rfl := List.mem_singleton.mp first
    have none : leftBehind.region.results ⟨0⟩ = [] := by decide
    simp [none] at result
  · obtain ⟨q, same, around⟩ := ((forest.around_iff inner (by decide)).mp around).resolve_left other
    obtain rfl := Option.some.inj same
    obtain rfl := ((forest.around_iff outer (by decide)).mp around).resolve_right (by simp)
    have own : leftBehind.region.ivs ⟨2⟩ = [⟨2⟩] := by decide
    simpa [own] using iv

end Numbered

end Staging
