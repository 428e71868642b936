import Staging.Proofs.Order

namespace Staging

def Region.parent? (r : Region) (n : NodeId) : Option NodeId :=
  (r.node? n).bind Node.parent

/-- `c` stands directly inside the loop `p`. -/
def Region.Child (r : Region) (p c : NodeId) : Prop :=
  c ∈ r.bodyOf p

/-- `n` is `t` or is nested in it. -/
def Region.Within (r : Region) (t n : NodeId) : Prop :=
  Relation.ReflTransGen r.Child t n

/-- The blocks of a region form a forest: each node stands once, in the block that its parent
names, and a loop is created before all that stands in it. -/
structure Region.Nested (r : Region) : Prop where
  bodyKnown : ∀ n ∈ r.body, n.index < r.nodes.size
  bodyNodup : r.body.Nodup
  bodyParent : ∀ n ∈ r.body, r.parent? n = none
  childKnown : ∀ p c, r.Child p c → c.index < r.nodes.size
  childNodup : ∀ p, (r.bodyOf p).Nodup
  childParent : ∀ p c, r.Child p c → r.parent? c = some p
  childDeeper : ∀ p c, r.Child p c → p.index < c.index

theorem NodeId.ext {m n : NodeId} (h : m.index = n.index) : m = n := by
  cases m; cases n; exact congrArg NodeId.mk h

theorem ValueId.ext {v w : ValueId} (h : v.index = w.index) : v = w := by
  cases v; cases w; exact congrArg ValueId.mk h

theorem Region.node?_eq_some {r : Region} {n : NodeId} (h : n.index < r.nodes.size) :
    ∃ node, r.node? n = some node :=
  ⟨_, Array.getElem?_eq_getElem h⟩

theorem Region.index_lt_of_node? {r : Region} {n : NodeId} {node : Node}
    (h : r.node? n = some node) : n.index < r.nodes.size :=
  (Array.getElem?_eq_some_iff.mp h).1

theorem Region.node?_eq_none {r : Region} {n : NodeId} (h : r.nodes.size ≤ n.index) :
    r.node? n = none :=
  Array.getElem?_eq_none h

theorem Region.value?_eq_some {r : Region} {v : ValueId} (h : v.index < r.values.size) :
    ∃ value, r.value? v = some value :=
  ⟨_, Array.getElem?_eq_getElem h⟩

theorem Region.index_lt_of_value? {r : Region} {v : ValueId} {value : Value}
    (h : r.value? v = some value) : v.index < r.values.size :=
  (Array.getElem?_eq_some_iff.mp h).1

theorem Region.value?_eq_none {r : Region} {v : ValueId} (h : r.values.size ≤ v.index) :
    r.value? v = none :=
  Array.getElem?_eq_none h

theorem Region.bodyOf_eq_nil {r : Region} {n : NodeId} (h : r.nodes.size ≤ n.index) :
    r.bodyOf n = [] := by
  simp [bodyOf, kind?, node?_eq_none h]

theorem Region.isLoop_of_child {r : Region} {p c : NodeId} (h : r.Child p c) :
    r.isLoop p = true := by
  unfold Child bodyOf at h
  unfold isLoop
  cases hk : r.kind? p with
  | none => simp [hk] at h
  | some kind => cases kind <;> simp_all [NodeKind.body, NodeKind.isLoop]

theorem Region.isDataflow_of_isLoop {r : Region} {n : NodeId} (h : r.isLoop n = true) :
    r.isDataflow n = true := by
  unfold isLoop at h
  unfold isDataflow
  cases hk : r.kind? n with
  | none => simp [hk] at h
  | some kind => cases kind <;> simp_all [NodeKind.isDataflow, NodeKind.isLoop]

theorem Region.kind?_known {r : Region} {n : NodeId} {kind : NodeKind} (h : r.kind? n = some kind) :
    n.index < r.nodes.size := by
  obtain ⟨node, hn, _⟩ := Option.map_eq_some_iff.mp h
  exact index_lt_of_node? hn

theorem Region.isLoop_known {r : Region} {n : NodeId} (h : r.isLoop n = true) :
    n.index < r.nodes.size := by
  obtain ⟨kind, hk, _⟩ := (Option.any_eq_true _ _).mp h
  exact kind?_known hk

theorem Region.Within.refl (r : Region) (n : NodeId) : r.Within n n :=
  Relation.ReflTransGen.refl

theorem Region.within_iff {r : Region} {t n : NodeId} :
    r.Within t n ↔ n = t ∨ ∃ c, r.Child t c ∧ r.Within c n := by
  unfold Within
  rw [Relation.ReflTransGen.cases_head_iff]
  exact or_congr_left eq_comm

theorem Region.Nested.index_le {r : Region} {t n : NodeId} (nested : r.Nested)
    (h : r.Within t n) : t.index ≤ n.index := by
  induction h with
  | refl => exact le_rfl
  | tail _ hc ih =>
    have := nested.childDeeper _ _ hc
    omega

theorem Region.Nested.known {r : Region} {t n : NodeId} (nested : r.Nested)
    (ht : t.index < r.nodes.size) (h : r.Within t n) : n.index < r.nodes.size := by
  rcases Relation.ReflTransGen.cases_tail h with rfl | ⟨p, _, hc⟩
  · exact ht
  · exact nested.childKnown p n hc

theorem Region.Nested.mem_walkWithin {r : Region} {d : Nat} {t n : NodeId} (nested : r.Nested)
    (ht : t.index < r.nodes.size) (deep : r.nodes.size ≤ t.index + d) :
    n ∈ r.walkWithin d t ↔ r.Within t n := by
  induction d generalizing t with
  | zero => omega
  | succ d ih =>
    rw [within_iff]
    simp only [walkWithin, List.mem_cons, List.mem_flatMap]
    refine or_congr_right (exists_congr fun c => and_congr_right fun hc => ?_)
    have := nested.childDeeper t c hc
    exact ih (nested.childKnown t c hc) (by omega)

/-- A walk meets exactly the nodes within its root. -/
theorem Region.Nested.mem_walk {r : Region} {t n : NodeId} (nested : r.Nested)
    (ht : t.index < r.nodes.size) : n ∈ r.walk t ↔ r.Within t n :=
  nested.mem_walkWithin ht (by omega)

end Staging
