import Staging.Proofs.Resolving
import Staging.Proofs.Written

namespace Staging

/-- A type that can be written, and is known under what it is written as. -/
def ValueType.Valid (t : ValueType) : Prop :=
  t.expr.token.Proper ∧ t.expr.valueType? = some t

/-- A kind of node whose numbers can be written. -/
def NodeKind.Proper : NodeKind → Prop
  | .constant value => fitsInt value = true
  | .loop _ lower upper _ => fitsInt lower = true ∧ fitsInt upper = true
  | _ => True

/-- Attributes in increasing order of their keys that can be written, with none under the key that
is reserved for something else. -/
structure Attrs.Proper (attrs : Attrs) (reserved : String) : Prop where
  sorted : attrs.Pairwise fun a b => a.1 < b.1
  free : ∀ e ∈ attrs, e.1 ≠ reserved
  written : ∀ e ∈ attrs, (Token.ident e.1).Proper ∧ e.2.token.Proper

/-- No later result of the same node has the name of this value, so that its name stands for it. -/
def Region.LastNamed (r : Region) (v : ValueId) : Prop :=
  ∀ n before behind, r.results n = before ++ v :: behind → ∀ w ∈ behind, r.nameOf w ≠ r.nameOf v

/-- All that a region says in its source text can be written, and read again as it was meant: names
tell values apart, except for results of one node, of which only the latest is used. -/
structure Region.Readable (r : Region) : Prop where
  name : IsWord r.name
  regionAttrs : r.attrs.Proper dataflowKey
  values : ∀ v value, r.value? v = some value → IsValueName value.name ∧ value.type.Valid
  kinds : ∀ n kind, r.kind? n = some kind → kind.Proper
  attrs : ∀ n node, r.node? n = some node → node.attrs.Proper levelKey
  operandKnown : ∀ n, ∀ v ∈ r.operands n, v.index < r.values.size
  resultKnown : ∀ n, ∀ v ∈ r.results n, v.index < r.values.size
  ivType : ∀ n, ∀ v ∈ r.ivs n, r.typeOf v = .scalar "index"
  allocated : ∀ n stack, r.kind? n = some (.alloc stack) → ∀ v ∈ r.results n, r.isMemref v = true
  latest : ∀ n, ∀ v ∈ r.operands n, r.LastNamed v
  apart : ∀ v w, v.index < r.values.size → w.index < r.values.size → r.nameOf v = r.nameOf w →
    v = w ∨ ∃ n, v ∈ r.results n ∧ w ∈ r.results n

section Readable

variable {r s : Region}

theorem Region.nameOf_congr {v : ValueId} (h : s.value? v = r.value? v) :
    s.nameOf v = r.nameOf v := by
  simp [nameOf, h]

theorem Region.nameOf_ne_of_hasName {name : String} (h : r.hasName name = false) {v : ValueId}
    (known : v.index < r.values.size) : r.nameOf v ≠ name := by
  obtain ⟨value, hv⟩ := value?_eq_some known
  have mem : value ∈ r.values := by
    unfold value? at hv
    exact Array.mem_of_getElem? hv
  rw [hasName, Array.any_eq_false'] at h
  simpa [nameOf, hv] using h value mem

/-- Values stay the latest of their names where values of other names are created. -/
theorem Region.LastNamed.grow {v : ValueId} (h : r.LastNamed v) (hv : v.index < r.values.size)
    (known : ∀ n, ∀ w ∈ r.results n, w.index < r.values.size)
    (results : ∀ n, n.index < r.nodes.size → s.results n = r.results n)
    (value : ∀ w, w.index < r.values.size → s.value? w = r.value? w)
    (new : ∀ n, r.nodes.size ≤ n.index → ∀ w ∈ s.results n, r.values.size ≤ w.index) :
    s.LastNamed v := by
  intro n before behind split w hw
  rcases Nat.lt_or_ge n.index r.nodes.size with old | fresh
  · rw [results n old] at split
    have low := known n w (by simp [split, hw])
    rw [nameOf_congr (value w low), nameOf_congr (value v hv)]
    exact h n before behind split w hw
  · have := new n fresh v (by simp [split])
    omega

end Readable

end Staging
