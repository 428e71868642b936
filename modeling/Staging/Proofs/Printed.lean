import Staging.Proofs.Carrying

namespace Staging

theorem mapM_isSome {α β : Type} {f : α → Option β} {l : List α}
    (h : ∀ a ∈ l, (f a).isSome = true) : (l.mapM f).isSome = true := by
  induction l with
  | nil => rfl
  | cons a l ih =>
    obtain ⟨b, hb⟩ := Option.isSome_iff_exists.mp (h a (by simp))
    obtain ⟨bs, hbs⟩ := Option.isSome_iff_exists.mp (ih fun c hc => h c (by simp [hc]))
    rw [List.mapM_cons, hb, hbs]
    rfl

section Printed

variable {r : Region}

theorem Region.valueText_isSome {v : ValueId} (h : v.index < r.values.size) :
    (r.valueText v).isSome = true := by
  obtain ⟨value, hv⟩ := value?_eq_some h
  simp [valueText, hv]

theorem Region.valuesText_isSome {vs : List ValueId} (h : ∀ v ∈ vs, v.index < r.values.size) :
    (r.valuesText vs).isSome = true := by
  rw [valuesText, Option.isSome_map]
  exact mapM_isSome fun v hv => valueText_isSome (h v hv)

theorem Region.typeText_isSome {v : ValueId} (h : v.index < r.values.size) :
    (r.typeText v).isSome = true := by
  obtain ⟨value, hv⟩ := value?_eq_some h
  simp [typeText, hv]

theorem Region.resultTypeText_isSome {node : Node} (one : node.results.length = 1)
    (h : ∀ v ∈ node.results, v.index < r.values.size) :
    (r.resultTypeText node).isSome = true := by
  obtain ⟨v, hv⟩ := List.length_eq_one_iff.mp one
  rw [resultTypeText, hv]
  exact typeText_isSome (h v (by simp [hv]))

theorem Region.resultsText_isSome {node : Node}
    (h : ∀ v ∈ node.results, v.index < r.values.size) : (r.resultsText node).isSome = true := by
  unfold resultsText
  split
  · rfl
  · rw [Option.isSome_map]
    exact valuesText_isSome h

theorem Region.opText_isSome {node : Node}
    (fits : node.kind.Fits node.operands.length node.results.length)
    (operands : ∀ v ∈ node.operands, v.index < r.values.size)
    (results : ∀ v ∈ node.results, v.index < r.values.size)
    (iv : ∀ v, node.kind.inductionVar? = some v → v.index < r.values.size) :
    (r.opText node).isSome = true := by
  obtain ⟨ops, hops⟩ := Option.isSome_iff_exists.mp (valuesText_isSome operands)
  have type : node.results.length = 1 → ∃ t, r.resultTypeText node = some t := fun one =>
    Option.isSome_iff_exists.mp (resultTypeText_isSome one results)
  unfold opText
  cases hk : node.kind with
  | alloc stack =>
    obtain ⟨t, ht⟩ := type (hk ▸ fits : (NodeKind.alloc stack).Fits _ _).2
    simp [ht]
  | constant value =>
    obtain ⟨t, ht⟩ := type (hk ▸ fits : (NodeKind.constant value).Fits _ _).2
    simp [ht]
  | convert conversion =>
    obtain ⟨t, ht⟩ := type (hk ▸ fits : (NodeKind.convert conversion).Fits _ _).2
    simp [ht, hops]
  | load =>
    obtain ⟨t, ht⟩ := type (hk ▸ fits : NodeKind.load.Fits _ _).2
    simp [ht, hops]
  | ret => simp [hops]
  | compute name =>
    obtain ⟨types, htypes⟩ := Option.isSome_iff_exists.mp
      (mapM_isSome fun v hv => typeText_isSome (results v hv))
    simp [hops, htypes]
  | store => simp [hops]
  | copy =>
    rcases (hk ▸ fits : NodeKind.copy.Fits _ _) with ⟨_, none⟩ | ⟨_, one⟩
    · simp [hops, List.length_eq_zero_iff.mp none]
    · obtain ⟨t, ht⟩ := type one
      simp only [hops, ht]
      cases node.results.isEmpty <;> rfl
  | loop v lower upper body =>
    obtain ⟨t, ht⟩ := Option.isSome_iff_exists.mp (valueText_isSome (iv v (by rw [hk]; rfl)))
    simp [ht]

theorem Region.Coherent.result_known (coherent : r.Coherent) {n : NodeId} {v : ValueId}
    (h : v ∈ r.results n) : v.index < r.values.size := by
  obtain ⟨i, hi, he⟩ := List.mem_iff_getElem.mp h
  exact known_of_definition?
    (coherent.resultDefined n i v (by rw [List.getElem?_eq_getElem hi, he]))

/-- Every node of a block that is scoped can be written. -/
theorem Region.Scoped.nodeText_isSome (coherent : r.Coherent) {visible : List ValueId}
    {ns : List NodeId} (h : r.Scoped visible ns)
    (known : ∀ n ∈ ns, n.index < r.nodes.size)
    (values : ∀ v ∈ visible, v.index < r.values.size) (depth margin : Nat) :
    ∀ n ∈ ns, (r.nodeText depth margin n).isSome = true := by
  induction h generalizing depth margin with
  | nil => simp
  | @cons visible n ns hops _ _ ihInside ihRest =>
    have results : ∀ v ∈ r.results n, v.index < r.values.size := fun v hv =>
      coherent.result_known hv
    intro m hm
    rcases List.mem_cons.mp hm with rfl | hm
    · cases depth with
      | zero => rfl
      | succ depth =>
        obtain ⟨node, hnode⟩ := node?_eq_some (known m (by simp))
        have ivs : ∀ v ∈ r.ivs m, v.index < r.values.size := fun v hv =>
          known_of_definition? (coherent.ivDefined m v hv)
        have operands' : r.operands m = node.operands := by simp [Region.operands, hnode]
        have results' : r.results m = node.results := by simp [Region.results, hnode]
        have body' : r.bodyOf m = node.kind.body := by simp [bodyOf, kind?, hnode]
        have iv' : r.ivs m = node.kind.inductionVar?.toList := by simp [Region.ivs, kind?, hnode]
        obtain ⟨head, hhead⟩ := Option.isSome_iff_exists.mp
          (resultsText_isSome fun v hv => results v (results' ▸ hv))
        obtain ⟨op, hop⟩ := Option.isSome_iff_exists.mp
          (opText_isSome (coherent.fits m node hnode)
            (fun v hv => values v (hops v (operands' ▸ hv)))
            (fun v hv => results v (results' ▸ hv))
            fun v hv => ivs v (by simp [iv', hv]))
        obtain ⟨inside, hinside⟩ := Option.isSome_iff_exists.mp
          (mapM_isSome (ihInside (fun c hc => coherent.childKnown m c hc)
            (fun v hv => (List.mem_append.mp hv).elim (ivs v) (values v)) depth (margin + 1)))
        rw [body'] at hinside
        simp [nodeText, hnode, hhead, hop, hinside]
    · exact ihRest (fun c hc => known c (by simp [hc]))
        (fun v hv => (List.mem_append.mp hv).elim (results v) (values v)) depth margin m hm

/-- A well-formed region can be written as a source text. -/
theorem Region.WellFormed.text_isSome (wf : r.WellFormed) : r.text.isSome = true := by
  have args : ∀ v ∈ r.args, v.index < r.values.size := by
    intro v hv
    obtain ⟨i, hi⟩ := wf.sound.arg_defined hv
    exact known_of_definition? hi
  obtain ⟨first, hfirst⟩ := Option.isSome_iff_exists.mp
    (@mapM_isSome _ _ r.argText r.args fun v hv => by
      obtain ⟨value, hvalue⟩ := value?_eq_some (args v hv)
      simp [argText, hvalue])
  obtain ⟨body, hbody⟩ := Option.isSome_iff_exists.mp
    (mapM_isSome (wf.inScope.nodeText_isSome wf.toCoherent wf.bodyKnown args r.nodes.size 1))
  simp [text, hfirst, hbody]

theorem Region.WellFormed.fingerprint_eq (wf : r.WellFormed) :
    ∃ print, r.fingerprint = some print := by
  obtain ⟨text, ht⟩ := Option.isSome_iff_exists.mp wf.text_isSome
  exact ⟨sha256 text, by rw [fingerprint, ht]; rfl⟩

end Printed

end Staging
