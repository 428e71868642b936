import Staging.Proofs.Creating
import Staging.Proofs.Places
import Staging.Proofs.Readable

namespace Staging

def NodeKind.rename (φ : Renaming) : NodeKind → NodeKind
  | .loop iv lower upper body => .loop (φ.value iv) lower upper (body.map φ.node)
  | kind => kind

theorem Region.ivs_eq_nil {r : Region} {n : NodeId} {node : Node} (hnode : r.node? n = some node)
    (noLoop : node.kind.isLoop = false) : r.ivs n = [] := by
  have none : node.kind.inductionVar? = none := by
    cases hk : node.kind <;> simp_all [NodeKind.inductionVar?, NodeKind.isLoop]
  simp [ivs, kind?, hnode, none]

theorem NodeKind.rename_of_noLoop {kind : NodeKind} (noLoop : kind.isLoop = false) (φ : Renaming) :
    kind.rename φ = kind := by
  cases kind <;> simp_all [NodeKind.rename, NodeKind.isLoop]

def Node.rename (φ : Renaming) (node : Node) : Node :=
  { node with
    kind := node.kind.rename φ
    operands := node.operands.map φ.value
    results := node.results.map φ.value
    parent := node.parent.map φ.node }

def Definition.rename (φ : Renaming) : Definition → Definition
  | .arg index => .arg index
  | .result node index => .result (φ.node node) index
  | .inductionVar node => .inductionVar (φ.node node)

def Value.rename (φ : Renaming) (value : Value) : Value :=
  { value with definition := value.definition.rename φ }

/-- A value of `r` stands in `s` under its new identifier. -/
def Region.MirrorsValue (r : Region) (φ : Renaming) (s : Region) (v : ValueId) : Prop :=
  s.value? (φ.value v) = (r.value? v).map (Value.rename φ)

/-- A node of `r` stands in `s` under its new identifier, except that its parent is `parent`. -/
def Region.MirrorsUnder (r : Region) (φ : Renaming) (s : Region) (parent : Option NodeId)
    (n : NodeId) : Prop :=
  (s.node? (φ.node n)).map Node.bare =
    (r.node? n).map fun node => { (node.rename φ).bare with parent := parent }

/-- A node of `r` and the values that it defines stand in `s` under their new identifiers. -/
structure Region.Mirrors (r : Region) (φ : Renaming) (s : Region) (n : NodeId) : Prop where
  node : r.MirrorsUnder φ s ((r.parent? n).map φ.node) n
  values : ∀ v ∈ r.defs n, r.MirrorsValue φ s v

/-- Puts more nodes at the end of the body of a loop. -/
def Node.addToBody (ns : List NodeId) (node : Node) : Node :=
  { node with kind := node.kind.withBody (node.kind.body ++ ns) }

/-- Nodes have been created, and `ns` were put at the end of a block. All else is as it was. -/
structure Region.Wrote (r : Region) (block : Option NodeId) (ns : List NodeId) (s : Region) :
    Prop where
  header : s = { r with body := s.body, nodes := s.nodes, values := s.values }
  body : s.body = if block = none then r.body ++ ns else r.body
  nodeCount : r.nodes.size ≤ s.nodes.size
  valueCount : r.values.size ≤ s.values.size
  node : ∀ m, m.index < r.nodes.size → s.node? m =
    (r.node? m).map fun node => if block = some m then node.addToBody ns else node
  value : ∀ v, v.index < r.values.size → s.value? v = r.value? v

theorem Node.addToBody_nil (node : Node) : node.addToBody [] = node := by
  cases node with
  | mk kind => simp [addToBody, NodeKind.withBody_body]

theorem Node.addToBody_append (node : Node) (ns ms : List NodeId) :
    (node.addToBody ns).addToBody ms = node.addToBody (ns ++ ms) := by
  cases node with
  | mk kind => cases kind <;> simp [addToBody, NodeKind.withBody, NodeKind.body]

section Wrote

variable {r s t : Region} {φ : Renaming} {block : Option NodeId} {ns ms : List NodeId} {n : NodeId}
  {v : ValueId}

theorem Region.Wrote.refl (r : Region) (block : Option NodeId) : r.Wrote block [] r := by
  refine ⟨rfl, by simp, le_rfl, le_rfl, fun m _ => ?_, fun _ _ => rfl⟩
  simp [Node.addToBody_nil]

theorem Region.Wrote.trans (h : r.Wrote block ns s) (h' : s.Wrote block ms t) :
    r.Wrote block (ns ++ ms) t := by
  refine ⟨?_, ?_, h.nodeCount.trans h'.nodeCount, h.valueCount.trans h'.valueCount,
    fun m hm => ?_, fun v hv => ?_⟩
  · rw [h'.header, h.header]
  · rw [h'.body, h.body]
    split <;> simp
  · rw [h'.node m (lt_of_lt_of_le hm h.nodeCount), h.node m hm, Option.map_map]
    congr 1
    funext node
    by_cases here : block = some m <;> simp [here, Node.addToBody_append]
  · rw [h'.value v (lt_of_lt_of_le hv h.valueCount), h.value v hv]

theorem Region.extendWith_wrote (r : Region) (node : Node) (news : List Value) :
    r.Wrote none [] (r.extendWith node news) := by
  have ext := r.extendWith_extends node news
  exact ⟨rfl, by simp [extendWith], by simp, by simp, fun m hm => by simpa using ext.node m hm,
    ext.value⟩

/-- A change to a new node leaves the old ones alone. -/
theorem Region.Wrote.modify (h : r.Wrote block ns s) (new : r.nodes.size ≤ n.index)
    (f : Node → Node) : r.Wrote block ns (s.modifyNode n f) := by
  refine ⟨?_, h.body, ?_, h.valueCount, fun m hm => ?_, h.value⟩
  · change { s with nodes := s.nodes.modify n.index f } = _
    rw [h.header]
    rfl
  · simpa [modifyNode] using h.nodeCount
  · rw [node?_modifyNode, if_neg]
    · exact h.node m hm
    · rintro rfl
      omega

/-- A change to one node leaves the images of others alone. -/
theorem Region.Mirrors.modify (mirrors : r.Mirrors φ s n) {m : NodeId} (other : φ.node n ≠ m)
    (f : Node → Node) : r.Mirrors φ (s.modifyNode m f) n := by
  refine ⟨?_, mirrors.values⟩
  rw [MirrorsUnder, node?_modifyNode, if_neg other]
  exact mirrors.node

/-- What is written into a new loop is not seen from outside. -/
theorem Region.Wrote.inside {p : NodeId} (h : r.Wrote block [] s)
    (new : r.nodes.size ≤ p.index) (h' : s.Wrote (some p) ns t) : r.Wrote block [] t := by
  refine ⟨?_, ?_, h.nodeCount.trans h'.nodeCount, h.valueCount.trans h'.valueCount,
    fun m hm => ?_, fun v hv => ?_⟩
  · rw [h'.header, h.header]
  · rw [h'.body, h.body, if_neg (by simp)]
  · have other : some p ≠ some m := by
      rintro ⟨⟩
      omega
    rw [h'.node m (lt_of_lt_of_le hm h.nodeCount), h.node m hm, Option.map_map]
    simp only [if_neg other]
    rfl
  · rw [h'.value v (lt_of_lt_of_le hv h.valueCount), h.value v hv]

/-- A new node is put at the end of a block. -/
theorem Region.Wrote.attached (h : r.Wrote none [] s) (new : r.nodes.size ≤ n.index)
    (h' : s.Attached block n t) : r.Wrote block [n] t := by
  have body : s.body = r.body := by simpa using h.body
  have values : t.values = s.values := by rw [h'.header]
  refine ⟨?_, by rw [h'.body, body], h'.nodeCount ▸ h.nodeCount, values ▸ h.valueCount,
    fun m hm => ?_, fun v hv => ?_⟩
  · rw [h'.header, h.header]
  · have other : m ≠ n := by
      rintro rfl
      omega
    rw [h'.node m, h.node m hm, Option.map_map]
    congr 1
    funext node
    by_cases hb : block = some m <;> simp [other, hb, Node.addToBody]
  · rw [h'.value]
    exact h.value v hv

theorem Region.Wrote.isLoop (h : r.Wrote block ns s) (known : n.index < r.nodes.size) :
    s.isLoop n = r.isLoop n := by
  obtain ⟨node, hn⟩ := node?_eq_some known
  have same := h.node n known
  by_cases here : block = some n <;>
    simp [Region.isLoop, kind?, same, hn, here, Node.addToBody, NodeKind.isLoop_withBody]

/-- The node of a loop, once its body has been written. -/
theorem Region.Wrote.node?_entered {s t : Lowering} {iv : Name} {lower upper : Int} {span : Span}
    {ns : List NodeId} (h : (s.entered iv lower upper span).region.Wrote
      (some ⟨s.region.nodes.size⟩) ns t.region) : t.region.node? ⟨s.region.nodes.size⟩ =
        some ⟨.loop ⟨s.region.values.size⟩ lower upper ns, [], [], none, none, [], span⟩ := by
  rw [h.node _ (by simp [Lowering.entered, Lowering.bound])]
  simp [Lowering.entered, Lowering.bound, node?_extendWith, Node.addToBody, NodeKind.withBody,
    NodeKind.body]

/-- Images of nodes stay as they are, but for that of the block that is written. -/
theorem Region.Wrote.mirrorsUnder (h : s.Wrote block ms t) {parent : Option NodeId}
    (mirrors : r.MirrorsUnder φ s parent n) (known : (φ.node n).index < s.nodes.size)
    (other : block ≠ some (φ.node n)) : r.MirrorsUnder φ t parent n := by
  rw [MirrorsUnder, h.node _ known, ← mirrors, Option.map_map]
  simp [Function.comp_def, other]

theorem Region.Wrote.mirrorsValue (h : s.Wrote block ms t) (mirrors : r.MirrorsValue φ s v)
    (known : (φ.value v).index < s.values.size) : r.MirrorsValue φ t v :=
  (h.value _ known).trans mirrors

end Wrote

/-- The values in `visible` can be used under their names, and only names of values that have been
created are taken. -/
structure Region.Ready (r : Region) (φ : Renaming) (visible : List ValueId) (s : Lowering) :
    Prop where
  opened : s.scopes ≠ []
  finds : ∀ v ∈ visible, r.LastNamed v →
    Scopes.find? s.scopes (r.nameOf v) = some (φ.value v)
  values : ∀ v ∈ visible, r.MirrorsValue φ s.region v
  placed : ∀ v ∈ visible, v.index < r.values.size ∧ (φ.value v).index < s.region.values.size
  sites : ∀ name ∈ s.sites.map Prod.fst, ∃ v, v.index < r.values.size ∧ r.nameOf v = name ∧
    (φ.value v).index < s.region.values.size

section Ready

variable {r : Region} {φ : Renaming} {visible vs : List ValueId} {s : Lowering} {name : String}

theorem names_of_bare {names : List Name} {vs : List ValueId}
    (h : names.map Name.bare = (vs.map r.nameExpr).map Name.bare) :
    names.map Name.text = vs.map r.nameOf := by
  have texts := congrArg (List.map Name.text) h
  simpa [Function.comp_def, Name.bare, Region.nameExpr] using texts

/-- A name stands for what it was bound to last, or else for what it stood for before. -/
theorem find?_bound (opened : s.scopes ≠ []) {names : List Name}
    (texts : names.map Name.text = vs.map r.nameOf) :
    Scopes.find? (s.bound names (vs.map φ.value)).scopes name =
      (((vs.map fun v => (r.nameOf v, some (φ.value v))).reverse.lookup name).or
        (s.scopes.findSome? fun scope => scope.lookup name)).join := by
  have entries : List.zipWith (fun (name : Name) v => (name.text, some v)) names
      (vs.map φ.value) = vs.map fun v => (r.nameOf v, some (φ.value v)) := by
    rw [← List.zipWith_map_left (f := Name.text)
      (g := fun (text : String) (v : ValueId) => (text, some v)), texts, List.zipWith_map,
      List.zipWith_self]
  obtain ⟨scope, outer, hs⟩ := List.exists_cons_of_ne_nil opened
  simp only [Lowering.bound, entries, hs, Scopes.find?, List.findSome?_cons, List.headD_cons,
    List.tail_cons, List.lookup_append]
  cases (vs.map fun v => (r.nameOf v, some (φ.value v))).reverse.lookup name <;> simp

theorem lookup_none (other : ∀ w ∈ vs, r.nameOf w ≠ name) :
    (vs.map fun v => (r.nameOf v, some (φ.value v))).reverse.lookup name = none := by
  rw [List.lookup_eq_none_iff]
  intro e he
  obtain ⟨w, hw, rfl⟩ := List.mem_map.mp (List.mem_reverse.mp he)
  simpa using (other w hw).symm

/-- Names that have just been bound do not hide what is visible under others. -/
theorem find?_bound_other (opened : s.scopes ≠ []) {names : List Name}
    (texts : names.map Name.text = vs.map r.nameOf)
    (other : ∀ w ∈ vs, r.nameOf w ≠ name) : Scopes.find? (s.bound names (vs.map φ.value)).scopes name =
      Scopes.find? s.scopes name := by
  rw [find?_bound opened texts, lookup_none other]
  rfl

theorem find?_bound_last (opened : s.scopes ≠ []) {names : List Name}
    (texts : names.map Name.text = vs.map r.nameOf) {before behind : List ValueId} {v : ValueId}
    (split : vs = before ++ v :: behind) (last : ∀ w ∈ behind, r.nameOf w ≠ r.nameOf v) :
    Scopes.find? (s.bound names (vs.map φ.value)).scopes (r.nameOf v) = some (φ.value v) := by
  rw [find?_bound opened texts, split]
  simp [List.lookup_append, lookup_none last]

theorem Region.MirrorsValue.eq {q : Region} {v : ValueId} {d : Definition}
    (h : r.definition? v = some d) : r.MirrorsValue φ q v ↔
      q.value? (φ.value v) = some ⟨r.nameOf v, r.typeOf v, d.rename φ⟩ := by
  obtain ⟨value, hv, rfl⟩ := Option.map_eq_some_iff.mp h
  simp [MirrorsValue, nameOf, typeOf, Value.rename, hv]

theorem Region.Coherent.def_known (coherent : r.Coherent) {n : NodeId} {v : ValueId}
    (hv : v ∈ r.defs n) : v.index < r.values.size := by
  rcases List.mem_append.mp hv with iv | result
  · exact known_of_definition? (coherent.ivDefined n v iv)
  · exact coherent.result_known result

/-- The values of a node have other names than all that was created before it. -/
theorem Region.Readable.fresh (readable : r.Readable) (coherent : r.Coherent) {n : NodeId} {size : Nat}
    (new : ∀ v ∈ r.defs n, size ≤ (φ.value v).index) {v w : ValueId} (hv : v.index < r.values.size)
    (old : (φ.value v).index < size) (hw : w ∈ r.defs n) : r.nameOf w ≠ r.nameOf v := by
  intro same
  rcases readable.apart v w hv (coherent.def_known hw) same.symm with rfl | ⟨m, hvm, hwm⟩
  · exact absurd old (Nat.not_lt_of_le (new v hw))
  · obtain rfl := coherent.defs_unique hw (List.mem_append_right _ hwm)
    exact absurd old (Nat.not_lt_of_le (new v (List.mem_append_right _ hvm)))

/-- Once values have been created and bound to new names, they can be used as well. -/
theorem Region.Ready.define (ready : r.Ready φ visible s) (vs : List ValueId) {names : List Name}
    (texts : names.map Name.text = vs.map r.nameOf) {q : Region}
    (valueCount : s.region.values.size ≤ q.values.size)
    (value : ∀ v, v.index < s.region.values.size → q.value? v = s.region.value? v)
    (new : ∀ v ∈ vs, v.index < r.values.size ∧ (φ.value v).index < q.values.size ∧
      r.MirrorsValue φ q v)
    (other : ∀ v, v.index < r.values.size → (φ.value v).index < s.region.values.size →
      ∀ w ∈ vs, r.nameOf w ≠ r.nameOf v)
    (last : ∀ before v behind, vs = before ++ v :: behind → r.LastNamed v →
      ∀ w ∈ behind, r.nameOf w ≠ r.nameOf v) :
    r.Ready φ (vs ++ visible) (Lowering.bound names (vs.map φ.value) { s with region := q }) := by
  refine ⟨by simp [Lowering.bound], fun v hv latest => ?_, fun v hv => ?_, fun v hv => ?_,
    fun name h => ?_⟩
  · rcases List.mem_append.mp hv with here | before
    · obtain ⟨earlier, later, split⟩ := List.append_of_mem here
      exact find?_bound_last ready.opened texts split (last earlier v later split latest)
    · obtain ⟨low, old⟩ := ready.placed v before
      exact (find?_bound_other ready.opened texts (other v low old)).trans
        (ready.finds v before latest)
  · rcases List.mem_append.mp hv with here | before
    · exact (new v here).2.2
    · exact (value _ (ready.placed v before).2).trans (ready.values v before)
  · rcases List.mem_append.mp hv with here | before
    · exact ⟨(new v here).1, (new v here).2.1⟩
    · exact ⟨(ready.placed v before).1, lt_of_lt_of_le (ready.placed v before).2 valueCount⟩
  · simp only [Lowering.bound, List.map_append, List.map_reverse, List.map_map, List.mem_append,
      List.mem_reverse] at h
    rcases h with here | before
    · have mem : name ∈ names.map Name.text := here
      rw [texts] at mem
      obtain ⟨v, hv, rfl⟩ := List.mem_map.mp mem
      exact ⟨v, (new v hv).1, rfl, (new v hv).2.1⟩
    · obtain ⟨v, low, same, old⟩ := ready.sites name before
      exact ⟨v, low, same, lt_of_lt_of_le old valueCount⟩

/-- Once a node has been created and its values have been bound, they can be used as well. -/
theorem Region.Ready.create (ready : r.Ready φ visible s) (readable : r.Readable)
    (coherent : r.Coherent) {n : NodeId} (one : r.ivs n = [] ∨ r.results n = []) {names : List Name}
    (texts : names.map Name.text = (r.defs n).map r.nameOf) {q : Region}
    (wrote : s.region.Wrote none [] q)
    (new : ∀ v ∈ r.defs n, s.region.values.size ≤ (φ.value v).index ∧
      (φ.value v).index < q.values.size ∧ r.MirrorsValue φ q v) :
    r.Ready φ (r.defs n ++ visible)
      (Lowering.bound names ((r.defs n).map φ.value) { s with region := q }) := by
  refine ready.define _ texts wrote.valueCount wrote.value
    (fun v hv => ⟨coherent.def_known hv, (new v hv).2⟩)
    (fun v low old w hw => readable.fresh coherent (fun v hv => (new v hv).1) low old hw)
    fun before v behind split latest w hw => ?_
  rcases one with none | none
  · exact latest n before behind (by rw [← split, Region.defs, none]; rfl) w hw
  · have short : (r.defs n).length ≤ 1 := by
      rw [Region.defs, none, List.append_nil, Region.ivs]
      cases (r.kind? n).bind NodeKind.inductionVar? <;> simp
    have := List.length_pos_of_mem hw
    rw [split] at short
    simp only [List.length_append, List.length_cons] at short
    omega

end Ready

end Staging
