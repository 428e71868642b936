import Staging.Proofs.Relevel

namespace Staging

/-- A region with nodes and values added to another one, where no old ones changed. -/
structure Region.Extends (r s : Region) : Prop where
  args : s.args = r.args
  node : ∀ n, n.index < r.nodes.size → s.node? n = r.node? n
  value : ∀ v, v.index < r.values.size → s.value? v = r.value? v

section Extends

variable {r s : Region}

theorem Region.Extends.kind? (h : r.Extends s) {n : NodeId} (hn : n.index < r.nodes.size) :
    s.kind? n = r.kind? n := by
  simp [Region.kind?, h.node n hn]

theorem Region.Extends.operands (h : r.Extends s) {n : NodeId} (hn : n.index < r.nodes.size) :
    s.operands n = r.operands n := by
  simp [Region.operands, h.node n hn]

theorem Region.Extends.results (h : r.Extends s) {n : NodeId} (hn : n.index < r.nodes.size) :
    s.results n = r.results n := by
  simp [Region.results, h.node n hn]

theorem Region.Extends.parent? (h : r.Extends s) {n : NodeId} (hn : n.index < r.nodes.size) :
    s.parent? n = r.parent? n := by
  simp [Region.parent?, h.node n hn]

theorem Region.Extends.level? (h : r.Extends s) {n : NodeId} (hn : n.index < r.nodes.size) :
    s.level? n = r.level? n := by
  simp [Region.level?, h.node n hn]

end Extends

section Modify

variable {r : Region} {n : NodeId} {node : Node} {f : Node → Node}

theorem Region.node?_modifyNode (m : NodeId) :
    (r.modifyNode n f).node? m = if m = n then (r.node? m).map f else r.node? m := by
  unfold modifyNode node?
  rw [Array.getElem?_modify]
  by_cases h : m = n
  · subst h
    simp
  · have hi : n.index ≠ m.index := fun he => h (NodeId.ext he.symm)
    simp [h, hi]

theorem Region.node?_setLevel (m : NodeId) (level : Option Nat) :
    (r.setLevel n level).node? m =
      if m = n then (r.node? m).map fun node => { node with level := level } else r.node? m :=
  node?_modifyNode m

theorem Region.modifyNode_self (hn : r.node? n = some node)
    (hf : f node = node) : r.modifyNode n f = r := by
  have nodes : r.nodes.modify n.index f = r.nodes := by
    refine Array.ext_getElem? fun i => ?_
    rw [Array.getElem?_modify]
    by_cases hi : n.index = i
    · subst hi
      unfold node? at hn
      simp [hn, hf]
    · simp [hi]
  unfold modifyNode
  rw [nodes]

/-- A change to what is not used to find dependences. -/
theorem Region.sameNodes_modifyNode (keep : ∀ node, (f node).kind = node.kind ∧
    (f node).operands = node.operands ∧ (f node).results = node.results ∧
    (f node).parent = node.parent) : r.SameNodes (r.modifyNode n f) := by
  refine ⟨by simp [modifyNode], rfl, ?_, ?_, ?_, ?_, rfl⟩
  all_goals
    funext m
    simp only [kind?, Region.operands, Region.results, parent?, node?_modifyNode]
    split <;> cases r.node? m <;> simp [keep]

end Modify

/-- A region with one more node, in no block, and the values that it defines. -/
def Region.extendWith (r : Region) (node : Node) (news : List Value) : Region :=
  { r with nodes := r.nodes.push node, values := r.values ++ news.toArray }

/-- The results of a node with some names and types. -/
def namedResults (n : NodeId) (entries : List (String × ValueType)) : List Value :=
  entries.mapIdx fun i e => ⟨e.1, e.2, .result n i⟩

section Extend

variable {r : Region} {node : Node} {news : List Value}

@[simp] theorem Region.nodes_extendWith : (r.extendWith node news).nodes.size = r.nodes.size + 1 := by
  simp [extendWith]

@[simp] theorem Region.values_extendWith :
    (r.extendWith node news).values.size = r.values.size + news.length := by
  simp [extendWith]

theorem Region.node?_extendWith (m : NodeId) : (r.extendWith node news).node? m =
    if m = ⟨r.nodes.size⟩ then some node else r.node? m := by
  obtain ⟨i⟩ := m
  simp only [node?, extendWith, Array.getElem?_push, NodeId.mk.injEq]

theorem Region.node?_extendWith_self (r : Region) (node : Node) (news : List Value) :
    (r.extendWith node news).node? ⟨r.nodes.size⟩ = some node := by
  rw [node?_extendWith, if_pos rfl]

theorem Region.value?_extendWith (v : ValueId) : (r.extendWith node news).value? v =
    if v.index < r.values.size then r.value? v else news[v.index - r.values.size]? := by
  simp only [value?, extendWith, Array.getElem?_append, List.getElem?_toArray]

theorem Region.extendWith_extends (node : Node) (news : List Value) :
    r.Extends (r.extendWith node news) := by
  refine ⟨rfl, fun n hn => ?_, fun v hv => by rw [value?_extendWith, if_pos hv]⟩
  rw [node?_extendWith, if_neg]
  rintro rfl
  exact absurd hn (lt_irrefl _)

theorem Region.addResults_named (n : NodeId) (i : Nat) (entries : List (String × ValueType)) :
    r.addResults n i (entries.map fun e => (some e.1, e.2)) =
      ((List.range' r.values.size entries.length).map ValueId.mk, { r with
        values := r.values ++ (entries.mapIdx fun j e => ⟨e.1, e.2, .result n (i + j)⟩).toArray }) := by
  induction entries generalizing r i with
  | nil => simp [addResults]
  | cons e entries ih =>
    simp only [List.map_cons, addResults, addValue, Option.getD_some, ih]
    simp [List.range'_succ, Nat.add_assoc, Nat.add_comm 1]

/-- A node is created with the results that it is given. -/
theorem Region.addNode_named (kind : NodeKind) (operands : List ValueId)
    (entries : List (String × ValueType)) (span : Span) :
    r.addNode kind operands (entries.map fun e => (some e.1, e.2)) span = (⟨r.nodes.size⟩,
      r.extendWith ⟨kind, operands, (List.range' r.values.size entries.length).map ValueId.mk, none,
        none, [], span⟩ (namedResults ⟨r.nodes.size⟩ entries)) := by
  simp only [addNode, addResults_named, pushNode, extendWith, namedResults, Nat.zero_add]

/-- The results of a node have the types that they are created with. -/
theorem Region.addNode_types (kind : NodeKind) (operands : List ValueId)
    (entries : List (String × ValueType)) (span : Span) {v : ValueId}
    (hv : v ∈ (r.addNode kind operands (entries.map fun e => (some e.1, e.2)) span).2.results
      ⟨r.nodes.size⟩) : ∃ e ∈ entries, ∃ value,
    (r.addNode kind operands (entries.map fun e => (some e.1, e.2)) span).2.value? v = some value ∧
      value.type = e.2 := by
  rw [addNode_named] at hv ⊢
  simp only [Region.results, node?_extendWith, if_true, Option.map_some, Option.getD_some] at hv
  obtain ⟨i, hi, rfl⟩ := List.mem_map.mp hv
  obtain ⟨low, high⟩ := List.mem_range'_1.mp hi
  have place : i - r.values.size < entries.length := by omega
  refine ⟨entries[i - r.values.size], List.getElem_mem _,
    ⟨entries[i - r.values.size].1, entries[i - r.values.size].2, .result ⟨r.nodes.size⟩ (i - r.values.size)⟩,
    ?_, rfl⟩
  simp only [value?_extendWith]
  rw [if_neg (by omega)]
  simp [namedResults, place]

theorem Region.value?_addArg (name : String) (type : ValueType) (v : ValueId) :
    (r.addArg name type).2.value? v =
      if v = ⟨r.values.size⟩ then some ⟨name, type, .arg r.args.length⟩ else r.value? v := by
  obtain ⟨i⟩ := v
  simp only [addArg, addValue, value?, Array.getElem?_push, ValueId.mk.injEq, Option.getD_some]

@[simp] theorem Region.values_addArg (name : String) (type : ValueType) :
    (r.addArg name type).2.values.size = r.values.size + 1 := by
  simp [addArg, addValue]

theorem Region.addLoop_named (iv : String) (lower upper : Int) (span : Span) :
    r.addLoop (some iv) lower upper span = (⟨r.nodes.size⟩,
      r.extendWith ⟨.loop ⟨r.values.size⟩ lower upper [], [], [], none, none, [], span⟩
        [⟨iv, .scalar "index", .inductionVar ⟨r.nodes.size⟩⟩]) := by
  simp [addLoop, addValue, pushNode, extendWith]

end Extend

/-- Results are new values that know their node and their place. -/
theorem Region.addResults_eq (r : Region) (n : NodeId) (i : Nat)
    (results : List (Option String × ValueType)) : ∃ news : List Value,
      r.addResults n i results = ((List.range' r.values.size results.length).map ValueId.mk,
        { r with values := r.values ++ news.toArray }) ∧
      news.length = results.length ∧ ∀ (j : Nat) (value : Value), news[j]? = some value →
        value.definition = .result n (i + j) := by
  induction results generalizing r i with
  | nil => exact ⟨[], by simp [addResults], rfl, by simp⟩
  | cons entry results ih =>
    obtain ⟨name, type⟩ := entry
    obtain ⟨news, heq, length, definitions⟩ := ih (r.addValue name type (.result n i)).2 (i + 1)
    refine ⟨⟨name.getD (r.freshName valueStem), type, .result n i⟩ :: news, ?_, by simp [length],
      fun j value hj => ?_⟩
    · simp only [addResults, addValue] at heq ⊢
      rw [heq]
      simp [List.range'_succ]
    · cases j with
      | zero =>
        simp only [List.getElem?_cons_zero, Option.some.injEq] at hj
        subst hj
        rfl
      | succ j =>
        rw [definitions j value (by simpa using hj)]
        congr 1
        omega

/-- What is there once a node has been created. -/
structure Region.Created (r : Region) (kind : NodeKind) (operands : List ValueId)
    (count : Nat) (n : NodeId) (s : Region) : Prop where
  ext : r.Extends s
  new : n = ⟨r.nodes.size⟩
  nodeCount : s.nodes.size = r.nodes.size + 1
  kind : s.kind? n = some kind
  operands : s.operands n = operands
  resultCount : (s.results n).length = count
  defined : ∀ i v, (s.results n)[i]? = some v → s.definition? v = some (.result n i)
  ivDefined : ∀ v ∈ s.ivs n, s.definition? v = some (.inductionVar n)
  parent : s.parent? n = none
  body : s.body = r.body
  numbers : ∃ k, s.ivs n ++ s.results n = (List.range' r.values.size k).map ValueId.mk ∧
    s.values.size = r.values.size + k

theorem Region.addNode_created (r : Region) {kind : NodeKind} (noLoop : kind.isLoop = false)
    (operands : List ValueId) (results : List (Option String × ValueType)) (span : Span) :
    r.Created kind operands results.length (r.addNode kind operands results span).1
      (r.addNode kind operands results span).2 := by
  obtain ⟨news, heq, length, definitions⟩ := r.addResults_eq ⟨r.nodes.size⟩ 0 results
  let vs := (List.range' r.values.size results.length).map ValueId.mk
  let node : Node := ⟨kind, operands, vs, none, none, [], span⟩
  have made : r.addNode kind operands results span = (⟨r.nodes.size⟩, r.extendWith node news) := by
    simp only [addNode, heq]
    rfl
  have here := r.node?_extendWith_self node news
  have none : kind.inductionVar? = none := by
    cases kind <;> simp_all [NodeKind.inductionVar?, NodeKind.isLoop]
  rw [made]
  refine ⟨r.extendWith_extends node news, rfl, nodes_extendWith, by simp [kind?, here, node],
    by simp [Region.operands, here, node], by simp [Region.results, here, node, vs],
    fun i v hv => ?_, fun v hv => ?_, by simp [parent?, here, node], rfl, results.length, ?_,
    by simp [length]⟩
  · simp only [Region.results, here, Option.map_some, Option.getD_some, node, vs,
      List.getElem?_map] at hv
    obtain ⟨j, hj, rfl⟩ := Option.map_eq_some_iff.mp hv
    obtain ⟨hi, rfl⟩ := List.getElem?_eq_some_iff.mp hj
    rw [List.length_range', ← length] at hi
    simp [definition?, value?_extendWith, hi, definitions i news[i] (by simp)]
  · simp [ivs, kind?, here, node, none] at hv
  · simp [ivs, kind?, Region.results, here, node, none, vs]

theorem Region.addLoop_created (r : Region) (iv : Option String) (lower upper : Int)
    (span : Span) : r.Created (.loop ⟨r.values.size⟩ lower upper []) [] 0
      (r.addLoop iv lower upper span).1 (r.addLoop iv lower upper span).2 := by
  let node : Node := ⟨.loop ⟨r.values.size⟩ lower upper [], [], [], none, none, [], span⟩
  let news : List Value :=
    [⟨iv.getD (r.freshName valueStem), .scalar "index", .inductionVar ⟨r.nodes.size⟩⟩]
  have made : r.addLoop iv lower upper span = (⟨r.nodes.size⟩, r.extendWith node news) := by
    simp [addLoop, addValue, pushNode, extendWith, node, news]
  have here := r.node?_extendWith_self node news
  rw [made]
  refine ⟨r.extendWith_extends node news, rfl, nodes_extendWith, ?_, ?_, ?_, ?_, ?_, ?_, rfl, 1, ?_,
    values_extendWith⟩
  all_goals
    simp [kind?, Region.operands, Region.results, parent?, ivs, here, node, news,
      NodeKind.inductionVar?, definition?, value?_extendWith]

section Created

variable {r s : Region} {kind : NodeKind} {operands : List ValueId} {count : Nat} {n : NodeId}

theorem Region.Created.cases (h : r.Created kind operands count n s) {m : NodeId}
    (hm : m.index < s.nodes.size) : m.index < r.nodes.size ∨ m = n := by
  rcases Nat.lt_or_ge m.index r.nodes.size with old | new
  · exact Or.inl old
  · right
    rw [h.new]
    refine NodeId.ext (show m.index = r.nodes.size from ?_)
    rw [h.nodeCount] at hm
    omega

theorem Region.Extends.definition? (h : r.Extends s) {v : ValueId} {d : Definition}
    (hd : r.definition? v = some d) : s.definition? v = some d := by
  obtain ⟨value, hv, rfl⟩ := Option.map_eq_some_iff.mp hd
  simp [Region.definition?, h.value v (index_lt_of_value? hv), hv]

theorem Region.Extends.isMemref (h : r.Extends s) {v : ValueId} (hv : r.isMemref v = true) :
    s.isMemref v = true := by
  have known : v.index < r.values.size := by
    by_contra hn
    simp [Region.isMemref, value?_eq_none (Nat.le_of_not_lt hn)] at hv
  simpa [Region.isMemref, h.value v known] using hv

theorem Region.Extends.touched (h : r.Extends s) {m : NodeId} (hm : m.index < r.nodes.size) :
    s.touched m = r.touched m := by
  simp [Region.touched, h.kind? hm, h.operands hm]

theorem Region.Extends.bodyOf (h : r.Extends s) {m : NodeId} (hm : m.index < r.nodes.size) :
    s.bodyOf m = r.bodyOf m := by
  simp [Region.bodyOf, h.kind? hm]

theorem Region.Extends.ivs (h : r.Extends s) {m : NodeId} (hm : m.index < r.nodes.size) :
    s.ivs m = r.ivs m := by
  simp [Region.ivs, h.kind? hm]

theorem Region.Coherent.created_nested (coherent : r.Coherent)
    (h : r.Created kind operands count n s) (empty : kind.body = []) : s.Nested := by
  have ext := h.ext
  have leaf : s.bodyOf n = [] := by simp [Region.bodyOf, h.kind, empty]
  have known : ∀ {m : NodeId}, m.index < r.nodes.size → m.index < s.nodes.size := by
    intro m hm
    rw [h.nodeCount]
    omega
  have old : ∀ {p c : NodeId}, s.Child p c → p.index < r.nodes.size ∧ r.Child p c := by
    intro p c hc
    have hp : p.index < s.nodes.size := by
      by_contra hn
      simp [Region.Child, bodyOf_eq_nil (Nat.le_of_not_lt hn)] at hc
    rcases h.cases hp with hp | rfl
    · exact ⟨hp, by simpa [Region.Child, ext.bodyOf hp] using hc⟩
    · simp [Region.Child, leaf] at hc
  have childOld : ∀ {p c : NodeId}, r.Child p c → c.index < r.nodes.size := fun hc =>
    coherent.childKnown _ _ hc
  refine ⟨fun m hm => ?_, h.body ▸ coherent.bodyNodup, fun m hm => ?_, fun p c hc => ?_,
    fun p => ?_, fun p c hc => ?_, fun p c hc => coherent.childDeeper p c (old hc).2⟩
  · exact known (coherent.bodyKnown m (h.body ▸ hm))
  · have hm' := h.body ▸ hm
    rw [ext.parent? (coherent.bodyKnown m hm')]
    exact coherent.bodyParent m hm'
  · exact known (childOld (old hc).2)
  · by_cases hp : p.index < s.nodes.size
    · rcases h.cases hp with hp | rfl
      · rw [ext.bodyOf hp]
        exact coherent.childNodup p
      · rw [leaf]
        exact List.nodup_nil
    · rw [bodyOf_eq_nil (Nat.le_of_not_lt hp)]
      exact List.nodup_nil
  · have hc' := (old hc).2
    rw [ext.parent? (childOld hc')]
    exact coherent.childParent p c hc'

/-- A node without a body may be created at any time. -/
theorem Region.Coherent.created (coherent : r.Coherent) (h : r.Created kind operands count n s)
    (fits : kind.Fits operands.length count) (empty : kind.body = [])
    (buffers : ∀ mem access, (mem, access) ∈ s.touched n → s.isMemref mem = true) :
    s.Coherent := by
  have ext := h.ext
  refine ⟨coherent.created_nested h empty, fun i v hv => ?_, fun m i v hv => ?_, fun m v hv => ?_,
    fun m node hm => ?_, fun m mem access hm => ?_⟩
  · exact ext.definition? (coherent.argDefined i v (ext.args ▸ hv))
  · by_cases hm : m.index < s.nodes.size
    · rcases h.cases hm with hm | rfl
      · exact ext.definition? (coherent.resultDefined m i v (ext.results hm ▸ hv))
      · exact h.defined i v hv
    · simp [Region.results, node?_eq_none (Nat.le_of_not_lt hm)] at hv
  · by_cases hm : m.index < s.nodes.size
    · rcases h.cases hm with hm | rfl
      · exact ext.definition? (coherent.ivDefined m v (ext.ivs hm ▸ hv))
      · exact h.ivDefined v hv
    · simp [Region.ivs, Region.kind?, node?_eq_none (Nat.le_of_not_lt hm)] at hv
  · rcases h.cases (index_lt_of_node? hm) with hk | rfl
    · rw [ext.node m hk] at hm
      exact coherent.fits m node hm
    · have hkind : some node.kind = some kind := by simpa [Region.kind?, hm] using h.kind
      have hoperands : node.operands = operands := by
        simpa [Region.operands, hm] using h.operands
      have hcount : node.results.length = count := by
        simpa [Region.results, hm] using h.resultCount
      rw [Option.some.inj hkind, hoperands, hcount]
      exact fits
  · by_cases hk : m.index < s.nodes.size
    · rcases h.cases hk with hk | rfl
      · exact ext.isMemref (coherent.buffers m mem access (ext.touched hk ▸ hm))
      · exact buffers mem access hm
    · simp [Region.touched, Region.kind?, node?_eq_none (Nat.le_of_not_lt hk)] at hm

end Created

section WithBody

variable (body : List NodeId) (kind : NodeKind)

theorem NodeKind.fits_withBody : (kind.withBody body).Fits = kind.Fits := by
  cases kind <;> rfl

theorem NodeKind.inductionVar?_withBody :
    (kind.withBody body).inductionVar? = kind.inductionVar? := by
  cases kind <;> rfl

theorem NodeKind.isLoop_withBody : (kind.withBody body).isLoop = kind.isLoop := by
  cases kind <;> rfl

theorem NodeKind.withBody_body : kind.withBody kind.body = kind := by
  cases kind <;> rfl

theorem NodeKind.body_withBody (loop : kind.isLoop = true) : (kind.withBody body).body = body := by
  cases kind <;> simp_all [NodeKind.isLoop, NodeKind.withBody, NodeKind.body]

end WithBody

/-- What is there once a node has been put at the end of a block. -/
structure Region.Attached (r : Region) (block : Option NodeId) (n : NodeId) (s : Region) :
    Prop where
  args : s.args = r.args
  nodeCount : s.nodes.size = r.nodes.size
  kind : ∀ m, ∃ body, s.kind? m = (r.kind? m).map (NodeKind.withBody body)
  bodyOf : ∀ m, s.bodyOf m = if block = some m then r.bodyOf m ++ [n] else r.bodyOf m
  operands : s.operands = r.operands
  results : s.results = r.results
  parent : ∀ m, s.parent? m = if m = n then block else r.parent? m
  value : s.value? = r.value?
  body : s.body = if block = none then r.body ++ [n] else r.body
  header : s = { r with body := s.body, nodes := s.nodes }
  node : ∀ m, s.node? m = (r.node? m).map fun node => { node with
    kind := if block = some m then node.kind.withBody (node.kind.body ++ [n]) else node.kind
    parent := if m = n then block else node.parent }

theorem Region.append_body {r : Region} {n : NodeId} (hn : n.index < r.nodes.size)
    (top : r.parent? n = none) :
    ∃ s, r.append none n = some (s, true) ∧ r.Attached none n s := by
  obtain ⟨node, hn⟩ := node?_eq_some hn
  have hp : node.parent = none := by simpa [parent?, hn] using top
  have parent : ({ r with body := r.body ++ [n] } : Region).setParent n none =
      { r with body := r.body ++ [n] } := by
    refine @modifyNode_self { r with body := r.body ++ [n] } n node _ hn ?_
    rw [← hp]
  refine ⟨{ r with body := r.body ++ [n] }, ?_, rfl, rfl, fun m => ⟨r.bodyOf m, ?_⟩, fun m => ?_,
    rfl, rfl, fun m => ?_, rfl, rfl, rfl, fun m => ?_⟩
  · simp [append, attach, block?, hasBlock?, hn, setBlock, parent]
  · have same : ({ r with body := r.body ++ [n] } : Region).kind? m = r.kind? m := rfl
    rw [same]
    unfold Region.bodyOf
    cases r.kind? m with
    | none => rfl
    | some kind => cases kind <;> rfl
  · rw [if_neg (by simp)]
    rfl
  · by_cases hm : m = n
    · subst hm
      rw [if_pos rfl]
      exact top
    · rw [if_neg hm]
      rfl
  · change r.node? m = _
    by_cases hm : m = n
    · subst hm
      have same : node = { node with parent := none } := by rw [← hp]
      simpa [hn] using same
    · simp [hm]

theorem Region.append_child {r : Region} {p n : NodeId} (hp : r.isLoop p = true)
    (hn : n.index < r.nodes.size) (ne : p ≠ n) :
    ∃ s, r.append (some p) n = some (s, true) ∧ r.Attached (some p) n s := by
  obtain ⟨node, hn⟩ := node?_eq_some hn
  obtain ⟨kind, hkind, loop⟩ : ∃ kind, r.kind? p = some kind ∧ kind.isLoop = true := by
    unfold isLoop at hp
    cases hk : r.kind? p <;> simp_all
  let s := (r.setBlock (kind.body ++ [n]) (some p)).setParent n (some p)
  have made : r.append (some p) n = some (s, true) := by
    simp [append, attach, block?, hasBlock?, hkind, loop, hn, s]
  have nodes : ∀ m, s.node? m = (r.node? m).map fun node => { node with
      kind := if m = p then node.kind.withBody (kind.body ++ [n]) else node.kind
      parent := if m = n then some p else node.parent } := by
    intro m
    simp only [s, setParent, setBlock, node?_modifyNode]
    cases r.node? m <;> by_cases hm : m = p <;> by_cases hm' : m = n <;> simp_all
  have kinds : ∀ m, s.kind? m =
      if m = p then some (kind.withBody (kind.body ++ [n])) else r.kind? m := by
    intro m
    by_cases hm : m = p
    · subst hm
      obtain ⟨node, hnode, rfl⟩ := Option.map_eq_some_iff.mp hkind
      simp [kind?, nodes, hnode]
    · simp only [kind?, nodes, hm, if_false]
      cases r.node? m <;> rfl
  refine ⟨s, made, rfl, by simp [s, setParent, setBlock, modifyNode], fun m => ?_, fun m => ?_,
    ?_, ?_, fun m => ?_, rfl, rfl, rfl, fun m => ?_⟩
  · by_cases hm : m = p
    · exact ⟨kind.body ++ [n], by simp [kinds, hm, hkind]⟩
    · refine ⟨r.bodyOf m, ?_⟩
      rw [kinds, if_neg hm]
      unfold Region.bodyOf
      cases r.kind? m with
      | none => rfl
      | some kind => simp [NodeKind.withBody_body]
  · by_cases hm : m = p
    · subst hm
      simp [Region.bodyOf, kinds, hkind, NodeKind.body_withBody _ kind loop]
    · rw [if_neg fun he => hm (Option.some.inj he).symm]
      simp [Region.bodyOf, kinds, hm]
  · funext m
    simp only [Region.operands, nodes]
    cases r.node? m <;> rfl
  · funext m
    simp only [Region.results, nodes]
    cases r.node? m <;> rfl
  · by_cases hm : m = n
    · subst hm
      simp [parent?, nodes, hn]
    · simp only [parent?, nodes, hm, if_false]
      cases r.node? m <;> rfl
  · rw [nodes]
    by_cases hm : m = p
    · subst hm
      obtain ⟨node, hnode, rfl⟩ := Option.map_eq_some_iff.mp hkind
      simp [hnode]
    · have hp : some p ≠ some m := fun he => hm (Option.some.inj he).symm
      simp [hm, hp]

section Attached

variable {r s : Region} {block : Option NodeId} {n : NodeId}

theorem Region.Attached.touched (h : r.Attached block n s) : s.touched = r.touched := by
  funext m
  obtain ⟨body, hk⟩ := h.kind m
  unfold Region.touched
  rw [hk, h.operands]
  cases r.kind? m with
  | none => rfl
  | some kind => cases kind <;> rfl

theorem Region.Attached.ivs (h : r.Attached block n s) : s.ivs = r.ivs := by
  funext m
  obtain ⟨body, hk⟩ := h.kind m
  unfold Region.ivs
  rw [hk]
  cases r.kind? m with
  | none => rfl
  | some kind => simp [NodeKind.inductionVar?_withBody]

theorem Region.Attached.isLoop (h : r.Attached block n s) : s.isLoop = r.isLoop := by
  funext m
  obtain ⟨body, hk⟩ := h.kind m
  unfold Region.isLoop
  rw [hk]
  cases r.kind? m with
  | none => rfl
  | some kind => simp [NodeKind.isLoop_withBody]

theorem Region.Coherent.attached_nested (coherent : r.Coherent) (h : r.Attached block n s)
    (known : n.index < r.nodes.size) (top : r.parent? n = none) (free : n ∉ r.body)
    (deeper : ∀ p, block = some p → p.index < n.index) : s.Nested := by
  have child : ∀ {p c : NodeId}, s.Child p c → r.Child p c ∨ (block = some p ∧ c = n) := by
    intro p c hc
    unfold Region.Child at hc
    rw [h.bodyOf] at hc
    split at hc
    next he => exact (List.mem_append.mp hc).imp_right fun hc => ⟨he, List.mem_singleton.mp hc⟩
    next => exact Or.inl hc
  have notChild : ∀ {p c : NodeId}, r.Child p c → c ≠ n := by
    rintro p c hc rfl
    simp [coherent.childParent p c hc] at top
  have inBody : ∀ m ∈ s.body, m ∈ r.body ∨ (block = none ∧ m = n) := by
    intro m hm
    rw [h.body] at hm
    split at hm
    next he => exact (List.mem_append.mp hm).imp_right fun hm => ⟨he, List.mem_singleton.mp hm⟩
    next => exact Or.inl hm
  constructor
  case bodyKnown =>
    intro m hm
    rw [h.nodeCount]
    rcases inBody m hm with hm | ⟨_, rfl⟩
    · exact coherent.bodyKnown m hm
    · exact known
  case bodyNodup =>
    rw [h.body]
    split
    next =>
      refine List.nodup_append.mpr ⟨coherent.bodyNodup, List.nodup_singleton n, ?_⟩
      intro m hm k hk same
      exact free (List.mem_singleton.mp hk ▸ same ▸ hm)
    next => exact coherent.bodyNodup
  case bodyParent =>
    intro m hm
    rw [h.parent]
    rcases inBody m hm with hm | ⟨he, rfl⟩
    · have other : m ≠ n := fun same => free (same ▸ hm)
      rw [if_neg other]
      exact coherent.bodyParent m hm
    · rw [if_pos rfl, he]
  case childKnown =>
    intro p c hc
    rw [h.nodeCount]
    rcases child hc with hc | ⟨_, rfl⟩
    · exact coherent.childKnown p c hc
    · exact known
  case childNodup =>
    intro p
    rw [h.bodyOf]
    split
    next =>
      refine List.nodup_append.mpr ⟨coherent.childNodup p, List.nodup_singleton n, ?_⟩
      rintro m hm k hk rfl
      exact notChild hm (List.mem_singleton.mp hk)
    next => exact coherent.childNodup p
  case childParent =>
    intro p c hc
    rw [h.parent]
    rcases child hc with hc | ⟨he, rfl⟩
    · rw [if_neg (notChild hc)]
      exact coherent.childParent p c hc
    · rw [if_pos rfl, he]
  case childDeeper =>
    intro p c hc
    rcases child hc with hc | ⟨he, rfl⟩
    · exact coherent.childDeeper p c hc
    · exact deeper p he

/-- A node that is in no block may be put at the end of one that was created earlier. -/
theorem Region.Coherent.attached (coherent : r.Coherent) (h : r.Attached block n s)
    (known : n.index < r.nodes.size) (top : r.parent? n = none) (free : n ∉ r.body)
    (deeper : ∀ p, block = some p → p.index < n.index) : s.Coherent := by
  have definition : s.definition? = r.definition? := by
    funext v
    simp [Region.definition?, h.value]
  refine ⟨coherent.attached_nested h known top free deeper, fun i v hv => ?_, fun m i v hv => ?_,
    fun m v hv => ?_, fun m node hm => ?_, fun m mem access hm => ?_⟩
  · rw [definition]
    exact coherent.argDefined i v (h.args ▸ hv)
  · rw [definition]
    exact coherent.resultDefined m i v (h.results ▸ hv)
  · rw [definition]
    exact coherent.ivDefined m v (h.ivs ▸ hv)
  · obtain ⟨old, ho⟩ := node?_eq_some (h.nodeCount ▸ index_lt_of_node? hm : m.index < r.nodes.size)
    obtain ⟨body, hk⟩ := h.kind m
    have kind : some node.kind = some (old.kind.withBody body) := by
      simpa [Region.kind?, hm, ho] using hk
    have operands : node.operands = old.operands := by
      simpa [Region.operands, hm, ho] using congrFun h.operands m
    have results : node.results = old.results := by
      simpa [Region.results, hm, ho] using congrFun h.results m
    rw [Option.some.inj kind, operands, results, NodeKind.fits_withBody]
    exact coherent.fits m old ho
  · have hm' : (mem, access) ∈ r.touched m := h.touched ▸ hm
    simpa [Region.isMemref, h.value] using coherent.buffers m mem access hm'

/-- A block stays scoped while nodes are put at the end of others. -/
theorem Region.Attached.scoped (h : r.Attached block n s) {visible : List ValueId}
    {ns : List NodeId} (scope : r.Scoped visible ns)
    (apart : ∀ t ∈ ns, ∀ m, r.Within t m → block ≠ some m) : s.Scoped visible ns := by
  refine scope.transfer (fun t ht m hm => ?_) (fun _ _ m _ => congrFun h.ivs m)
    (fun _ _ m _ => congrFun h.results m) fun _ _ m _ v hv => Or.inr ⟨h.operands ▸ hv, id⟩
  rw [h.bodyOf, if_neg (apart t ht m hm)]

end Attached

end Staging
