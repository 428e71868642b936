import Staging.Proofs.Rereading

namespace Staging

/-- The nodes of `r` and their values stand in `q` under their new identifiers, and nothing else
does. -/
structure Region.Restored (r : Region) (φ : Renaming) (q : Region) : Prop where
  name : q.name = r.name
  dataflow : q.dataflow = r.dataflow
  attrs : q.attrs = r.attrs
  args : q.args = r.args.map φ.value
  body : q.body = r.body.map φ.node
  places : r.Places φ ⟨0, r.args.length⟩ r.body q.supply
  values : ∀ v ∈ r.args, r.MirrorsValue φ q v
  mirrors : ∀ u ∈ r.body, ∀ n, r.Within u n → r.Mirrors φ q n

section Args

variable {r : Region} {φ : Renaming} {before vs : List ValueId} {s : Lowering}

/-- The arguments that are not read yet have other names than those that are. -/
theorem Region.WellFormed.arg_fresh (wf : r.WellFormed) (readable : r.Readable)
    {v w : ValueId} (hw : w ∈ r.args) (hv : v.index < r.values.size) (ne : v ≠ w) :
    r.nameOf w ≠ r.nameOf v := by
  intro same
  rcases readable.apart v w hv (known_of_definition? (wf.sound.arg_defined hw).choose_spec) same.symm with
    rfl | ⟨m, -, hwm⟩
  · exact ne rfl
  · exact wf.arg_not_def hw m (List.mem_append_right _ hwm)

/-- An argument is created behind those that have been read back. -/
theorem Region.Ready.withArg (ready : r.Ready φ before s) (wf : r.WellFormed)
    {v : ValueId} (here : r.args[before.length]? = some v)
    (image : φ.value v = ⟨s.region.values.size⟩) (count : s.region.args.length = before.length)
    (other : ∀ w, w.index < r.values.size → (φ.value w).index < s.region.values.size →
      r.nameOf v ≠ r.nameOf w) {name : Name} (text : name.text = r.nameOf v) :
    r.Ready φ (before ++ [v]) (s.withArg name (r.typeOf v)) := by
  have defined := wf.argDefined before.length v here
  have new : r.MirrorsValue φ (s.region.addArg name.text (r.typeOf v)).2 v := by
    rw [MirrorsValue.eq defined, value?_addArg, if_pos image, text, count]
    rfl
  have made : r.Ready φ ([v] ++ before) (s.withArg name (r.typeOf v)) := by
    rw [Lowering.withArg, ← image]
    refine ready.define [v] (by simp [text]) (by simp) (fun w hw => ?_) ?_ ?_
      fun earlier w later split _ u hu => ?_
    · rw [value?_addArg, if_neg]
      rintro rfl
      exact absurd hw (lt_irrefl _)
    · intro w hw
      obtain rfl := List.mem_singleton.mp hw
      exact ⟨known_of_definition? defined, by simp [image], new⟩
    · intro w hw old u hu
      obtain rfl := List.mem_singleton.mp hu
      exact other w hw old
    · have length := congrArg List.length split
      have := List.length_pos_of_mem hu
      simp only [List.length_append, List.length_cons, List.length_nil] at length
      omega
  exact made.mono (by simp [or_comm])

/-- Arguments are read back in their order. -/
theorem Region.WellFormed.args_read (wf : r.WellFormed) (readable : r.Readable) (before : List ValueId)
    (hargs : r.args = before ++ vs)
    (numbers : r.args.map φ.value = (List.range' 0 r.args.length).map ValueId.mk)
    {decls : List ArgDecl}
    (same : decls.map ArgDecl.bare = vs.map fun v => ArgDecl.bare ⟨r.nameExpr v, r.typeExpr v⟩)
    (ready : r.Ready φ before s) (args : s.region.args = before.map φ.value)
    (count : s.region.values.size = before.length) :
    ∃ t, Lowering.lowerArgs decls s = ((), t) ∧ r.Ready φ r.args t ∧
      t.diagnostics = s.diagnostics ∧ t.region.args = r.args.map φ.value ∧
      t.region.values.size = r.args.length ∧
      t.region = { s.region with args := t.region.args, values := t.region.values } := by
  induction vs generalizing before decls s with
  | nil =>
    obtain rfl := List.map_eq_nil_iff.mp same
    rw [List.append_nil] at hargs
    subst hargs
    exact ⟨s, rfl, ready, rfl, args, count, rfl⟩
  | cons v vs ih =>
    rw [List.map_cons] at same
    obtain ⟨decl, decls, rfl, hdecl, hdecls⟩ := List.map_eq_cons_iff.mp same
    have here : r.args[before.length]? = some v := by simp [hargs]
    have image : φ.value v = ⟨s.region.values.size⟩ := by
      rw [number_of_range numbers here, Nat.zero_add, count]
    have known := known_of_definition? (wf.argDefined before.length v here)
    have name : decl.name.text = r.nameOf v :=
      Name.text_of_bare (congrArg ArgDecl.name hdecl : decl.name.bare = (r.nameExpr v).bare)
    have type : decl.type.valueType? = some (r.typeOf v) := by
      obtain ⟨value, hvalue⟩ := value?_eq_some known
      rw [TypeExpr.valueType?_of_bare
        (congrArg ArgDecl.type hdecl : decl.type.bare = (r.typeExpr v).bare)]
      simpa [typeExpr, typeOf, hvalue] using (readable.values v value hvalue).2.2
    have other : ∀ w, w.index < r.values.size → (φ.value w).index < s.region.values.size →
        r.nameOf v ≠ r.nameOf w := fun w hw old => by
      refine wf.arg_fresh readable (List.mem_of_getElem? here) hw ?_
      rintro rfl
      rw [image] at old
      exact absurd old (lt_irrefl _)
    have unused : s.sites.lookup decl.name.text = none := by
      refine List.lookup_eq_none_iff.mpr fun site hsite => ?_
      obtain ⟨w, hw, same, old⟩ := ready.sites site.1 (List.mem_map_of_mem hsite)
      simpa [name, ← same] using other w hw old
    have ready' := ready.withArg wf here image (by simp [args]) other name
    obtain ⟨t, run, readyT, quiet, argsT, countT, header⟩ := ih (before ++ [v]) (by simp [hargs])
      hdecls ready' (by simp [Lowering.withArg, Lowering.bound, Region.addArg, addValue, args, image])
      (by simp [Lowering.withArg, Lowering.bound, count])
    refine ⟨t, ?_, readyT, quiet, argsT, countT, header⟩
    rw [Lowering.lowerArgs_eq ready.opened type unused]
    exact run

end Args

/-- A region that is read back from what it is written as is restored, without complaint. -/
theorem Region.WellFormed.restores {r : Region} (wf : r.WellFormed) (readable : r.Readable)
    (leveled : r.Leveled) {φ : Renaming} {last : IdSupply}
    (numbers : r.args.map φ.value = (List.range' 0 r.args.length).map ValueId.mk)
    (places : r.Places φ ⟨0, r.args.length⟩ r.body last) {f : Func} (same : f.bare = r.func.bare) :
    f.lower.2 = [] ∧ r.Restored φ f.lower.1 := by
  have name : f.name.text = r.name :=
    Name.text_of_bare (congrArg Func.name same : f.name.bare = (⟨r.name, default⟩ : Name).bare)
  have args : f.args.map ArgDecl.bare =
      r.args.map fun v => ArgDecl.bare ⟨r.nameExpr v, r.typeExpr v⟩ := by
    have args : f.args.map ArgDecl.bare = r.func.args.map ArgDecl.bare := congrArg Func.args same
    rw [args, func, List.map_map]
    rfl
  have attrs : f.attrs.map AttrEntry.bare = (r.writtenAttrs.map attrEntry).map AttrEntry.bare :=
    congrArg Func.attrs same
  have body : f.body.map Stmt.bare = r.body.map fun n => (r.stmtOf r.nodes.size n).bare := by
    have body : bareBlock f.body = bareBlock r.func.body := congrArg Func.body same
    rw [bareBlock_eq_map, bareBlock_eq_map] at body
    rw [body, func, List.map_map]
    rfl
  let start : Lowering := .start f
  have ready : r.Ready φ [] start :=
    ⟨by simp [start, Lowering.start], by simp, by simp, by simp, by simp [start, Lowering.start]⟩
  obtain ⟨s, hargs, ready, quietS, argsS, count, header⟩ :=
    wf.args_read readable [] rfl numbers args ready rfl rfl
  have written := readable.regionAttrs
  let marked : Region := { s.region with dataflow := r.dataflow, attrs := r.attrs }
  have hattrs : Lowering.applyFuncAttrs f.attrs s = ((), { s with region := marked }) :=
    Lowering.applyFuncAttrs_eq (by rw [header]; rfl) (by rw [header]; rfl) written.sorted written.free
      (said_of_bare attrs)
  have supplyS : marked.supply = ⟨0, r.args.length⟩ := by
    have nodes : s.region.nodes.size = 0 := by
      rw [header]
      rfl
    simp [marked, supply, nodes, count]
  obtain ⟨t, hbody, read, supplyT⟩ := wf.inScope.reads wf.toCoherent readable leveled none
    wf.bodyKnown wf.bodyParent r.nodes.size (fun n _ => by omega) body
    (ready.sameValues (q := marked) rfl) (by simp) (supplyS ▸ places)
  have done : Lowering.lowerFunc f start = ((), t) := by
    unfold Lowering.lowerFunc
    rw [Lowering.bind_run hargs, Lowering.bind_run hattrs]
    exact hbody
  have region : f.lower = (t.region, t.diagnostics) := by
    rw [Func.lower, Func.lowered, done]
  rw [region]
  refine ⟨read.quiet.trans quietS, ?_, ?_, ?_, ?_, ?_, supplyT ▸ places, fun v hv => ?_, read.mirrors⟩
  · rw [read.wrote.header]
    change s.region.name = r.name
    rw [header]
    exact name
  · rw [read.wrote.header]
  · rw [read.wrote.header]
  · rw [read.wrote.header]
    exact argsS
  · rw [read.wrote.body]
    change s.region.body ++ _ = _
    rw [header]
    rfl
  · exact read.ready.values v (List.mem_append_right _ hv)

section Identity

theorem NodeKind.rename_id (kind : NodeKind) : kind.rename .id = kind := by
  cases kind <;> simp [NodeKind.rename, Renaming.id]

theorem Node.rename_id (node : Node) : node.rename .id = node := by
  rw [Node.rename, NodeKind.rename_id]
  simp [Renaming.id]

theorem Value.rename_id (value : Value) : value.rename .id = value := by
  obtain ⟨name, type, definition⟩ := value
  cases definition <;> rfl

theorem Region.Places.last_unique {r : Region} {φ : Renaming} {s a b : IdSupply} {ns : List NodeId}
    (h : r.Places φ s ns a) (h' : r.Places φ s ns b) : a = b := by
  induction h generalizing b with
  | nil =>
    cases h'
    rfl
  | cons _ _ _ _ ihInside ihRest =>
    cases h' with
    | cons _ _ inside rest =>
      obtain rfl := ihInside inside
      exact ihRest rest

/-- A region whose nodes and values are numbered as they stand is restored to itself. -/
theorem Region.Restored.bare_eq {r q : Region} (numbered : r.Numbered) (h : r.Restored .id q) :
    q.bare = r.bare := by
  have supply := h.places.last_unique numbered.body
  have nodeCount : q.nodes.size = r.nodes.size := congrArg IdSupply.nodes supply
  have valueCount : q.values.size = r.values.size := congrArg IdSupply.values supply
  have nodes : q.nodes.map Node.bare = r.nodes.map Node.bare := by
    refine Array.ext_getElem? fun i => ?_
    rw [Array.getElem?_map, Array.getElem?_map]
    rcases Nat.lt_or_ge i r.nodes.size with low | high
    · obtain ⟨u, hu, n, hn, he⟩ := numbered.body.node_surj (Nat.zero_le i) low
      obtain rfl : n = ⟨i⟩ := he
      obtain ⟨node, hnode⟩ := node?_eq_some (n := ⟨i⟩) low
      have mirrors := (h.mirrors u hu ⟨i⟩ hn).node
      have parent : (r.parent? ⟨i⟩).map Renaming.id.node = node.parent := by
        simp [parent?, hnode, Renaming.id]
      rw [MirrorsUnder, hnode, Option.map_some, parent, Node.rename_id] at mirrors
      change (q.node? ⟨i⟩).map Node.bare = (r.node? ⟨i⟩).map Node.bare
      rw [hnode]
      exact mirrors
    · rw [Array.getElem?_eq_none high, Array.getElem?_eq_none (nodeCount ▸ high)]
  have values : q.values = r.values := by
    refine Array.ext_getElem? fun i => ?_
    rcases Nat.lt_or_ge i r.values.size with low | high
    · have mirrors : r.MirrorsValue .id q ⟨i⟩ := by
        rcases Nat.lt_or_ge i r.args.length with arg | inner
        · refine h.values ⟨i⟩ ?_
          rw [numbered.args]
          simpa using arg
        · obtain ⟨u, hu, n, hn, v, hv, he⟩ := numbered.body.value_surj inner low
          obtain rfl : v = ⟨i⟩ := he
          exact (h.mirrors u hu n hn).values _ hv
      rw [MirrorsValue, Option.map_congr (fun value _ => Value.rename_id value), Option.map_id'] at mirrors
      exact mirrors
    · rw [Array.getElem?_eq_none high, Array.getElem?_eq_none (valueCount ▸ high)]
  have args : q.args = r.args := by simpa [Renaming.id] using h.args
  have body : q.body = r.body := by simpa [Renaming.id] using h.body
  simp only [bare, Region.mk.injEq]
  exact ⟨h.name, args, body, h.dataflow, h.attrs, trivial, nodes, values⟩

end Identity

section Rewritten

variable {r q : Region} {φ : Renaming}

theorem Region.MirrorsValue.names {v : ValueId} (h : r.MirrorsValue φ q v) :
    q.nameExpr (φ.value v) = r.nameExpr v ∧ q.typeExpr (φ.value v) = r.typeExpr v := by
  unfold MirrorsValue at h
  cases hv : r.value? v <;>
    simp [nameExpr, nameOf, typeExpr, typeOf, h, hv, Value.rename]

/-- An operation is written the same way under new identifiers. -/
theorem Region.opOf_rename {node : Node}
    (operands : ∀ v ∈ node.operands, r.MirrorsValue φ q v)
    (results : ∀ v ∈ node.results, r.MirrorsValue φ q v) {made : Node}
    (kind : made.kind = node.kind) (operands' : made.operands = node.operands.map φ.value)
    (results' : made.results = node.results.map φ.value) : q.opOf made = r.opOf node := by
  have names : made.operands.map q.nameExpr = node.operands.map r.nameExpr := by
    rw [operands', List.map_map]
    exact List.map_congr_left fun v hv => (operands v hv).names.1
  have types : made.results.map q.typeExpr = node.results.map r.typeExpr := by
    rw [results', List.map_map]
    exact List.map_congr_left fun v hv => (results v hv).names.2
  have operand (i : Nat) : q.operandExpr made i = r.operandExpr node i := by
    unfold operandExpr
    rw [← List.getElem?_map, ← List.getElem?_map, names]
  have head : made.results.head?.map q.typeExpr = node.results.head?.map r.typeExpr := by
    rw [← List.head?_map, ← List.head?_map, types]
  unfold opOf
  rw [kind]
  cases hk : node.kind <;> simp [names, types, operand, head, resultExpr]

/-- The node that stands for another one. -/
theorem Region.Mirrors.exists_node {n : NodeId} {node : Node} (h : r.Mirrors φ q n)
    (hnode : r.node? n = some node) : ∃ made, q.node? (φ.node n) = some made ∧
      made.kind = node.kind.rename φ ∧ made.operands = node.operands.map φ.value ∧
      made.results = node.results.map φ.value ∧ made.writtenAttrs = node.writtenAttrs := by
  have image := h.node
  rw [MirrorsUnder, hnode] at image
  obtain ⟨made, hmade, image⟩ := Option.map_eq_some_iff.mp image
  have level : made.bare.level = node.level := by
    rw [image]
    rfl
  have attrs : made.bare.attrs = node.attrs := by
    rw [image]
    rfl
  refine ⟨made, hmade, (congrArg Node.kind image :), (congrArg Node.operands image :),
    (congrArg Node.results image :), ?_⟩
  rw [Node.writtenAttrs, Node.writtenAttrs, ← level, ← attrs]
  rfl

/-- The statements of a restored region are those of the region that it is restored from. -/
theorem Region.Restored.stmtOf_eq (wf : q.WellFormed) (coherent : r.Coherent) {visible : List ValueId}
    {ns : List NodeId} (h : r.Scoped visible ns) (known : ∀ n ∈ ns, n.index < r.nodes.size)
    (values : ∀ v ∈ visible, r.MirrorsValue φ q v)
    (mirrors : ∀ u ∈ ns, ∀ n, r.Within u n → r.Mirrors φ q n) {depth depth' : Nat}
    (deep : ∀ n ∈ ns, r.nodes.size ≤ n.index + depth)
    (deep' : ∀ n ∈ ns, q.nodes.size ≤ (φ.node n).index + depth') :
    ∀ n ∈ ns, q.stmtOf depth' (φ.node n) = r.stmtOf depth n := by
  induction h generalizing depth depth' with
  | nil => simp
  | @cons visible n ns used _ _ ihInside ihRest =>
    have low := known n (by simp)
    have high := deep n (by simp)
    have high' := deep' n (by simp)
    have self := mirrors n (by simp) n (Within.refl r n)
    intro m hm
    rcases List.mem_cons.mp hm with rfl | hm
    · obtain ⟨node, hnode⟩ := node?_eq_some low
      obtain ⟨made, hmade, kind, operands, results, attrs⟩ := self.exists_node hnode
      have low' := index_lt_of_node? hmade
      obtain ⟨depth, rfl⟩ : ∃ d, depth = d + 1 := ⟨depth - 1, by omega⟩
      obtain ⟨depth', rfl⟩ : ∃ d, depth' = d + 1 := ⟨depth' - 1, by omega⟩
      have resultValues : ∀ v ∈ node.results, r.MirrorsValue φ q v := fun v hv =>
        self.values v (List.mem_append_right _ (by simpa [Region.results, hnode] using hv))
      have names : made.results.map q.nameExpr = node.results.map r.nameExpr := by
        rw [results, List.map_map]
        exact List.map_congr_left fun v hv => (resultValues v hv).names.1
      by_cases loop : node.kind.isLoop = true
      · obtain ⟨iv, lower, upper, body, hk⟩ := NodeKind.eq_loop loop
        have children : r.bodyOf m = body := by simp [bodyOf, kind?, hnode, hk, NodeKind.body]
        subst children
        have iv' := self.values iv (List.mem_append_left _
          (by simp [ivs, kind?, hnode, hk, NodeKind.inductionVar?]))
        have hk' : made.kind = .loop (φ.value iv) lower upper ((r.bodyOf m).map φ.node) := by
          rw [kind, hk]
          rfl
        have children' : q.bodyOf (φ.node m) = (r.bodyOf m).map φ.node := by
          simp [bodyOf, kind?, hmade, hk', NodeKind.body]
        have inside := @ihInside (coherent.childKnown m)
          (fun v hv => (List.mem_append.mp hv).elim
            (fun iv => self.values v (List.mem_append_left _ iv)) (values v))
          (fun c hc k hk => mirrors m (by simp) k (Relation.ReflTransGen.head hc hk)) depth depth'
          (fun c hc => by have := coherent.childDeeper m c hc; omega) (fun c hc => by
            have := wf.childDeeper (φ.node m) (φ.node c) (by
              rw [Child, children']
              exact List.mem_map_of_mem hc)
            omega)
        rw [stmtOf_loop hmade hk', stmtOf_loop hnode hk, names, iv'.names.1, attrs, List.map_map]
        congr 1
        exact List.map_congr_left inside
      · have noLoop : node.kind.isLoop = false := by simpa using loop
        have kind : made.kind = node.kind := kind.trans (NodeKind.rename_of_noLoop noLoop φ)
        rw [stmtOf_op hmade (kind ▸ noLoop), stmtOf_op hnode noLoop, names, attrs,
          opOf_rename (fun v hv => ?_) resultValues kind operands results]
        exact values v (used v (by simpa [Region.operands, hnode] using hv))
    · exact ihRest (fun c hc => known c (by simp [hc]))
        (fun v hv => (List.mem_append.mp hv).elim
          (fun result => self.values v (List.mem_append_right _ result)) (values v))
        (fun u hu => mirrors u (by simp [hu])) (fun c hc => deep c (by simp [hc]))
        (fun c hc => deep' c (by simp [hc])) m hm

/-- A restored region is written like the region that it is restored from. -/
theorem Region.Restored.func_eq (wf : r.WellFormed) (wf' : q.WellFormed) (h : r.Restored φ q) :
    q.func = r.func := by
  have args : (q.args.map fun v => ArgDecl.mk (q.nameExpr v) (q.typeExpr v)) =
      r.args.map fun v => ArgDecl.mk (r.nameExpr v) (r.typeExpr v) := by
    rw [h.args, List.map_map]
    refine List.map_congr_left fun v hv => ?_
    obtain ⟨name, type⟩ := (h.values v hv).names
    simp [name, type]
  have attrs : q.writtenAttrs = r.writtenAttrs := by
    rw [writtenAttrs, writtenAttrs, h.dataflow, h.attrs]
  have body : q.body.map (q.stmtOf q.nodes.size) = r.body.map (r.stmtOf r.nodes.size) := by
    rw [h.body, List.map_map]
    exact List.map_congr_left (stmtOf_eq wf' wf.toCoherent wf.inScope wf.bodyKnown h.values h.mirrors
      (fun _ _ => by omega) (fun _ _ => by omega))
  rw [func, func, h.name, args, attrs, body]

end Rewritten

end Staging
