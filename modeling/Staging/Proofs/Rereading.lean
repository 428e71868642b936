import Staging.Proofs.Lowered
import Staging.Proofs.Mirroring

namespace Staging

section Bare

variable {r : Region} {scopes : Scopes} {op op' : Op} {kind : NodeKind} {operands : List ValueId}
  {types : List ValueType}

theorem TypeExpr.valueType?_of_bare {t t' : TypeExpr} (h : t.bare = t'.bare) :
    t.valueType? = t'.valueType? := by
  cases t <;> cases t' <;> simp_all [TypeExpr.bare, TypeExpr.valueType?, Name.bare]

theorem Name.text_of_bare {n n' : Name} (h : n.bare = n'.bare) : n.text = n'.text := by
  simpa [Name.bare] using h

theorem mapM_of_map {α β γ : Type} {f : α → β} {g : α → Option γ} {as bs : List α}
    (only : ∀ a b, f a = f b → g a = g b) (h : as.map f = bs.map f) : as.mapM g = bs.mapM g := by
  induction as generalizing bs with
  | nil =>
    obtain rfl := List.map_eq_nil_iff.mp h.symm
    rfl
  | cons a as ih =>
    obtain ⟨b, bs, rfl, hb, hbs⟩ := List.map_eq_cons_iff.mp h.symm
    rw [List.mapM_cons, List.mapM_cons, only a b hb.symm, ih hbs.symm]

theorem copiedType?_of_bare {source : ValueId} {type type' : Option TypeExpr}
    (h : type.map TypeExpr.bare = type'.map TypeExpr.bare) :
    Lowering.copiedType? r source type = Lowering.copiedType? r source type' := by
  cases type <;> cases type' <;> simp only [Option.map_none, Option.map_some, reduceCtorEq] at h
  · rfl
  · exact TypeExpr.valueType?_of_bare (Option.some.inj h)

/-- What an operation stands for does not depend on where it stands. -/
theorem Op.Makes.of_bare (h : op'.Makes r scopes kind operands types) (same : op.bare = op'.bare) :
    op.Makes r scopes kind operands types := by
  have found {names names' : List Name} {vs : List ValueId}
      (h : names'.mapM (fun name => scopes.find? name.text) = some vs)
      (same : names.map Name.bare = names'.map Name.bare) :
      names.mapM (fun name => scopes.find? name.text) = some vs := by
    rw [mapM_of_map (fun a b hab => by rw [Name.text_of_bare hab]) same]
    exact h
  have valueType {t t' : TypeExpr} {type : ValueType} (h : t'.valueType? = some type)
      (same : t.bare = t'.bare) : t.valueType? = some type :=
    (TypeExpr.valueType?_of_bare same).trans h
  have value {n n' : Name} {v : ValueId} (h : scopes.find? n'.text = some v)
      (same : n.bare = n'.bare) : scopes.find? n.text = some v := by
    rw [Name.text_of_bare same]
    exact h
  cases h with
  | alloc named memref =>
    cases op <;> simp only [Op.bare, reduceCtorEq, Op.alloc.injEq] at same
    obtain ⟨rfl, type⟩ := same
    exact .alloc (valueType named type) memref
  | constant named =>
    cases op <;> simp only [Op.bare, reduceCtorEq, Op.constant.injEq] at same
    obtain ⟨rfl, type⟩ := same
    exact .constant (valueType named type)
  | convert foundOperand named =>
    cases op <;> simp only [Op.bare, reduceCtorEq, Op.convert.injEq] at same
    obtain ⟨rfl, operand, type⟩ := same
    exact .convert (value foundOperand operand) (valueType named type)
  | ret all =>
    cases op <;> simp only [Op.bare, reduceCtorEq, Op.ret.injEq] at same
    exact .ret (found all same)
  | compute all named =>
    cases op <;> simp only [Op.bare, reduceCtorEq, Op.compute.injEq] at same
    obtain ⟨rfl, names, types⟩ := same
    refine .compute (found all names) ?_
    rw [mapM_of_map (fun a b => TypeExpr.valueType?_of_bare) types]
    exact named
  | load foundMemref named buffer =>
    cases op <;> simp only [Op.bare, reduceCtorEq, Op.load.injEq] at same
    obtain ⟨memref, type⟩ := same
    exact .load (value foundMemref memref) (valueType named type) buffer
  | store foundValue foundMemref buffer =>
    cases op <;> simp only [Op.bare, reduceCtorEq, Op.store.injEq] at same
    obtain ⟨stored, memref⟩ := same
    exact .store (value foundValue stored) (value foundMemref memref) buffer
  | copyInto foundSource foundTarget bufferSource bufferTarget =>
    cases op <;> simp only [Op.bare, reduceCtorEq, Op.copy.injEq] at same
    obtain ⟨operands, -⟩ := same
    obtain ⟨source, rest, rfl, hsource, operands⟩ := List.map_eq_cons_iff.mp operands
    obtain ⟨target, rest, rfl, htarget, operands⟩ := List.map_eq_cons_iff.mp operands
    obtain rfl := List.map_eq_nil_iff.mp operands
    exact .copyInto (value foundSource hsource) (value foundTarget htarget) bufferSource bufferTarget
  | copyNew foundSource named =>
    cases op <;> simp only [Op.bare, reduceCtorEq, Op.copy.injEq] at same
    obtain ⟨operands, type⟩ := same
    obtain ⟨source, rest, rfl, hsource, operands⟩ := List.map_eq_cons_iff.mp operands
    obtain rfl := List.map_eq_nil_iff.mp operands
    exact .copyNew (value foundSource hsource) ((copiedType?_of_bare type).trans named)

theorem mapM_map_some {α β γ : Type} {f : α → β} {find : β → Option γ} {found : α → γ} {as : List α}
    (h : ∀ a ∈ as, find (f a) = some (found a)) : (as.map f).mapM find = some (as.map found) := by
  induction as with
  | nil => rfl
  | cons a as ih => simp [h a (by simp), ih fun b hb => h b (by simp [hb])]

end Bare

/-- The numbers by which nodes are put into stages can be read. -/
def Region.Leveled (r : Region) : Prop :=
  ∀ n level, r.level? n = some level → level < 2 ^ 32

section Opens

variable {r : Region} {φ : Renaming} {visible : List ValueId} {n : NodeId} {node : Node}
  {s t : Lowering}

theorem Region.Ready.finds_operand (ready : r.Ready φ visible s) (readable : r.Readable)
    (used : ∀ v ∈ r.operands n, v ∈ visible) {v : ValueId} (hv : v ∈ r.operands n) :
    Scopes.find? s.scopes (r.nameExpr v).text = some (φ.value v) :=
  ready.finds v (used v hv) (readable.latest n v hv)

theorem Region.Readable.valueType?_result (readable : r.Readable) {v : ValueId}
    (hv : v ∈ r.results n) : (r.typeExpr v).valueType? = some (r.typeOf v) := by
  obtain ⟨value, hvalue⟩ := value?_eq_some (readable.resultKnown n v hv)
  have valid := (readable.values v value hvalue).2.2
  simpa [typeExpr, typeOf, hvalue] using valid

/-- What a node reads or writes is still a memref. -/
theorem Region.Ready.isMemref_touched (ready : r.Ready φ visible s) (coherent : r.Coherent)
    (used : ∀ v ∈ r.operands n, v ∈ visible) {mem : ValueId} {access : AccessKind}
    (touched : (mem, access) ∈ r.touched n) (operand : mem ∈ r.operands n) :
    s.region.isMemref (φ.value mem) = true := by
  have memref := coherent.buffers n mem access touched
  have mirrors := ready.values mem (used mem operand)
  unfold MirrorsValue at mirrors
  unfold isMemref at memref ⊢
  rw [mirrors]
  cases hv : r.value? mem <;> simp_all [Value.rename]

/-- The operation that a node is written as stands for the node. -/
theorem Region.Ready.makes (ready : r.Ready φ visible s) (readable : r.Readable)
    (coherent : r.Coherent) (hnode : r.node? n = some node) (noLoop : node.kind.isLoop = false)
    (used : ∀ v ∈ r.operands n, v ∈ visible) :
    (r.opOf node).Makes s.region s.scopes node.kind (node.operands.map φ.value)
      (node.results.map r.typeOf) := by
  have operands : r.operands n = node.operands := by simp [Region.operands, hnode]
  have results : r.results n = node.results := by simp [Region.results, hnode]
  have found : ∀ v ∈ node.operands,
      Scopes.find? s.scopes (r.nameExpr v).text = some (φ.value v) := fun v hv =>
    ready.finds_operand readable used (operands ▸ hv)
  have all : (node.operands.map r.nameExpr).mapM (fun name => Scopes.find? s.scopes name.text) =
      some (node.operands.map φ.value) := mapM_map_some found
  have named : ∀ v ∈ node.results, (r.typeExpr v).valueType? = some (r.typeOf v) := fun v hv =>
    readable.valueType?_result (results ▸ hv)
  have buffer {mem : ValueId} {access : AccessKind} (touched : (mem, access) ∈ r.touched n)
      (hmem : mem ∈ node.operands) : s.region.isMemref (φ.value mem) = true :=
    ready.isMemref_touched coherent used touched (operands ▸ hmem)
  have result (one : node.results.length = 1) : ∃ v, node.results = [v] ∧
      r.resultExpr node = r.typeExpr v ∧ (r.typeExpr v).valueType? = some (r.typeOf v) := by
    obtain ⟨v, hv⟩ := List.length_eq_one_iff.mp one
    exact ⟨v, hv, by simp [resultExpr, hv], named v (by simp [hv])⟩
  have operand (one : node.operands.length = 1) : ∃ v, node.operands = [v] ∧
      r.operandExpr node 0 = r.nameExpr v ∧
        Scopes.find? s.scopes (r.nameExpr v).text = some (φ.value v) := by
    obtain ⟨v, hv⟩ := List.length_eq_one_iff.mp one
    exact ⟨v, hv, by simp [operandExpr, hv], found v (by simp [hv])⟩
  have fits := coherent.fits n node hnode
  have kind : r.kind? n = some node.kind := by simp [kind?, hnode]
  unfold opOf
  cases hk : node.kind with
  | alloc stack =>
    obtain ⟨none, one⟩ := (hk ▸ fits : (NodeKind.alloc stack).Fits _ _)
    obtain ⟨v, hv, expr, known⟩ := result one
    have memref := readable.allocated n stack (hk ▸ kind) v (by simp [results, hv])
    rw [List.length_eq_zero_iff.mp none, hv, expr]
    refine .alloc known ?_
    unfold isMemref at memref
    cases hvalue : r.value? v <;> simp_all [typeOf]
  | constant value =>
    obtain ⟨none, one⟩ := (hk ▸ fits : (NodeKind.constant value).Fits _ _)
    obtain ⟨v, hv, expr, known⟩ := result one
    rw [List.length_eq_zero_iff.mp none, hv, expr]
    exact .constant known
  | convert conversion =>
    obtain ⟨source, one⟩ := (hk ▸ fits : (NodeKind.convert conversion).Fits _ _)
    obtain ⟨v, hv, expr, known⟩ := result one
    obtain ⟨w, hw, operandExpr, find⟩ := operand source
    rw [hv, expr, hw, operandExpr]
    exact .convert find known
  | ret =>
    have none : node.results.length = 0 := (hk ▸ fits : NodeKind.ret.Fits _ _)
    rw [List.length_eq_zero_iff.mp none]
    exact .ret all
  | compute name => exact .compute all (mapM_map_some named)
  | load =>
    obtain ⟨source, one⟩ := (hk ▸ fits : NodeKind.load.Fits _ _)
    obtain ⟨v, hv, expr, known⟩ := result one
    obtain ⟨w, hw, operandExpr, find⟩ := operand source
    have memref := @buffer w .read (by simp [touched, kind, hk, operands, hw]) (by simp [hw])
    rw [hv, expr, hw, operandExpr]
    exact .load find known memref
  | store =>
    obtain ⟨two, none⟩ := (hk ▸ fits : NodeKind.store.Fits _ _)
    obtain ⟨v, w, hvw⟩ := List.length_eq_two.mp two
    have memref := @buffer w .write (by simp [touched, kind, hk, operands, hvw]) (by simp [hvw])
    have first := found v (by simp [hvw])
    have second := found w (by simp [hvw])
    rw [operandExpr_of (v := v) (by simp [hvw]), operandExpr_of (v := w) (by simp [hvw]), hvw,
      List.length_eq_zero_iff.mp none]
    exact .store first second memref
  | copy =>
    rcases (hk ▸ fits : NodeKind.copy.Fits _ _) with ⟨two, none⟩ | ⟨source, one⟩
    · obtain ⟨v, w, hvw⟩ := List.length_eq_two.mp two
      have first := @buffer v .read (by simp [touched, kind, hk, operands, hvw]) (by simp [hvw])
      have second := @buffer w .write (by simp [touched, kind, hk, operands, hvw]) (by simp [hvw])
      rw [List.length_eq_zero_iff.mp none, hvw]
      exact .copyInto (found v (by simp [hvw])) (found w (by simp [hvw])) first second
    · obtain ⟨v, hv, expr, known⟩ := result one
      obtain ⟨w, hw, -, find⟩ := operand source
      rw [hv, hw]
      exact .copyNew find known
  | loop iv lower upper body => simp [hk, NodeKind.isLoop] at noLoop

/-- What is there once a node of `r` has been read back into one that is in no block. -/
structure Region.Opens (r : Region) (φ : Renaming) (visible : List ValueId) (n : NodeId)
    (s t : Lowering) : Prop where
  quiet : t.diagnostics = s.diagnostics
  tail : t.scopes.tail = s.scopes.tail
  wrote : s.region.Wrote none [] t.region
  ready : r.Ready φ (r.results n ++ visible) t
  top : r.MirrorsUnder φ t.region none n
  values : ∀ v ∈ r.defs n, r.MirrorsValue φ t.region v
  inside : ∀ c, r.Child n c → ∀ m, r.Within c m → r.Mirrors φ t.region m

/-- What is there once nodes of `r` have been read back into nodes at the end of a block. -/
structure Region.Read (r : Region) (φ : Renaming) (block : Option NodeId) (visible : List ValueId)
    (ns : List NodeId) (s t : Lowering) : Prop where
  quiet : t.diagnostics = s.diagnostics
  tail : t.scopes.tail = s.scopes.tail
  wrote : s.region.Wrote (block.map φ.node) (ns.map φ.node) t.region
  ready : r.Ready φ (ns.flatMap r.results ++ visible) t
  mirrors : ∀ u ∈ ns, ∀ n, r.Within u n → r.Mirrors φ t.region n

theorem said_of_bare {entries : List AttrEntry} {attrs : Attrs}
    (h : entries.map AttrEntry.bare = (attrs.map attrEntry).map AttrEntry.bare) :
    Lowering.said entries = attrs := by
  have pairs := congrArg (List.map fun e : AttrEntry => (e.key.text, e.value)) h
  simpa [Lowering.said, Function.comp_def, AttrEntry.bare, Name.bare, attrEntry] using pairs

/-- New values take the numbers that come next. -/
theorem number_of_range {v : ValueId} {vs : List ValueId} {size : Nat} {i : Nat}
    (h : vs.map φ.value = (List.range' size vs.length).map ValueId.mk) (hv : vs[i]? = some v) :
    φ.value v = ⟨size + i⟩ := by
  have image := congrArg (fun l => l[i]?) h
  obtain ⟨low, he⟩ := List.getElem?_eq_some_iff.mp hv
  simpa [he, List.getElem?_range', low] using image

/-- A node and the values that it defines take the numbers that come next. -/
structure Region.Upcoming (r : Region) (φ : Renaming) (n : NodeId) (s : Lowering) : Prop where
  node : φ.node n = ⟨s.region.nodes.size⟩
  values : (r.defs n).map φ.value =
    (List.range' s.region.values.size (r.defs n).length).map ValueId.mk

theorem Region.Upcoming.value (next : r.Upcoming φ n s) {i : Nat} {v : ValueId}
    (hv : (r.defs n)[i]? = some v) : φ.value v = ⟨s.region.values.size + i⟩ :=
  number_of_range next.values hv

theorem Region.Upcoming.bounds (next : r.Upcoming φ n s) {v : ValueId} (hv : v ∈ r.defs n) :
    s.region.values.size ≤ (φ.value v).index ∧
      (φ.value v).index < s.region.values.size + (r.defs n).length := by
  obtain ⟨i, hi⟩ := List.getElem?_of_mem hv
  obtain ⟨low, -⟩ := List.getElem?_eq_some_iff.mp hi
  rw [next.value hi]
  exact ⟨Nat.le_add_right _ _, Nat.add_lt_add_left low _⟩

/-- None of the names that a node defines has been defined before. -/
theorem Region.Ready.names_new (ready : r.Ready φ visible s) (readable : r.Readable)
    (coherent : r.Coherent) (next : r.Upcoming φ n s) {names : List Name}
    (texts : names.map Name.text = (r.defs n).map r.nameOf) :
    ∀ name ∈ names, s.sites.lookup name.text = none := by
  intro name h
  have mem : name.text ∈ (r.defs n).map r.nameOf := texts ▸ List.mem_map_of_mem h
  obtain ⟨w, hw, same⟩ := List.mem_map.mp mem
  refine List.lookup_eq_none_iff.mpr fun site hsite => ?_
  obtain ⟨v, known, name', old⟩ := ready.sites site.1 (List.mem_map_of_mem hsite)
  have other := readable.fresh coherent (fun v hv => (next.bounds hv).1) known old hw
  rw [same, name'] at other
  simpa using other

section Op

variable {names : List Name} {op : Op} {attrs : List AttrEntry}

theorem Region.defs_of_op (hnode : r.node? n = some node) (noLoop : node.kind.isLoop = false) :
    r.defs n = node.results := by
  rw [Region.defs, ivs_eq_nil hnode noLoop, Region.results, hnode]
  rfl

/-- What the operation that a node is written as is lowered to. -/
def Region.readOp (r : Region) (φ : Renaming) (node : Node) (names : List Name) (span : Span)
    (s : Lowering) : Lowering :=
  (s.finished names span node.kind (node.operands.map φ.value)
    (node.results.map r.typeOf)).attributed ⟨s.region.nodes.size⟩ node.level node.attrs

theorem Region.readOp_wrote (r : Region) (φ : Renaming) (node : Node) (names : List Name)
    (span : Span) (s : Lowering) : s.region.Wrote none [] (r.readOp φ node names span s).region :=
  (s.region.extendWith_wrote _ _).modify le_rfl _

theorem Region.readOp_supply (count : names.length = node.results.length) (span : Span) :
    (r.readOp φ node names span s).region.supply =
      ⟨s.region.nodes.size + 1, s.region.values.size + node.results.length⟩ := by
  simp [readOp, Lowering.attributed, Lowering.finished, Lowering.bound, Region.supply, modifyNode,
    namedResults, count]

theorem Region.Upcoming.mirrorsUnder_readOp (next : r.Upcoming φ n s)
    (hnode : r.node? n = some node) (noLoop : node.kind.isLoop = false) (names : List Name)
    (span : Span) : r.MirrorsUnder φ (r.readOp φ node names span s).region none n := by
  have numbers := defs_of_op hnode noLoop ▸ next.values
  rw [MirrorsUnder, next.node, readOp, Lowering.node?_attributed (s.node?_finished ..), hnode]
  simp [Node.bare, Node.rename, NodeKind.rename_of_noLoop noLoop, numbers]

theorem Region.Upcoming.mirrorsValue_readOp (next : r.Upcoming φ n s) (coherent : r.Coherent)
    (hnode : r.node? n = some node) (noLoop : node.kind.isLoop = false)
    (texts : names.map Name.text = (r.defs n).map r.nameOf) (span : Span) {v : ValueId}
    (hv : v ∈ r.defs n) : r.MirrorsValue φ (r.readOp φ node names span s).region v := by
  have defs := defs_of_op hnode noLoop
  obtain ⟨i, hi⟩ := List.getElem?_of_mem hv
  have defined := coherent.resultDefined n i v (by rw [Region.results, hnode, ← hi, defs]; rfl)
  have entry : (List.zip (names.map Name.text) (node.results.map r.typeOf))[i]? =
      some (r.nameOf v, r.typeOf v) := by
    simp only [texts, ← defs, List.getElem?_zip_eq_some, List.getElem?_map, hi, Option.map_some,
      and_self]
  rw [MirrorsValue.eq defined, next.value hi, Definition.rename, next.node]
  exact Lowering.value?_finished entry span node.kind (node.operands.map φ.value)

/-- The operation that a node is written as is lowered to the node. -/
theorem Region.Ready.op_lowers (ready : r.Ready φ visible s) (readable : r.Readable)
    (coherent : r.Coherent) (leveled : r.Leveled) (next : r.Upcoming φ n s)
    (hnode : r.node? n = some node) (noLoop : node.kind.isLoop = false)
    (used : ∀ v ∈ r.operands n, v ∈ visible)
    (texts : names.map Name.text = (r.defs n).map r.nameOf) (sameOp : op.bare = (r.opOf node).bare)
    (sameAttrs : attrs.map AttrEntry.bare = (node.writtenAttrs.map attrEntry).map AttrEntry.bare)
    (span : Span) : Lowering.lowerStmt (.op names op attrs span) s =
      (some ⟨s.region.nodes.size⟩, r.readOp φ node names span s) := by
  have written := readable.attrs n node hnode
  have makes := (ready.makes readable coherent hnode noLoop used).of_bare sameOp
  have count : names.length = (node.results.map r.typeOf).length := by
    simpa [defs_of_op hnode noLoop] using congrArg List.length texts
  unfold Lowering.lowerStmt
  rw [Lowering.bind_run (Lowering.checkAllNew_eq (ready.names_new readable coherent next texts)),
    if_pos rfl, Lowering.bind_run ((Lowering.lowerOp_eq makes count).trans
      (Lowering.finish_eq ready.opened count span _ _))]
  simp only
  rw [Lowering.bind_run (Lowering.applyAttrs_eq (s.node?_finished ..) rfl rfl written.sorted
    written.free (fun level hl => leveled n level (by simp [level?, hnode, hl]))
    (said_of_bare sameAttrs))]
  rfl

/-- A node without a body is read back. -/
theorem Region.Ready.op_opens (ready : r.Ready φ visible s) (readable : r.Readable)
    (coherent : r.Coherent) (leveled : r.Leveled) (next : r.Upcoming φ n s)
    (hnode : r.node? n = some node) (noLoop : node.kind.isLoop = false)
    (used : ∀ v ∈ r.operands n, v ∈ visible) {stmt : Stmt} {depth : Nat}
    (same : stmt.bare = (r.stmtOf (depth + 1) n).bare) :
    ∃ t, Lowering.lowerStmt stmt s = (some (φ.node n), t) ∧ r.Opens φ visible n s t ∧
      t.region.supply = ⟨s.region.nodes.size + 1, s.region.values.size + (r.defs n).length⟩ := by
  have defs := defs_of_op hnode noLoop
  have results : r.results n = r.defs n := by simp [Region.results, hnode, defs]
  have noBody : ∀ c, ¬ r.Child n c := by
    simp [Child, bodyOf, kind?, hnode, NodeKind.body_eq_nil noLoop]
  rw [stmtOf_op hnode noLoop] at same
  cases stmt with
  | loop => simp [Stmt.bare] at same
  | op names op attrs span =>
    simp only [Stmt.bare, Stmt.op.injEq] at same
    obtain ⟨sameNames, sameOp, sameAttrs, -⟩ := same
    have texts : names.map Name.text = (r.defs n).map r.nameOf := defs ▸ names_of_bare sameNames
    have supply := @readOp_supply r φ node s names (by simpa using congrArg List.length sameNames) span
    have mirrors : ∀ v ∈ r.defs n, r.MirrorsValue φ (r.readOp φ node names span s).region v :=
      fun v hv => next.mirrorsValue_readOp coherent hnode noLoop texts span hv
    have created := ready.create readable coherent (Or.inl (ivs_eq_nil hnode noLoop)) texts
      (r.readOp_wrote φ node names span s) fun v hv => ⟨(next.bounds hv).1, ?_, mirrors v hv⟩
    · refine ⟨r.readOp φ node names span s, ?_, ⟨rfl, rfl, r.readOp_wrote φ node names span s, ?_,
        next.mirrorsUnder_readOp hnode noLoop names span, mirrors, fun c hc => absurd hc (noBody c)⟩,
        defs ▸ supply⟩
      · rw [next.node]
        exact ready.op_lowers readable coherent leveled next hnode noLoop used texts sameOp sameAttrs
          span
      · rw [next.values, defs, ← List.length_map (f := r.typeOf)] at created
        rw [results, defs]
        exact created
    · have size : (r.readOp φ node names span s).region.values.size =
          s.region.values.size + node.results.length := congrArg IdSupply.values supply
      rw [size, ← defs]
      exact (next.bounds hv).2

end Op

theorem Region.Ready.openScope (ready : r.Ready φ visible s) :
    r.Ready φ visible { s with scopes := [] :: s.scopes } :=
  ⟨List.cons_ne_nil _ _, fun v hv latest => ready.finds v hv latest, ready.values, ready.placed,
    ready.sites⟩


section Loop

variable {iv : ValueId} {lower upper : Int} {body : List NodeId} {name : Name} {w : Lowering}

theorem Region.ivs_of_loop (hnode : r.node? n = some node)
    (hk : node.kind = .loop iv lower upper body) : r.ivs n = [iv] := by
  simp [ivs, kind?, hnode, hk, NodeKind.inductionVar?]

theorem Region.Coherent.results_of_loop (coherent : r.Coherent) (hnode : r.node? n = some node)
    (hk : node.kind = .loop iv lower upper body) : r.results n = [] := by
  have fits : node.operands.length = 0 ∧ node.results.length = 0 := by
    simpa [hk, NodeKind.Fits] using coherent.fits n node hnode
  simp [Region.results, hnode, List.length_eq_zero_iff.mp fits.2]

/-- The counter of a loop stands for its values once the loop has been entered. -/
theorem Region.Upcoming.mirrorsValue_entered (next : r.Upcoming φ n s) (readable : r.Readable)
    (coherent : r.Coherent) (hiv : iv ∈ r.ivs n) (number : φ.value iv = ⟨s.region.values.size⟩)
    (text : name.text = r.nameOf iv) (lower upper : Int) (span : Span) :
    r.MirrorsValue φ (s.entered name lower upper span).region iv := by
  rw [MirrorsValue.eq (coherent.ivDefined n iv hiv), number, readable.ivType n iv hiv, ← text,
    Definition.rename, next.node]
  simp [Lowering.entered, Lowering.bound, value?_extendWith]

/-- The body of a loop is lowered where the counter can be used. -/
theorem Region.Ready.enter (ready : r.Ready φ visible s) (readable : r.Readable)
    (coherent : r.Coherent) (next : r.Upcoming φ n s) (hnode : r.node? n = some node)
    (hk : node.kind = .loop iv lower upper body) (text : name.text = r.nameOf iv)
    (number : φ.value iv = ⟨s.region.values.size⟩) (span : Span) :
    r.Ready φ (r.ivs n ++ visible) (s.entered name lower upper span) := by
  have ivs := ivs_of_loop hnode hk
  have results := coherent.results_of_loop hnode hk
  have defs : r.defs n = [iv] := by rw [Region.defs, ivs, results, List.append_nil]
  have mirrors := next.mirrorsValue_entered readable coherent (by simp [ivs]) number text lower upper
    span
  have texts : [name].map Name.text = (r.defs n).map r.nameOf := by simp [defs, text]
  have created := ready.openScope.create readable coherent (Or.inr results) texts
    (s.region.extendWith_wrote
      ⟨.loop ⟨s.region.values.size⟩ lower upper [], [], [], none, none, [], span⟩
      [⟨name.text, .scalar "index", .inductionVar ⟨s.region.nodes.size⟩⟩]) fun v hv => by
    obtain rfl : v = iv := by simpa [defs] using hv
    exact ⟨(next.bounds hv).1, by simp [number], mirrors⟩
  rw [defs, List.map_singleton, number] at created
  rw [ivs]
  exact created

/-- What the loop that a node is written as is lowered to, once its body has been lowered. -/
def Lowering.readLoop (node : Node) (s w : Lowering) : Lowering :=
  ({ w with scopes := s.scopes } : Lowering).attributed ⟨s.region.nodes.size⟩ node.level node.attrs

theorem Lowering.node?_readLoop {made : Node}
    (h : w.region.node? ⟨s.region.nodes.size⟩ = some made) (node : Node) :
    (readLoop node s w).region.node? ⟨s.region.nodes.size⟩ =
      some { made with level := node.level, attrs := node.attrs } :=
  node?_attributed (s := { w with scopes := s.scopes }) h _ _

/-- The loop that a node is written as is lowered to the node, where its body is. -/
theorem Region.Ready.loop_lowers (ready : r.Ready φ visible s) (readable : r.Readable)
    (coherent : r.Coherent) (leveled : r.Leveled) (next : r.Upcoming φ n s)
    (hnode : r.node? n = some node) (hk : node.kind = .loop iv lower upper body)
    (text : name.text = r.nameOf iv) {stmts : List Stmt} {attrs : List AttrEntry}
    (sameAttrs : attrs.map AttrEntry.bare = (node.writtenAttrs.map attrEntry).map AttrEntry.bare)
    {span : Span} (run : Lowering.lowerBlock (some ⟨s.region.nodes.size⟩) stmts
      (s.entered name lower upper span) = ((), w)) (tail : w.scopes.tail = s.scopes)
    {ns : List NodeId} (made : w.region.node? ⟨s.region.nodes.size⟩ =
      some ⟨.loop ⟨s.region.values.size⟩ lower upper ns, [], [], none, none, [], span⟩) :
    Lowering.lowerStmt (.loop [] name lower upper stmts attrs span) s =
      (some ⟨s.region.nodes.size⟩, Lowering.readLoop node s w) := by
  have written := readable.attrs n node hnode
  have texts : [name].map Name.text = (r.defs n).map r.nameOf := by
    simp [Region.defs, ivs_of_loop hnode hk, coherent.results_of_loop hnode hk, text]
  have new := ready.names_new readable coherent next texts name (by simp)
  have close : Lowering.closeScope w = ((), { w with scopes := s.scopes }) := by
    rw [← tail]
    rfl
  unfold Lowering.lowerStmt
  rw [Lowering.bind_run (Lowering.checkAllNew_eq (by simp)), if_pos rfl,
    Lowering.bind_run (Lowering.enterLoop_eq new lower upper span)]
  simp only
  rw [Lowering.bind_run run, Lowering.bind_run close,
    Lowering.bind_run (Lowering.applyAttrs_eq (s := { w with scopes := s.scopes }) made rfl rfl
      written.sorted written.free (fun level hl => leveled n level (by simp [level?, hnode, hl]))
      (said_of_bare sameAttrs))]
  rfl

/-- A loop is read back, where its body is. -/
theorem Region.Ready.loop_opens (ready : r.Ready φ visible s) (readable : r.Readable)
    (coherent : r.Coherent) (leveled : r.Leveled) (next : r.Upcoming φ n s)
    (hnode : r.node? n = some node) (hk : node.kind = .loop iv lower upper body)
    {stmt : Stmt} {depth : Nat} (same : stmt.bare = (r.stmtOf (depth + 1) n).bare)
    (apart : ∀ c ∈ body, ∀ m, r.Within c m → φ.node m ≠ φ.node n) {inner : IdSupply}
    (run : ∀ (stmts : List Stmt) (u : Lowering),
      stmts.map Stmt.bare = body.map (fun c => (r.stmtOf depth c).bare) →
      r.Ready φ (r.ivs n ++ visible) u →
      u.region.supply = ⟨s.region.nodes.size + 1, s.region.values.size + (r.defs n).length⟩ →
      u.region.isLoop (φ.node n) = true → ∃ w, Lowering.lowerBlock (some (φ.node n)) stmts u = ((), w) ∧
        r.Read φ (some n) (r.ivs n ++ visible) body u w ∧ w.region.supply = inner) :
    ∃ t, Lowering.lowerStmt stmt s = (some (φ.node n), t) ∧ r.Opens φ visible n s t ∧
      t.region.supply = inner := by
  have ivs := ivs_of_loop hnode hk
  have results := coherent.results_of_loop hnode hk
  have defs : r.defs n = [iv] := by rw [Region.defs, ivs, results, List.append_nil]
  have number : φ.value iv = ⟨s.region.values.size⟩ := next.value (i := 0) (by simp [defs])
  have noResults : node.results = [] := by simpa [Region.results, hnode] using results
  have noOperands : node.operands = [] := by
    have fits : node.operands.length = 0 ∧ node.results.length = 0 := by
      simpa [hk, NodeKind.Fits] using coherent.fits n node hnode
    exact List.length_eq_zero_iff.mp fits.1
  rw [stmtOf_loop hnode hk] at same
  cases stmt with
  | op => simp [Stmt.bare] at same
  | loop names name lower' upper' stmts attrs span =>
    simp only [Stmt.bare, Stmt.loop.injEq, bareBlock_eq_map, noResults, List.map_nil,
      List.map_eq_nil_iff, List.map_map] at same
    obtain ⟨rfl, sameName, rfl, rfl, sameStmts, sameAttrs, -⟩ := same
    have text : name.text = r.nameOf iv := Name.text_of_bare sameName
    have outside : s.region.Wrote none [] (s.entered name lower' upper' span).region :=
      s.region.extendWith_wrote _ _
    obtain ⟨w, hw, read, supply⟩ := run stmts (s.entered name lower' upper' span)
      (by simpa [Function.comp_def] using sameStmts)
      (ready.enter readable coherent next hnode hk text number span)
      (by simp [Lowering.entered, Lowering.bound, Region.supply, defs])
      (by simp [Lowering.entered, Lowering.bound, isLoop, kind?, next.node, node?_extendWith,
        NodeKind.isLoop])
    have wrote := read.wrote
    rw [Option.map_some, next.node] at wrote
    have made := wrote.node?_entered
    have wroteAll : s.region.Wrote none [] (Lowering.readLoop node s w).region :=
      (outside.inside le_rfl wrote).modify le_rfl _
    refine ⟨Lowering.readLoop node s w, ?_, ⟨read.quiet, rfl, wroteAll, ?_, ?_, ?_, ?_⟩, ?_⟩
    · rw [next.node] at hw ⊢
      exact ready.loop_lowers readable coherent leveled next hnode hk text (by simpa using sameAttrs) hw
        read.tail made
    · rw [results]
      refine ⟨ready.opened, ready.finds, fun v hv => ?_, fun v hv => ?_, read.ready.sites⟩
      · exact wroteAll.mirrorsValue (ready.values v hv) (ready.placed v hv).2
      · exact ⟨(ready.placed v hv).1, lt_of_lt_of_le (ready.placed v hv).2 wroteAll.valueCount⟩
    · rw [MirrorsUnder, next.node, Lowering.node?_readLoop made, hnode]
      simp [Node.bare, Node.rename, hk, NodeKind.rename, noOperands, noResults, number]
    · intro v hv
      obtain rfl : v = iv := by simpa [defs] using hv
      refine wrote.mirrorsValue (next.mirrorsValue_entered readable coherent (by simp [ivs]) number text
        lower' upper' span) ?_
      simp [number, Lowering.entered, Lowering.bound]
    · intro c hc m hm
      have child : c ∈ body := by simpa [Child, bodyOf, kind?, hnode, hk, NodeKind.body] using hc
      exact (read.mirrors c child m hm).modify (next.node ▸ apart c child m hm) _
    · rw [← supply]
      simp [Lowering.readLoop, Lowering.attributed, modifyNode, Region.supply]

end Loop

theorem Region.Ready.sameValues (ready : r.Ready φ visible s) {q : Region}
    (values : q.values = s.region.values) : r.Ready φ visible { s with region := q } := by
  have value : q.value? = s.region.value? := by
    funext v
    simp [value?, values]
  refine ⟨ready.opened, ready.finds, fun v hv => ?_, fun v hv => ?_, fun name h => ?_⟩
  · change q.value? _ = _
    rw [value]
    exact ready.values v hv
  · change _ ∧ _ < q.values.size
    rw [values]
    exact ready.placed v hv
  · change ∃ v, _ ∧ _ ∧ _ < q.values.size
    rw [values]
    exact ready.sites name h

theorem Region.Ready.mono {visible' : List ValueId} (ready : r.Ready φ visible s)
    (sub : ∀ v ∈ visible', v ∈ visible) : r.Ready φ visible' s :=
  ⟨ready.opened, fun v hv => ready.finds v (sub v hv), fun v hv => ready.values v (sub v hv),
    fun v hv => ready.placed v (sub v hv), ready.sites⟩

/-- A node that has been read back is put where it stood. -/
theorem Region.Opens.attach (opens : r.Opens φ visible n s t) (hnode : r.node? n = some node)
    (number : φ.node n = ⟨s.region.nodes.size⟩) (count : s.region.nodes.size < t.region.nodes.size)
    {block : Option NodeId} (parent : r.parent? n = block)
    (loop : ∀ p, block = some p → s.region.isLoop (φ.node p) = true)
    (apart : ∀ c, r.Child n c → ∀ m, r.Within c m → s.region.nodes.size < (φ.node m).index) :
    ∃ u, Lowering.attach (block.map φ.node) (φ.node n) t = ((), u) ∧
      r.Read φ block visible [n] s u ∧ u.region.supply = t.region.supply := by
  have known : (φ.node n).index < t.region.nodes.size := by
    rw [number]
    exact count
  have older : ∀ p, block.map φ.node = some p → p.index < s.region.nodes.size := by
    intro p hp
    obtain ⟨p, rfl, rfl⟩ := Option.map_eq_some_iff.mp hp
    exact isLoop_known (loop p rfl)
  have old : ∀ m : NodeId, m.index < s.region.nodes.size → m ≠ φ.node n := by
    rintro m hm rfl
    rw [number] at hm
    exact absurd hm (lt_irrefl _)
  have top : t.region.parent? (φ.node n) = none := by
    have top := opens.top
    rw [MirrorsUnder, hnode] at top
    obtain ⟨made, hmade, image⟩ := Option.map_eq_some_iff.mp top
    have parent := congrArg Node.parent image
    simpa [parent?, hmade, Node.bare] using parent
  obtain ⟨q, made, attached⟩ : ∃ q, t.region.append (block.map φ.node) (φ.node n) = some (q, true) ∧
      t.region.Attached (block.map φ.node) (φ.node n) q := by
    cases block with
    | none => exact append_body known top
    | some p =>
      have low := older (φ.node p) rfl
      have same : t.region.node? (φ.node p) = s.region.node? (φ.node p) := by
        simpa using opens.wrote.node _ low
      refine append_child ?_ known (old _ low)
      simpa [isLoop, kind?, same] using loop p rfl
  have values : q.values = t.region.values := by rw [attached.header]
  have unchanged : ∀ m, m ≠ φ.node n → block.map φ.node ≠ some m →
      q.node? m = t.region.node? m := fun m hm hb => by
    rw [attached.node m]
    simp [hm, hb]
  refine ⟨{ t with region := q }, ?_, ⟨opens.quiet, opens.tail, ?_, ?_, ?_⟩, ?_⟩
  · exact Lowering.attach_eq made
  · exact opens.wrote.attached (number ▸ le_rfl) attached
  · simpa using opens.ready.sameValues values
  · intro u hu m hm
    obtain rfl := List.mem_singleton.mp hu
    have sameValues : ∀ v, r.MirrorsValue φ t.region v → r.MirrorsValue φ q v := fun v hv => by
      rw [MirrorsValue, attached.value]
      exact hv
    rcases within_iff.mp hm with rfl | ⟨c, hc, hm⟩
    · refine ⟨?_, fun v hv => sameValues v (opens.values v hv)⟩
      have top := opens.top
      have other : block.map φ.node ≠ some (φ.node m) := fun he => old _ (older _ he) rfl
      rw [MirrorsUnder, hnode] at top ⊢
      obtain ⟨made, hmade, image⟩ := Option.map_eq_some_iff.mp top
      have placed := congrArg (fun node : Node => { node with parent := block.map φ.node }) image
      rw [attached.node, hmade, Option.map_some, Option.map_some, if_neg other, if_pos rfl, parent]
      exact congrArg some placed
    · have inside := opens.inside c hc m hm
      have high := apart c hc m hm
      refine ⟨?_, fun v hv => sameValues v (inside.values v hv)⟩
      rw [MirrorsUnder, unchanged]
      · exact inside.node
      · intro he
        rw [he, number] at high
        exact absurd high (lt_irrefl _)
      · intro he
        have := older _ he
        omega
  · change (⟨q.nodes.size, q.values.size⟩ : IdSupply) = _
    rw [attached.nodeCount, values]
    rfl

theorem Region.Read.append {block : Option NodeId} {ns : List NodeId} {u : Lowering}
    (first : r.Read φ block visible [n] s t)
    (rest : r.Read φ block (r.results n ++ visible) ns t u)
    (known : ∀ m, r.Within n m → (φ.node m).index < t.region.nodes.size ∧
      block.map φ.node ≠ some (φ.node m))
    (values : ∀ m, r.Within n m → ∀ v ∈ r.defs m, (φ.value v).index < t.region.values.size) :
    r.Read φ block visible (n :: ns) s u := by
  refine ⟨rest.quiet.trans first.quiet, rest.tail.trans first.tail,
    first.wrote.trans rest.wrote, rest.ready.mono fun v hv => ?_, fun c hc m hm => ?_⟩
  · simp only [List.flatMap_cons, List.mem_append] at hv ⊢
    tauto
  · rcases List.mem_cons.mp hc with rfl | hc
    · have mirrors := first.mirrors c (by simp) m hm
      obtain ⟨low, other⟩ := known m hm
      exact ⟨rest.wrote.mirrorsUnder mirrors.node low other,
        fun v hv => rest.wrote.mirrorsValue (mirrors.values v hv) (values m hm v hv)⟩
    · exact rest.mirrors c hc m hm

/-- The nodes of a block are read back from what they are written as, without complaint. -/
theorem Region.Scoped.reads {visible : List ValueId} {ns : List NodeId}
    (h : r.Scoped visible ns) (coherent : r.Coherent) (readable : r.Readable)
    (leveled : r.Leveled) (block : Option NodeId) (known : ∀ n ∈ ns, n.index < r.nodes.size)
    (parents : ∀ n ∈ ns, r.parent? n = block) (depth : Nat)
    (deep : ∀ n ∈ ns, r.nodes.size ≤ n.index + depth) {stmts : List Stmt} {s : Lowering}
    (same : stmts.map Stmt.bare = ns.map fun n => (r.stmtOf depth n).bare)
    (ready : r.Ready φ visible s) (loop : ∀ p, block = some p → s.region.isLoop (φ.node p) = true)
    {supply : IdSupply} (places : r.Places φ s.region.supply ns supply) :
    ∃ t, Lowering.lowerBlock (block.map φ.node) stmts s = ((), t) ∧
      r.Read φ block visible ns s t ∧ t.region.supply = supply := by
  induction h generalizing block depth stmts s supply with
  | nil =>
    obtain rfl := List.map_eq_nil_iff.mp same
    cases places
    exact ⟨s, by rw [Lowering.lowerBlock]; rfl, ⟨rfl, rfl, .refl _ _, ready, by simp⟩, rfl⟩
  | @cons visible n ns used _ _ ihInside ihRest =>
    have low := known n (by simp)
    have high := deep n (by simp)
    obtain ⟨depth, rfl⟩ : ∃ d, depth = d + 1 := ⟨depth - 1, by omega⟩
    obtain ⟨node, hnode⟩ := node?_eq_some low
    rw [List.map_cons] at same
    obtain ⟨stmt, stmts, rfl, hstmt, hstmts⟩ := List.map_eq_cons_iff.mp same
    cases places with
    | @cons _ inner _ _ _ number numbers inside rest =>
    have whole := Places.cons number numbers inside .nil
    have grown := inside.mono.1
    have apart : ∀ c, r.Child n c → ∀ m, r.Within c m → s.region.nodes.size < (φ.node m).index :=
      fun c hc m hm => (inside.node_bounds hc hm).1
    have older : ∀ p, block = some p → (φ.node p).index < s.region.nodes.size := fun p hp =>
      isLoop_known (loop p hp)
    obtain ⟨t, hlower, opens, supplyT⟩ : ∃ t, Lowering.lowerStmt stmt s = (some (φ.node n), t) ∧
        r.Opens φ visible n s t ∧ t.region.supply = inner := by
      by_cases isLoop : node.kind.isLoop = true
      · obtain ⟨iv, lower, upper, body, hk⟩ := NodeKind.eq_loop isLoop
        have children : r.bodyOf n = body := by simp [bodyOf, kind?, hnode, hk, NodeKind.body]
        subst children
        refine ready.loop_opens readable coherent leveled ⟨number, numbers⟩ hnode hk hstmt
          (fun c hc m hm he => ?_) fun stmts u same ready supply loop => ?_
        · have := apart c hc m hm
          rw [he, number] at this
          exact absurd this (lt_irrefl _)
        · refine ihInside (some n) (coherent.childKnown n) (fun c hc => coherent.childParent n c hc) depth
            (fun c hc => ?_) same ready (fun p hp => Option.some.inj hp ▸ loop) (supply ▸ inside)
          have := coherent.childDeeper n c hc
          omega
      · have noLoop : node.kind.isLoop = false := by simpa using isLoop
        have leaf : r.bodyOf n = [] := by
          simp [bodyOf, kind?, hnode, NodeKind.body_eq_nil noLoop]
        rw [leaf] at inside
        cases inside
        exact ready.op_opens readable coherent leveled ⟨number, numbers⟩ hnode noLoop used hstmt
    have count : s.region.nodes.size < t.region.nodes.size := by
      have nodes : t.region.nodes.size = inner.nodes := congrArg IdSupply.nodes supplyT
      rw [nodes]
      exact grown
    obtain ⟨u, hattach, first, supplyU⟩ :=
      opens.attach hnode number count (parents n (by simp)) loop apart
    have nodes : u.region.nodes.size = inner.nodes :=
      congrArg IdSupply.nodes (supplyU.trans supplyT)
    have values : u.region.values.size = inner.values :=
      congrArg IdSupply.values (supplyU.trans supplyT)
    have still : ∀ p, block = some p → u.region.isLoop (φ.node p) = true := fun p hp => by
      rw [first.wrote.isLoop (older p hp)]
      exact loop p hp
    obtain ⟨w, hrest, read, supplyW⟩ := ihRest block (fun m hm => known m (by simp [hm]))
      (fun m hm => parents m (by simp [hm])) (depth + 1) (fun m hm => deep m (by simp [hm])) hstmts
      (by simpa using first.ready) still ((supplyU.trans supplyT) ▸ rest)
    refine ⟨w, ?_, first.append read (fun m hm => ⟨?_, fun he => ?_⟩) fun m hm v hv => ?_, supplyW⟩
    · rw [Lowering.lowerBlock, Lowering.bind_run hlower]
      simp only
      rw [Lowering.bind_run hattach]
      exact hrest
    · exact nodes ▸ (whole.node_bounds (by simp) hm).2
    · obtain ⟨p, rfl, hp⟩ := Option.map_eq_some_iff.mp he
      have := older p rfl
      have bounds := (whole.node_bounds (by simp) hm).1
      rw [hp] at this
      exact absurd this (Nat.not_lt_of_le bounds)
    · exact values ▸ (whole.value_bounds (by simp) hm hv).2

end Opens

end Staging
