import Staging.Proofs.Growth
import Staging.Proofs.Resolving

namespace Staging

namespace Lowering

variable {s : Lowering}

/-- A state in which some names have been bound to values, in the innermost block. -/
def bound (names : List Name) (vs : List ValueId) (s : Lowering) : Lowering :=
  { s with
    scopes := ((List.zipWith (fun (name : Name) v => (name.text, some v)) names vs).reverse ++
      s.scopes.headD []) :: s.scopes.tail
    sites := (names.map fun name => (name.text, name.span)).reverse ++ s.sites }

theorem bind_eq {name : Name} {v : ValueId} (opened : s.scopes ≠ []) :
    bind name (some v) s = ((), s.bound [name] [v]) := by
  obtain ⟨region, scopes, sites, diagnostics⟩ := s
  obtain ⟨scope, outer, rfl⟩ := List.exists_cons_of_ne_nil opened
  rfl

theorem bindAll_eq (opened : s.scopes ≠ []) {names : List Name} {vs : List ValueId}
    (count : names.length = vs.length) : bindAll names vs s = ((), s.bound names vs) := by
  induction names generalizing vs s with
  | nil =>
    obtain rfl := List.length_eq_zero_iff.mp count.symm
    obtain ⟨region, scopes, sites, diagnostics⟩ := s
    obtain ⟨scope, outer, rfl⟩ := List.exists_cons_of_ne_nil opened
    rfl
  | cons name names ih =>
    obtain ⟨v, vs, rfl⟩ := List.exists_cons_of_length_eq_add_one count.symm
    unfold bindAll
    rw [bind_run (bind_eq opened), ih (List.cons_ne_nil _ _) (Nat.succ.inj count)]
    simp [bound]

theorem checkNew_eq {name : Name} (new : s.sites.lookup name.text = none) :
    checkNew name s = (true, s) := by
  unfold checkNew
  rw [bind_run (get_run s), new]
  rfl

theorem checkAllNew_eq {names : List Name} (new : ∀ name ∈ names, s.sites.lookup name.text = none) :
    checkAllNew names s = (true, s) := by
  induction names with
  | nil => rfl
  | cons name names ih =>
    unfold checkAllNew
    rw [bind_run (checkNew_eq (new name (by simp)))]
    exact ih fun other h => new other (by simp [h])

/-- Results are created with their names. -/
theorem zipWith_named (results : List Name) (types : List ValueType) :
    List.zipWith (fun (name : Name) type => (some name.text, type)) results types =
      (List.zip (results.map Name.text) types).map fun e => (some e.1, e.2) := by
  rw [List.zip_map_left, List.map_map, ← List.map_uncurry_zip_eq_zipWith]
  rfl

/-- The state once the node of a statement has been created and its results have been bound. -/
def finished (results : List Name) (span : Span) (kind : NodeKind) (operands : List ValueId)
    (types : List ValueType) (s : Lowering) : Lowering :=
  bound results ((List.range' s.region.values.size types.length).map ValueId.mk) { s with
    region := s.region.extendWith ⟨kind, operands,
      (List.range' s.region.values.size types.length).map ValueId.mk, none, none, [], span⟩
      (namedResults ⟨s.region.nodes.size⟩ (List.zip (results.map Name.text) types)) }

theorem node?_finished (s : Lowering) (results : List Name) (span : Span) (kind : NodeKind)
    (operands : List ValueId) (types : List ValueType) :
    (s.finished results span kind operands types).region.node? ⟨s.region.nodes.size⟩ =
      some ⟨kind, operands, (List.range' s.region.values.size types.length).map ValueId.mk, none, none,
        [], span⟩ := by
  simp [finished, bound, Region.node?_extendWith]

theorem value?_finished {results : List Name} {types : List ValueType} {i : Nat} {name : String}
    {type : ValueType} (entry : (List.zip (results.map Name.text) types)[i]? = some (name, type))
    (span : Span) (kind : NodeKind) (operands : List ValueId) :
    (s.finished results span kind operands types).region.value? ⟨s.region.values.size + i⟩ =
      some ⟨name, type, .result ⟨s.region.nodes.size⟩ i⟩ := by
  simp [finished, bound, Region.value?_extendWith, namedResults, entry]

/-- The node of a statement is created first, then its results are bound. -/
theorem finish_run {results : List Name} {types : List ValueType}
    (count : results.length = types.length) (span : Span) (kind : NodeKind)
    (operands : List ValueId) : finish results span kind operands types s =
      (do
        bindAll results ((List.range' s.region.values.size types.length).map ValueId.mk)
        return some ⟨s.region.nodes.size⟩ : Lower (Option NodeId))
        { s with region := (s.finished results span kind operands types).region } := by
  have length : (List.zip (results.map Name.text) types).length = types.length := by
    simp [count]
  have made := @Region.addNode_named s.region kind operands
    (List.zip (results.map Name.text) types) span
  rw [length, ← zipWith_named] at made
  unfold finish
  rw [bind_run (show onRegion _ s = (_, { s with region := _ }) from rfl), made]
  simp only
  rw [bind_run (get_run _)]
  simp only [Region.results, Region.node?_extendWith, if_true, Option.map_some, Option.getD_some]
  rfl

theorem finish_eq (opened : s.scopes ≠ []) {results : List Name} {types : List ValueType}
    (count : results.length = types.length) (span : Span) (kind : NodeKind)
    (operands : List ValueId) : finish results span kind operands types s =
      (some ⟨s.region.nodes.size⟩, s.finished results span kind operands types) := by
  rw [finish_run count]
  refine (bind_run (bindAll_eq ?_ ?_)).trans rfl
  · exact opened
  · simp [count]

/-- The state in which the body of a loop is lowered. -/
def entered (iv : Name) (lower upper : Int) (span : Span) (s : Lowering) : Lowering :=
  bound [iv] [⟨s.region.values.size⟩] { s with
    region := s.region.extendWith
      ⟨.loop ⟨s.region.values.size⟩ lower upper [], [], [], none, none, [], span⟩
      [⟨iv.text, .scalar "index", .inductionVar ⟨s.region.nodes.size⟩⟩]
    scopes := [] :: s.scopes }

theorem enterLoop_eq {iv : Name} (new : s.sites.lookup iv.text = none) (lower upper : Int)
    (span : Span) : enterLoop [] iv lower upper span s =
      (some ⟨s.region.nodes.size⟩, s.entered iv lower upper span) := by
  unfold enterLoop
  refine (pass_eq (expectResults_eq rfl _ _) _).trans ((pass_eq (checkNew_eq new) _).trans ?_)
  rw [bind_run (get_run s), bind_run (show onRegion _ s = (_, { s with region := _ }) from rfl),
    Region.addLoop_named]
  rfl

/-- The state once an argument has been created and bound. -/
def withArg (name : Name) (type : ValueType) (s : Lowering) : Lowering :=
  bound [name] [⟨s.region.values.size⟩] { s with region := (s.region.addArg name.text type).2 }

theorem lowerArgs_eq (opened : s.scopes ≠ []) {arg : ArgDecl} {type : ValueType}
    (known : arg.type.valueType? = some type) (new : s.sites.lookup arg.name.text = none)
    (args : List ArgDecl) :
    lowerArgs (arg :: args) s = lowerArgs args (s.withArg arg.name type) := by
  have made : onRegion (fun r => r.addArg arg.name.text type) s =
      (⟨s.region.values.size⟩, { s with region := (s.region.addArg arg.name.text type).2 }) := rfl
  rw [lowerArgs, bind_run (lowerType_eq known), bind_run (checkNew_eq new)]
  simp only [if_true]
  rw [bind_run made]
  exact bind_run (bind_eq opened)

/-- A state in which a node has another level and other attributes. -/
def attributed (n : NodeId) (level : Option Nat) (attrs : Attrs) (s : Lowering) : Lowering :=
  { s with region := s.region.modifyNode n fun m => { m with level := level, attrs := attrs } }

theorem node?_attributed {n : NodeId} {node : Node} (hn : s.region.node? n = some node)
    (level : Option Nat) (attrs : Attrs) : (s.attributed n level attrs).region.node? n =
      some { node with level := level, attrs := attrs } := by
  rw [attributed, Region.node?_modifyNode, if_pos rfl, hn, Option.map_some]

/-- What the entries of a dictionary say. -/
def said (entries : List AttrEntry) : Attrs :=
  entries.map fun e => (e.key.text, e.value)

theorem set_of_greater {key : String} {attrs : Attrs} (above : ∀ e ∈ attrs, e.1 < key) (value : Attr) :
    attrs.set key value = attrs ++ [(key, value)] := by
  induction attrs with
  | nil => rfl
  | cons e attrs ih =>
    obtain ⟨k, v⟩ := e
    have low : k < key := above (k, v) (by simp)
    rw [Attrs.set, if_neg (lt_asymm low), if_neg (ne_of_gt low),
      ih fun e he => above e (by simp [he]), List.cons_append]

theorem modifyNode_modifyNode (r : Region) (n : NodeId) (f g : Node → Node) :
    (r.modifyNode n f).modifyNode n g = r.modifyNode n (g ∘ f) := by
  unfold Region.modifyNode
  congr 1
  refine Array.ext_getElem? fun i => ?_
  simp only [Array.getElem?_modify]
  split
  · rw [Option.map_map]
  · rfl

theorem modifyNode_congr {r : Region} {n : NodeId} {node : Node} (hn : r.node? n = some node)
    {f g : Node → Node} (same : f node = g node) : r.modifyNode n f = r.modifyNode n g := by
  unfold Region.modifyNode
  congr 1
  refine Array.ext_getElem? fun i => ?_
  simp only [Array.getElem?_modify]
  split
  next he =>
    subst he
    change (r.node? n).map f = (r.node? n).map g
    rw [hn, Option.map_some, Option.map_some, same]
  next => rfl

/-- Attributes in order are put at the end of those that are there. -/
theorem applyAttrs_sorted {n : NodeId} {node : Node} {entries : List AttrEntry}
    (hn : s.region.node? n = some node)
    (sorted : (node.attrs ++ said entries).Pairwise fun a b => a.1 < b.1)
    (free : ∀ e ∈ said entries, e.1 ≠ levelKey) : applyAttrs n entries s = ((), { s with
      region := s.region.modifyNode n fun m => { m with attrs := node.attrs ++ said entries } }) := by
  induction entries generalizing s node with
  | nil =>
    rw [Region.modifyNode_self hn (by simp [said])]
    rfl
  | cons entry entries ih =>
    have here : entry.key.text ≠ levelKey := free (entry.key.text, entry.value) (by simp [said])
    have above : ∀ e ∈ node.attrs, e.1 < entry.key.text := fun e he =>
      (List.pairwise_append.mp sorted).2.2 e he (entry.key.text, entry.value) (by simp [said])
    let next : Node := { node with attrs := node.attrs ++ [(entry.key.text, entry.value)] }
    let step : Node → Node := fun m => { m with attrs := m.attrs.set entry.key.text entry.value }
    have put : step node = next := by simp [step, next, set_of_greater above]
    have hnext : (s.region.modifyNode n step).node? n = some next := by
      rw [Region.node?_modifyNode, if_pos rfl, hn, Option.map_some, put]
    unfold applyAttrs
    rw [if_neg here, bind_run (onNode_eq hn _)]
    refine (ih hnext (by simpa [next, said] using sorted)
      fun e he => free e (List.mem_cons_of_mem _ he)).trans ?_
    simp only [modifyNode_modifyNode]
    rw [modifyNode_congr hn (g := fun m => { m with attrs := node.attrs ++ said (entry :: entries) })]
    simp [next, said]

/-- A node without attributes gets those that another one is written with. -/
theorem applyAttrs_eq {n : NodeId} {fresh node : Node} {entries : List AttrEntry}
    (hn : s.region.node? n = some fresh) (noAttrs : fresh.attrs = []) (noLevel : fresh.level = none)
    (proper : node.attrs.Pairwise fun a b => a.1 < b.1) (free : ∀ e ∈ node.attrs, e.1 ≠ levelKey)
    (fits : ∀ level, node.level = some level → level < 2 ^ 32)
    (h : said entries = node.writtenAttrs) :
    applyAttrs n entries s = ((), s.attributed n node.level node.attrs) := by
  unfold Node.writtenAttrs at h
  unfold attributed
  cases level : node.level with
  | none =>
    have h : said entries = node.attrs := by simpa [level] using h
    rw [applyAttrs_sorted hn (by rw [noAttrs, h]; exact proper) (h ▸ free),
      modifyNode_congr hn (g := fun m => { m with level := none, attrs := node.attrs })]
    simp [noAttrs, noLevel, h]
  | some level' =>
    have h : said entries = (levelKey, .int level') :: node.attrs := by simpa [level] using h
    cases entries with
    | nil => cases h
    | cons entry entries =>
      have key : entry.key.text = levelKey := congrArg Prod.fst (List.cons.inj h).1
      have value : entry.value = .int level' := congrArg Prod.snd (List.cons.inj h).1
      have h : said entries = node.attrs := (List.cons.inj h).2
      have hnext : (s.region.setLevel n (some level')).node? n =
          some { fresh with level := some level' } := by
        rw [Region.node?_setLevel, if_pos rfl, hn, Option.map_some]
      have low : (0 ≤ (level' : Int) && (level' : Int) < Int.pow 2 32) = true := by
        have := fits level' level
        have : Int.pow 2 32 = 4294967296 := rfl
        simp only [Bool.and_eq_true, decide_eq_true_eq]
        omega
      unfold applyAttrs
      rw [if_pos key, value]
      simp only [low, if_true, Int.toNat_natCast]
      rw [bind_run (onNode_eq hn _)]
      refine (applyAttrs_sorted hnext (by rw [noAttrs, h]; exact proper) (h ▸ free)).trans ?_
      simp only [modifyNode_modifyNode]
      rw [modifyNode_congr hn (g := fun m => { m with level := some level', attrs := node.attrs })]
      simp [noAttrs, h]

theorem applyFuncAttrs_sorted {entries : List AttrEntry}
    (sorted : (s.region.attrs ++ said entries).Pairwise fun a b => a.1 < b.1)
    (free : ∀ e ∈ said entries, e.1 ≠ dataflowKey) : applyFuncAttrs entries s = ((), { s with
      region := { s.region with attrs := s.region.attrs ++ said entries } }) := by
  induction entries generalizing s with
  | nil =>
    simp only [said, List.map_nil, List.append_nil]
    rfl
  | cons entry entries ih =>
    have here : entry.key.text ≠ dataflowKey := free (entry.key.text, entry.value) (by simp [said])
    have above : ∀ e ∈ s.region.attrs, e.1 < entry.key.text := fun e he =>
      (List.pairwise_append.mp sorted).2.2 e he (entry.key.text, entry.value) (by simp [said])
    unfold applyFuncAttrs
    rw [if_neg here, bind_run (show onRegion _ s = ((), { s with region := _ }) from rfl),
      set_of_greater above]
    refine (ih (by simpa [said] using sorted) fun e he => free e (List.mem_cons_of_mem _ he)).trans ?_
    simp [said]

/-- A region without attributes gets those that another one is written with. -/
theorem applyFuncAttrs_eq {r : Region} {entries : List AttrEntry} (noAttrs : s.region.attrs = [])
    (unmarked : s.region.dataflow = false) (proper : r.attrs.Pairwise fun a b => a.1 < b.1)
    (free : ∀ e ∈ r.attrs, e.1 ≠ dataflowKey) (h : said entries = r.writtenAttrs) :
    applyFuncAttrs entries s = ((), { s with
      region := { s.region with dataflow := r.dataflow, attrs := r.attrs } }) := by
  unfold Region.writtenAttrs at h
  cases marked : r.dataflow with
  | false =>
    have h : said entries = r.attrs := by simpa [marked] using h
    rw [applyFuncAttrs_sorted (by rw [noAttrs, h]; exact proper) (h ▸ free)]
    simp [noAttrs, h, ← unmarked]
  | true =>
    have h : said entries = (dataflowKey, .bool true) :: r.attrs := by simpa [marked] using h
    cases entries with
    | nil => cases h
    | cons entry entries =>
      have key : entry.key.text = dataflowKey := congrArg Prod.fst (List.cons.inj h).1
      have value : entry.value = .bool true := congrArg Prod.snd (List.cons.inj h).1
      have h : said entries = r.attrs := (List.cons.inj h).2
      unfold applyFuncAttrs
      rw [if_pos key, value]
      simp only
      rw [bind_run (show onRegion _ s = ((), { s with region := _ }) from rfl)]
      refine (applyFuncAttrs_sorted (by simp only; rw [noAttrs, h]; exact proper) (h ▸ free)).trans ?_
      simp [noAttrs, h]

end Lowering

end Staging
