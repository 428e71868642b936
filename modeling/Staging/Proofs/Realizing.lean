import Staging.Proofs.Lowered
import Staging.Proofs.Mirroring
import Staging.Proofs.Reporting

namespace Staging

/-- One scope that binds values to their names. The first value of a name is the one in use. -/
def Region.scopeOf (r : Region) (visible : List ValueId) : Scopes :=
  [visible.map fun v => (r.nameOf v, some v)]

/-- The last entry of every key but one, in increasing order of the keys. -/
structure Attrs.Collects (attrs : Attrs) (reserved : String) (entries : List AttrEntry) : Prop where
  sorted : attrs.Pairwise fun a b => a.1 < b.1
  found : ∀ key, attrs.get? key = if key = reserved then none else lastEntry entries key

/-- The level and the attributes of a node are those that the dictionary of its statement gives. -/
structure Node.Attributed (node : Node) (entries : List AttrEntry) : Prop where
  level : node.level.map levelAttr = lastEntry entries levelKey
  small : ∀ l, node.level = some l → l < 2 ^ 32
  attrs : node.attrs.Collects levelKey entries

/-- The results of a node have these names and types. -/
structure Region.Defines (r : Region) (n : NodeId) (names : List Name) (types : List ValueType) :
    Prop where
  count : names.length = types.length
  values : (r.results n).map r.value? = (namedResults n ((names.map Name.text).zip types)).map some

/-- The nodes of a block are what its statements say, one each. The values in `visible`, latest
first, are those that the statements can use. -/
inductive Region.Realizes (r : Region) : List ValueId → List Stmt → List NodeId → Prop
  | nil {visible : List ValueId} : Realizes r visible [] []
  | op {visible : List ValueId} {results : List Name} {op : Op} {attrs : List AttrEntry} {span : Span}
      {stmts : List Stmt} {n : NodeId} {ns : List NodeId} {node : Node} {types : List ValueType}
      (found : r.node? n = some node)
      (makes : op.Makes r (r.scopeOf visible) node.kind node.operands types)
      (defines : r.Defines n results types) (attributed : node.Attributed attrs)
      (place : node.span = span) (rest : Realizes r ((r.results n).reverse ++ visible) stmts ns) :
      Realizes r visible (.op results op attrs span :: stmts) (n :: ns)
  | loop {visible : List ValueId} {iv : Name} {lower upper : Int} {body stmts : List Stmt}
      {attrs : List AttrEntry} {span : Span} {n : NodeId} {inner ns : List NodeId} {node : Node}
      {v : ValueId} (found : r.node? n = some node) (kind : node.kind = .loop v lower upper inner)
      (operands : node.operands = []) (results : node.results = [])
      (named : r.value? v = some ⟨iv.text, .scalar "index", .inductionVar n⟩)
      (attributed : node.Attributed attrs) (place : node.span = span)
      (inside : Realizes r (v :: visible) body inner) (rest : Realizes r visible stmts ns) :
      Realizes r visible (.loop [] iv lower upper body attrs span :: stmts) (n :: ns)

/-- An argument is what its declaration says. -/
def Region.Declares (r : Region) (arg : ArgDecl) (v : ValueId) : Prop :=
  ∃ type i, arg.type.valueType? = some type ∧ r.value? v = some ⟨arg.name.text, type, .arg i⟩

/-- A region is what its function says. -/
structure Region.RealizesFunc (r : Region) (f : Func) : Prop where
  name : r.name = f.name.text
  span : r.span = f.span
  args : List.Forall₂ r.Declares f.args r.args
  flag : Attr.bool r.dataflow = (lastEntry f.attrs dataflowKey).getD (.bool false)
  attrs : r.attrs.Collects dataflowKey f.attrs
  body : r.Realizes r.args.reverse f.body r.body

/-- Names tell values apart, except for results of one node. -/
def Region.Apart (r : Region) : Prop :=
  ∀ v w, v.index < r.values.size → w.index < r.values.size → r.nameOf v = r.nameOf w →
    v = w ∨ ∃ n, v ∈ r.results n ∧ w ∈ r.results n

theorem Attrs.collects_setAll (reserved : String) (entries : List AttrEntry) :
    (Attrs.setAll reserved entries []).Collects reserved entries := by
  refine ⟨Attrs.sorted_setAll .nil reserved entries, fun key => ?_⟩
  split
  next here =>
    subst here
    exact Attrs.get?_setAll_reserved key entries []
  next free =>
    rw [Attrs.get?_setAll reserved entries [] free]
    exact Option.or_none

section Transfer

variable {r s : Region} {visible : List ValueId} {stmts : List Stmt} {ns : List NodeId} {n : NodeId}
  {scopes scopes' : Scopes} {op : Op} {kind : NodeKind} {operands : List ValueId}
  {types : List ValueType} {names : List Name}

theorem mapM_mono {α β : Type} {f g : α → Option β} (le : ∀ a b, f a = some b → g a = some b)
    {as : List α} {bs : List β} (h : as.mapM f = some bs) : as.mapM g = some bs := by
  induction as generalizing bs with
  | nil => exact h
  | cons a as ih =>
    simp only [List.mapM_cons, Option.bind_eq_bind, Option.bind_eq_some_iff] at h ⊢
    obtain ⟨b, hb, rest, hrest, h⟩ := h
    exact ⟨b, le a b hb, rest, ih hrest, h⟩

/-- An operation stands for the same node where more values are there. -/
theorem Op.Makes.transfer (h : op.Makes r scopes kind operands types)
    (find : ∀ name v, scopes.find? name = some v → scopes'.find? name = some v)
    (value : ∀ v value, r.value? v = some value → s.value? v = some value) :
    op.Makes s scopes' kind operands types := by
  have memref {v : ValueId} (h : r.isMemref v = true) : s.isMemref v = true := by
    cases hv : r.value? v with
    | none => simp [Region.isMemref, hv] at h
    | some found => simpa [Region.isMemref, hv, value v found hv] using h
  cases h with
  | alloc named memref => exact .alloc named memref
  | constant named => exact .constant named
  | convert found named => exact .convert (find _ _ found) named
  | ret found => exact .ret (mapM_mono (fun name v => find name.text v) found)
  | compute found named => exact .compute (mapM_mono (fun name v => find name.text v) found) named
  | load found named buffer => exact .load (find _ _ found) named (memref buffer)
  | store foundValue found buffer => exact .store (find _ _ foundValue) (find _ _ found) (memref buffer)
  | copyInto foundSource foundTarget source target =>
    exact .copyInto (find _ _ foundSource) (find _ _ foundTarget) (memref source) (memref target)
  | @copyNew source type src t found named =>
    refine .copyNew (find _ _ found) ?_
    cases type with
    | some type => exact named
    | none =>
      obtain ⟨known, hv, same⟩ := Option.map_eq_some_iff.mp named
      exact Option.map_eq_some_iff.mpr ⟨known, value src known hv, same⟩

theorem Region.scopeOf_eq (value : ∀ v ∈ visible, s.value? v = r.value? v) :
    s.scopeOf visible = r.scopeOf visible := by
  unfold scopeOf
  congr 1
  exact List.map_congr_left fun v hv => by rw [nameOf_congr (value v hv)]

theorem Region.Defines.known (h : r.Defines n names types) {v : ValueId} (hv : v ∈ r.results n) :
    ∃ value, r.value? v = some value := by
  have mem : r.value? v ∈ (r.results n).map r.value? := List.mem_map_of_mem hv
  rw [h.values] at mem
  obtain ⟨value, -, same⟩ := List.mem_map.mp mem
  exact ⟨value, same.symm⟩

/-- What a block says stays true where its nodes are only put elsewhere, and values are added. -/
theorem Region.Realizes.transfer (h : r.Realizes visible stmts ns)
    (node : ∀ t ∈ ns, ∀ m, r.Within t m → ∀ node, r.node? m = some node →
      ∃ parent, s.node? m = some { node with parent := parent })
    (value : ∀ v value, r.value? v = some value → s.value? v = some value)
    (known : ∀ v ∈ visible, ∃ value, r.value? v = some value) : s.Realizes visible stmts ns := by
  have same {v : ValueId} (known : ∃ value, r.value? v = some value) : s.value? v = r.value? v := by
    obtain ⟨found, hv⟩ := known
    rw [hv, value v found hv]
  induction h with
  | nil => exact .nil
  | @op visible results op attrs span stmts n ns made types found makes defines attributed place rest ih =>
    obtain ⟨parent, hn⟩ := node n (by simp) n (.refl r n) made found
    have results : s.results n = r.results n := by simp [Region.results, hn, found]
    have scope := scopeOf_eq fun v hv => same (known v hv)
    refine .op hn (makes.transfer ?_ value) ⟨defines.count, ?_⟩ ⟨attributed.level, attributed.small, attributed.attrs⟩
      place ?_
    · rw [scope]
      exact fun _ _ h => h
    · rw [results, ← defines.values]
      exact List.map_congr_left fun v hv => same (defines.known hv)
    · rw [results]
      refine ih (fun t ht => node t (by simp [ht])) fun v hv => ?_
      rcases List.mem_append.mp hv with hv | hv
      · exact defines.known (List.mem_reverse.mp hv)
      · exact known v hv
  | @loop visible iv lower upper body stmts attrs span n inner ns made v found kind operands results
      named attributed place _ _ ihInside ihRest =>
    obtain ⟨parent, hn⟩ := node n (by simp) n (.refl r n) made found
    have inner_eq : r.bodyOf n = inner := by simp [Region.bodyOf, kind?, found, kind, NodeKind.body]
    refine .loop hn kind operands results (value v _ named) ⟨attributed.level, attributed.small, attributed.attrs⟩ place
      (ihInside (fun t ht m hm => ?_) fun w hw => ?_) (ihRest (fun t ht => node t (by simp [ht])) known)
    · exact node n (by simp) m (within_iff.mpr (Or.inr ⟨t, show t ∈ r.bodyOf n from inner_eq ▸ ht, hm⟩))
    · rcases List.mem_cons.mp hw with rfl | hw
      · exact ⟨_, named⟩
      · exact known w hw

theorem Region.Realizes.cons {stmt : Stmt} (first : r.Realizes visible [stmt] [n])
    (rest : r.Realizes ((r.results n).reverse ++ visible) stmts ns) :
    r.Realizes visible (stmt :: stmts) (n :: ns) := by
  cases first with
  | op found makes defines attributed place _ => exact .op found makes defines attributed place rest
  | loop found kind operands results named attributed place inside _ =>
    refine .loop found kind operands results named attributed place inside ?_
    simpa [Region.results, found, results] using rest

end Transfer

/-- Where nothing has been reported, the names in scope are those of the values in `visible`, latest
first, and every value has a name of its own that has been noted. -/
structure Lowering.Tracks (s : Lowering) (visible : List ValueId) : Prop where
  opened : s.scopes ≠ []
  scope : s.scopes.flatten = visible.map fun v => (s.region.nameOf v, some v)
  known : ∀ v ∈ visible, v.index < s.region.values.size
  sites : ∀ v, v.index < s.region.values.size → s.region.nameOf v ∈ s.sites.map Prod.fst
  apart : s.region.Apart

/-- A statement has been lowered to a node that is in no block. -/
structure Lowering.Adds (s : Lowering) (visible : List ValueId) (stmt : Stmt) (n : NodeId)
    (t : Lowering) : Prop where
  wrote : s.region.Wrote none [] t.region
  realizes : t.region.Realizes visible [stmt] [n]
  tracks : t.Tracks ((t.region.results n).reverse ++ visible)
  tail : t.scopes.tail = s.scopes.tail

/-- Statements have been lowered to nodes at the end of a block. -/
structure Lowering.Appends (s : Lowering) (block : Option NodeId) (visible : List ValueId)
    (stmts : List Stmt) (ns : List NodeId) (t : Lowering) : Prop where
  wrote : s.region.Wrote block ns t.region
  realizes : t.region.Realizes visible stmts ns
  tracks : t.Tracks ((ns.flatMap t.region.results).reverse ++ visible)
  tail : t.scopes.tail = s.scopes.tail

namespace Lowering

variable {s t : Lowering} {visible visible' : List ValueId} {r : Region} {scopes : Scopes}

theorem findSome?_lookup (scopes : Scopes) (name : String) :
    (scopes.findSome? fun scope => scope.lookup name) = scopes.flatten.lookup name := by
  induction scopes with
  | nil => rfl
  | cons scope outer ih =>
    rw [List.findSome?_cons, List.flatten_cons, List.lookup_append, ih]
    cases scope.lookup name <;> rfl

theorem Tracks.find? (tracks : s.Tracks visible) (name : String) :
    Scopes.find? s.scopes name = (s.region.scopeOf visible).find? name := by
  simp only [Scopes.find?, Region.scopeOf, findSome?_lookup, tracks.scope, List.flatten_cons,
    List.flatten_nil, List.append_nil]

theorem Tracks.entry (tracks : s.Tracks visible) {name : String} {binding : Binding}
    (h : (name, binding) ∈ s.scopes.flatten) : ∃ v ∈ visible, binding = some v := by
  rw [tracks.scope] at h
  obtain ⟨v, hv, same⟩ := List.mem_map.mp h
  exact ⟨v, hv, (Prod.mk.inj same).2.symm⟩

theorem Tracks.bound (tracks : s.Tracks visible) : s.Bound := by
  intro name binding found
  rw [findSome?_lookup] at found
  obtain ⟨before, behind, split, -⟩ := List.lookup_eq_some_iff.mp found
  have within : (name, binding) ∈ s.scopes.flatten := by simp [split]
  obtain ⟨v, hv, same⟩ := tracks.entry within
  exact ⟨v, same, tracks.known v hv⟩

theorem Tracks.shows (tracks : s.Tracks visible) : Shows s.scopes visible := by
  intro scope hs name v hv
  obtain ⟨w, hw, same⟩ := tracks.entry (List.mem_flatten.mpr ⟨scope, hs, hv⟩)
  exact Option.some.inj same ▸ hw

/-- Only the values of the region and the results of its nodes matter. -/
theorem Tracks.congr (tracks : s.Tracks visible) {q : Region} (values : q.values = s.region.values)
    (results : q.results = s.region.results) : ({ s with region := q } : Lowering).Tracks visible := by
  have name : q.nameOf = s.region.nameOf := by
    funext v
    simp [Region.nameOf, Region.value?, values]
  refine ⟨tracks.opened, ?_, ?_, ?_, ?_⟩
  · simpa [name] using tracks.scope
  · simpa [values] using tracks.known
  · simpa [name, values] using tracks.sites
  · simpa [Region.Apart, name, values, results] using tracks.apart

/-- What a loop defined is out of sight behind it, but stays noted. -/
theorem Tracks.leave (inside : t.Tracks visible') (outside : s.Tracks visible)
    (count : s.region.values.size ≤ t.region.values.size)
    (value : ∀ v, v.index < s.region.values.size → t.region.value? v = s.region.value? v) :
    ({ t with scopes := s.scopes } : Lowering).Tracks visible := by
  refine ⟨outside.opened, ?_, fun v hv => lt_of_lt_of_le (outside.known v hv) count, inside.sites,
    inside.apart⟩
  rw [outside.scope]
  exact List.map_congr_left fun v hv => by
    rw [Region.nameOf_congr (value v (outside.known v hv))]

/-- Values that have been created and bound to new names can be used. -/
theorem Tracks.define (tracks : s.Tracks visible) {names : List Name} {vs : List ValueId} {q : Region}
    (new : ∀ name ∈ names, s.sites.lookup name.text = none)
    (named : vs.map q.nameOf = names.map Name.text)
    (value : ∀ v, v.index < s.region.values.size → q.value? v = s.region.value? v)
    (cover : ∀ v, v.index < q.values.size ↔ v.index < s.region.values.size ∨ v ∈ vs)
    (results : ∀ n, ∀ v ∈ s.region.results n, v ∈ q.results n)
    (together : ∀ v ∈ vs, ∀ w ∈ vs, v = w ∨ ∃ n, v ∈ q.results n ∧ w ∈ q.results n) :
    (Lowering.bound names vs { s with region := q }).Tracks (vs.reverse ++ visible) := by
  have entries : List.zipWith (fun (name : Name) v => (name.text, some v)) names vs =
      vs.map fun v => (q.nameOf v, some v) := by
    rw [← List.zipWith_map_left (f := Name.text)
      (g := fun (text : String) (v : ValueId) => (text, some v)), ← named, List.zipWith_map_left,
      List.zipWith_self]
  have old {v : ValueId} (hv : v.index < s.region.values.size) : q.nameOf v = s.region.nameOf v :=
    Region.nameOf_congr (value v hv)
  have fresh {v w : ValueId} (hv : v.index < s.region.values.size) (hw : w ∈ vs) :
      q.nameOf v ≠ q.nameOf w := by
    intro same
    have mem : q.nameOf w ∈ names.map Name.text := named ▸ List.mem_map_of_mem hw
    obtain ⟨name, hn, text⟩ := List.mem_map.mp mem
    obtain ⟨site, hs, taken⟩ := List.mem_map.mp (tracks.sites v hv)
    have other := List.lookup_eq_none_iff.mp (new name hn) site hs
    rw [text, ← same, old hv, taken] at other
    exact absurd other (by simp)
  have flat : s.scopes.headD [] ++ s.scopes.tail.flatten = s.scopes.flatten := by
    obtain ⟨scope, outer, hs⟩ := List.exists_cons_of_ne_nil tracks.opened
    simp [hs]
  refine ⟨by simp [Lowering.bound], ?_, fun v hv => ?_, fun v hv => ?_, fun v w hv hw same => ?_⟩
  · simp only [Lowering.bound, entries, List.flatten_cons, List.append_assoc, flat, tracks.scope,
      List.map_append, List.map_reverse]
    congr 1
    exact List.map_congr_left fun v hv => by rw [old (tracks.known v hv)]
  · refine (cover v).mpr ?_
    rcases List.mem_append.mp hv with hv | hv
    · exact Or.inr (List.mem_reverse.mp hv)
    · exact Or.inl (tracks.known v hv)
  · simp only [Lowering.bound, List.map_append, List.map_reverse, List.map_map, List.mem_append,
      List.mem_reverse]
    rcases (cover v).mp hv with hv | hv
    · exact Or.inr (old hv ▸ tracks.sites v hv)
    · exact Or.inl (show q.nameOf v ∈ names.map Name.text from named ▸ List.mem_map_of_mem hv)
  · rcases (cover v).mp hv with hv | hv <;> rcases (cover w).mp hw with hw | hw
    · have same' : s.region.nameOf v = s.region.nameOf w := old hv ▸ old hw ▸ same
      refine (tracks.apart v w hv hw same').imp_right ?_
      rintro ⟨n, hvn, hwn⟩
      exact ⟨n, results n v hvn, results n w hwn⟩
    · exact absurd same (fresh hv hw)
    · exact absurd same.symm (fresh hw hv)
    · exact together v hv w hw

/-- An operation is left out with an error, or its node is created. -/
theorem lowerOp_finished (tracks : s.Tracks visible) (results : List Name) (span : Span) {op : Op}
    (formed : op.Formed) : Lower.Clean (· = s) (lowerOp results span op) fun made t =>
      ∃ kind operands types, op.Makes s.region s.scopes kind operands types ∧
        results.length = types.length ∧ made = some ⟨s.region.nodes.size⟩ ∧
        t = s.finished results span kind operands types := by
  have clean : Lower.Clean (· = s) (lowerOp results span op) fun made _ => made.isSome = true := by
    refine lowerOp_clean ?_ results span fun _ _ => formed
    rintro _ rfl
    exact tracks.bound
  refine ⟨clean.reports, ?_⟩
  rintro u rfl quiet
  rcases lowerOp_builds u.region u.scopes results span op u rfl rfl with
    ⟨-, none⟩ | ⟨kind, operands, types, _, makes, count, -, -⟩
  · have made := clean.silent u rfl quiet
    simp [none] at made
  · have same : lowerOp results span op u = _ := lowerOp_eq makes count
    rw [finish_eq tracks.opened count] at same
    exact ⟨kind, operands, types, makes, count, by rw [same], by rw [same]⟩

/-- A loop is left out with an error, or its node is created and a scope is opened for its body. -/
theorem enterLoop_entered (results : List Name) (iv : Name) (lower upper : Int) (span : Span) :
    Lower.Clean (· = s) (enterLoop results iv lower upper span) fun made t =>
      results = [] ∧ s.sites.lookup iv.text = none ∧ made = some ⟨s.region.nodes.size⟩ ∧
        t = s.entered iv lower upper span := by
  have clean := @enterLoop_clean (· = s) results iv lower upper span
  refine ⟨clean.reports, ?_⟩
  rintro u rfl quiet
  obtain ⟨rfl, _, rfl, new⟩ := clean.silent u rfl quiet
  rw [enterLoop_eq new]
  exact ⟨rfl, new, rfl, rfl⟩

theorem names_of_values {q : Region} {vs : List ValueId} {values : List Value}
    (h : vs.map q.value? = values.map some) : vs.map q.nameOf = values.map Value.name := by
  have names := congrArg (List.map fun value : Option Value => (value.map Value.name).getD "") h
  rw [List.map_map, List.map_map] at names
  exact names

theorem extendWith_values (r : Region) (node : Node) (news : List Value) :
    ((List.range' r.values.size news.length).map ValueId.mk).map (r.extendWith node news).value? =
      news.map some := by
  refine List.ext_getElem (by simp) fun i hi hi' => ?_
  have low : i < news.length := by simpa using hi'
  simp [Region.value?_extendWith, low]

theorem mem_news {r : Region} {v : ValueId} {count : Nat} :
    v ∈ (List.range' r.values.size count).map ValueId.mk ↔
      r.values.size ≤ v.index ∧ v.index < r.values.size + count := by
  rw [List.mem_map]
  constructor
  · rintro ⟨i, hi, rfl⟩
    simpa using List.mem_range'_1.mp hi
  · intro h
    exact ⟨v.index, List.mem_range'_1.mpr h, rfl⟩

/-- A node and its values have been created, and the values have been bound to new names. -/
theorem Tracks.create (tracks : s.Tracks visible) {node : Node} {news : List Value} {names : List Name}
    {vs : List ValueId} (numbers : vs = (List.range' s.region.values.size news.length).map ValueId.mk)
    (new : ∀ name ∈ names, s.sites.lookup name.text = none)
    (named : news.map Value.name = names.map Name.text)
    (together : ∀ v ∈ vs, ∀ w ∈ vs, v = w ∨ v ∈ node.results ∧ w ∈ node.results) :
    (Lowering.bound names vs { s with region := s.region.extendWith node news }).Tracks
      (vs.reverse ++ visible) := by
  have made : (s.region.extendWith node news).results ⟨s.region.nodes.size⟩ = node.results := by
    simp [Region.results, Region.node?_extendWith]
  refine tracks.define new ?_ (fun v hv => ?_) (fun v => ?_) (fun n v hv => ?_) fun v hv w hw => ?_
  · rw [← named, numbers]
    exact names_of_values (extendWith_values _ _ _)
  · rw [Region.value?_extendWith, if_pos hv]
  · rw [numbers, mem_news, Region.values_extendWith]
    omega
  · by_cases here : n = ⟨s.region.nodes.size⟩
    · simp [Region.results, here, Region.node?_eq_none] at hv
    · simpa [Region.results, Region.node?_extendWith, here] using hv
  · refine (together v hv w hw).imp_right fun both => ⟨⟨s.region.nodes.size⟩, ?_⟩
    rwa [made]

theorem named_names {n : NodeId} {names : List Name} {types : List ValueType}
    (count : names.length = types.length) :
    (namedResults n ((names.map Name.text).zip types)).map Value.name = names.map Name.text := by
  refine List.ext_getElem (by simp [namedResults, count]) fun i hi hi' => ?_
  simp [namedResults]

theorem Tracks.withAttrs (tracks : s.Tracks visible) (n : NodeId) (level : Option Nat)
    (attrs : Attrs) : (s.attributed n level attrs).Tracks visible := by
  have same := (@Region.sameNodes_modifyNode s.region n
    (fun m => { m with level := level, attrs := attrs }) fun _ => ⟨rfl, rfl, rfl, rfl⟩).results
  exact tracks.congr rfl same

/-- The node of an operation says what the operation says. -/
theorem Tracks.op_adds (tracks : s.Tracks visible) {results : List Name} {op : Op} {span : Span}
    {attrs : List AttrEntry} {kind : NodeKind} {operands : List ValueId} {types : List ValueType}
    {level : Option Nat} (new : ∀ name ∈ results, s.sites.lookup name.text = none)
    (makes : op.Makes s.region s.scopes kind operands types) (count : results.length = types.length)
    (levels : level.map levelAttr = lastEntry attrs levelKey)
    (small : ∀ l, level = some l → l < 2 ^ 32) :
    s.Adds visible (.op results op attrs span) ⟨s.region.nodes.size⟩
      ((s.finished results span kind operands types).attributed ⟨s.region.nodes.size⟩ level
        (Attrs.setAll levelKey attrs [])) := by
  let n : NodeId := ⟨s.region.nodes.size⟩
  let vs := (List.range' s.region.values.size types.length).map ValueId.mk
  let news := namedResults n ((results.map Name.text).zip types)
  let node : Node := ⟨kind, operands, vs, none, none, [], span⟩
  have length : news.length = types.length := by simp [news, namedResults, count]
  have numbers : vs = (List.range' s.region.values.size news.length).map ValueId.mk := by
    rw [length]
  have found := node?_attributed (s.node?_finished results span kind operands types) level
    (Attrs.setAll levelKey attrs [])
  have apart : ∀ v ∈ node.results, ∀ w ∈ node.results, v = w ∨ v ∈ node.results ∧ w ∈ node.results :=
    fun v hv w hw => Or.inr ⟨hv, hw⟩
  have created := tracks.create numbers new (named_names count) apart
  have results_eq : ((s.finished results span kind operands types).attributed n level
      (Attrs.setAll levelKey attrs [])).region.results n = vs := by
    rw [Region.results, found]
    rfl
  have grown : ∀ v value, s.region.value? v = some value →
      (s.region.extendWith node news).value? v = some value := fun v value hv => by
    rw [Region.value?_extendWith, if_pos (Region.index_lt_of_value? hv), hv]
  refine ⟨(s.region.extendWith_wrote node news).modify le_rfl _, ?_, ?_, rfl⟩
  · refine .op found (makes.transfer ?_ grown) ⟨count, ?_⟩
      ⟨levels, small, Attrs.collects_setAll levelKey attrs⟩ rfl .nil
    · intro name v h
      rw [tracks.find?] at h
      rw [Region.scopeOf_eq (r := s.region)]
      · exact h
      · intro w hw
        obtain ⟨value, hv⟩ := Region.value?_eq_some (tracks.known w hw)
        exact (grown w value hv).trans hv.symm
    · rw [results_eq, numbers]
      exact extendWith_values s.region node news
  · rw [results_eq]
    exact created.withAttrs n level _

theorem Tracks.openScope (tracks : s.Tracks visible) :
    ({ s with scopes := [] :: s.scopes } : Lowering).Tracks visible :=
  ⟨List.cons_ne_nil _ _, tracks.scope, tracks.known, tracks.sites, tracks.apart⟩

theorem Tracks.enter (tracks : s.Tracks visible) {iv : Name}
    (new : s.sites.lookup iv.text = none) (lower upper : Int) (span : Span) :
    (s.entered iv lower upper span).Tracks (⟨s.region.values.size⟩ :: visible) := by
  have numbers : [⟨s.region.values.size⟩] =
      (List.range' s.region.values.size 1).map ValueId.mk := rfl
  refine tracks.openScope.create numbers (by simpa using new) rfl ?_
  intro v hv w hw
  exact Or.inl ((List.mem_singleton.mp hv).trans (List.mem_singleton.mp hw).symm)

/-- The node of a loop says what the loop says, once its body does. -/
theorem Tracks.loop_adds (tracks : s.Tracks visible) {iv : Name} {lower upper : Int} {span : Span}
    {body : List Stmt} {attrs : List AttrEntry} {ns : List NodeId} {level : Option Nat}
    (inside : (s.entered iv lower upper span).Appends (some ⟨s.region.nodes.size⟩)
      (⟨s.region.values.size⟩ :: visible) body ns t) (lawful : t.region.Lawful)
    (levels : level.map levelAttr = lastEntry attrs levelKey)
    (small : ∀ l, level = some l → l < 2 ^ 32) :
    s.Adds visible (.loop [] iv lower upper body attrs span) ⟨s.region.nodes.size⟩
      (attributed ⟨s.region.nodes.size⟩ level (Attrs.setAll levelKey attrs [])
        { t with scopes := t.scopes.tail }) := by
  let n : NodeId := ⟨s.region.nodes.size⟩
  let v : ValueId := ⟨s.region.values.size⟩
  let node : Node := ⟨.loop v lower upper ns, [], [], none, none, [], span⟩
  have outside := s.region.extendWith_wrote ⟨.loop v lower upper [], [], [], none, none, [], span⟩
    [⟨iv.text, .scalar "index", .inductionVar n⟩]
  have wrote : s.region.Wrote none [] t.region := outside.inside le_rfl inside.wrote
  have made : t.region.node? n = some node := inside.wrote.node?_entered
  have named : t.region.value? v = some ⟨iv.text, .scalar "index", .inductionVar n⟩ := by
    rw [inside.wrote.value v (by simp [entered, Lowering.bound, v])]
    simp [entered, Lowering.bound, Region.value?_extendWith, v, n]
  have bodyOf : t.region.bodyOf n = ns := by simp [Region.bodyOf, Region.kind?, made, node, NodeKind.body]
  have found := node?_attributed (s := { t with scopes := t.scopes.tail }) made level
    (Attrs.setAll levelKey attrs [])
  have tail : t.scopes.tail = s.scopes := inside.tail
  refine ⟨wrote.modify le_rfl _, ?_, ?_, congrArg List.tail tail⟩
  · refine .loop found rfl rfl rfl named ⟨levels, small, Attrs.collects_setAll levelKey attrs⟩ rfl ?_ .nil
    refine inside.realizes.transfer (fun c hc m hm made hm' => ⟨made.parent, ?_⟩) (fun _ _ h => h)
      fun w hw => ?_
    · have deeper := lawful.childDeeper n c (show c ∈ t.region.bodyOf n from bodyOf ▸ hc)
      have below := lawful.index_le hm
      have other : m ≠ n := by
        rintro rfl
        omega
      rw [attributed, Region.node?_modifyNode, if_neg other, hm']
    · rcases List.mem_cons.mp hw with rfl | hw
      · exact ⟨_, named⟩
      · obtain ⟨value, hv⟩ := Region.value?_eq_some (tracks.known w hw)
        exact ⟨value, (wrote.value w (tracks.known w hw)).trans hv⟩
  · have left := inside.tracks.leave tracks wrote.valueCount wrote.value
    rw [← tail] at left
    have results : (attributed n level (Attrs.setAll levelKey attrs [])
        { t with scopes := t.scopes.tail }).region.results n = [] := by
      rw [Region.results, found]
      rfl
    rw [results]
    exact left.withAttrs n level _

theorem Appends.nil (tracks : s.Tracks visible) (block : Option NodeId) :
    s.Appends block visible [] [] s :=
  ⟨Region.Wrote.refl _ _, .nil, tracks, rfl⟩

/-- The node of a statement is put at the end of a block, and others behind it. -/
theorem Adds.append {stmt : Stmt} {stmts : List Stmt} {n : NodeId} {ns : List NodeId} {u : Lowering}
    {block : Option NodeId} {q : Region} (adds : s.Adds visible stmt n t)
    (outside : s.Tracks visible) (lawful : t.region.Lawful)
    (new : s.region.nodes.size ≤ n.index) (known : n.index < t.region.nodes.size)
    (older : ∀ p, block = some p → p.index < n.index) (attached : t.region.Attached block n q)
    (rest : Appends { t with region := q } block ((q.results n).reverse ++ visible) stmts ns u) :
    s.Appends block visible (stmt :: stmts) (n :: ns) u := by
  have results : u.region.results n = t.region.results n := by
    have low : n.index < q.nodes.size := attached.nodeCount ▸ known
    rw [← attached.results, Region.results, Region.results, rest.wrote.node n low]
    cases q.node? n with
    | none => rfl
    | some node =>
      rw [Option.map_some]
      split <;> rfl
  have grown : ∀ v value, t.region.value? v = some value → u.region.value? v = some value := by
    intro v value hv
    rw [← attached.value] at hv
    rw [rest.wrote.value v (Region.index_lt_of_value? hv), hv]
  have shown : ∀ v ∈ visible, ∃ value, t.region.value? v = some value := fun v hv => by
    obtain ⟨value, hv'⟩ := Region.value?_eq_some (outside.known v hv)
    exact ⟨value, (adds.wrote.value v (outside.known v hv)).trans hv'⟩
  have first : u.region.Realizes visible [stmt] [n] := by
    refine adds.realizes.transfer (fun c hc m hm made hm' => ?_) grown shown
    obtain rfl := List.mem_singleton.mp hc
    have below := lawful.index_le hm
    have low : m.index < q.nodes.size := attached.nodeCount ▸ Region.index_lt_of_node? hm'
    have other : block ≠ some m := fun he => by
      have := older m he
      omega
    refine ⟨if m = c then block else made.parent, ?_⟩
    rw [rest.wrote.node m low, attached.node m, hm']
    simp [other]
  refine ⟨(adds.wrote.attached new attached).trans rest.wrote, first.cons ?_, ?_, ?_⟩
  · rw [results, ← attached.results]
    exact rest.realizes
  · have tracks := rest.tracks
    rw [attached.results, ← results, ← List.append_assoc, ← List.reverse_append] at tracks
    exact tracks
  · exact rest.tail.trans adds.tail

mutual

/-- Statements are left out with an error, or each becomes a node. -/
theorem lowerBlock_appends {s : Lowering} {visible : List ValueId} (lawful : s.region.Lawful)
    (tracks : s.Tracks visible) (block : Option NodeId)
    (loop : ∀ p, block = some p → s.region.isLoop p = true) : ∀ stmts : List Stmt, BlockFormed stmts →
    Lower.Clean (· = s) (lowerBlock block stmts) fun _ t => ∃ ns, s.Appends block visible stmts ns t
  | [], _ => by
    unfold lowerBlock
    refine .pure ?_
    rintro _ rfl
    exact ⟨[], .nil tracks block⟩
  | stmt :: stmts, formed => by
    obtain ⟨first, others⟩ : stmt.Formed ∧ BlockFormed stmts := by simpa [BlockFormed] using formed
    unfold lowerBlock
    refine ((lowerStmt_adds lawful tracks stmt first).withSpec
      (lowerStmt_spec lawful tracks.shows stmt)).bind fun made => ?_
    cases made with
    | none =>
      refine .unreached (lowerBlock_reports block stmts) ?_
      rintro t ⟨⟨n, ⟨⟩, -⟩, -⟩
    | some n =>
      have later := fun _ : Unit => lowerBlock_reports block stmts
      refine .of_each ((attach_reports block n).bind later) ?_
      rintro t ⟨⟨_, ⟨⟩, adds⟩, -, opened, -⟩
      obtain ⟨q, made, attached, filled⟩ := opened.attach lawful.toCoherent loop
      have older : ∀ p, block = some p → p.index < s.region.nodes.size := fun p hp =>
        Region.isLoop_known (loop p hp)
      have run : attach block n t = ((), { t with region := q }) := attach_eq made
      have values : q.values = t.region.values := by rw [attached.header]
      have tracks' := adds.tracks.congr values attached.results
      rw [← attached.results] at tracks'
      refine .run run (attach_reports block n) later
        ((lowerBlock_appends filled.lawful tracks' block (fun p hp => ?_) stmts others).imp ?_)
      · exact (filled.grown.isLoop p (older p hp)).trans (loop p hp)
      · rintro _ u ⟨ns, rest⟩
        refine ⟨n :: ns, adds.append tracks opened.lawful opened.new opened.known (fun p hp => ?_)
          attached rest⟩
        exact lt_of_lt_of_le (older p hp) opened.new

/-- A statement is left out with an error, or becomes a node. -/
theorem lowerStmt_adds {s : Lowering} {visible : List ValueId} (lawful : s.region.Lawful)
    (tracks : s.Tracks visible) : ∀ stmt : Stmt, stmt.Formed →
    Lower.Clean (· = s) (lowerStmt stmt) fun made t => ∃ n, made = some n ∧ s.Adds visible stmt n t
  | .op results op attrs span, formed => by
    have formed : op.Formed := by simpa [Stmt.Formed] using formed
    have poisoned : Lower.Reports (do
        poison results
        return (none : Option NodeId)) := (poison_reports results).bind fun _ => .pure none
    have finished (n : NodeId) : Lower.Reports (do
        applyAttrs n attrs
        return some n) := (applyAttrs_reports n attrs).bind fun _ => .pure (some n)
    unfold lowerStmt
    refine (checkAllNew_clean results).bind fun new => ?_
    cases new with
    | false =>
      refine .unreached poisoned ?_
      rintro _ ⟨-, ⟨⟩, -⟩
    | true =>
      refine .of_each ((lowerOp_reports results span op).bind fun made => ?_) ?_
      · cases made with
        | none => exact poisoned
        | some n => exact finished n
      rintro s ⟨rfl, -, new⟩
      refine (lowerOp_finished tracks results span formed).bind fun made => ?_
      cases made with
      | none =>
        refine .unreached poisoned ?_
        rintro _ ⟨_, _, _, _, _, ⟨⟩, _⟩
      | some n =>
        refine .of_each (finished n) ?_
        rintro _ ⟨kind, operands, types, makes, count, ⟨⟩, rfl⟩
        have made := s.node?_finished results span kind operands types
        refine (applyAttrs_clean made (by simp) attrs).bind fun _ => .pure ?_
        rintro _ ⟨level, levels, small, rfl⟩
        exact ⟨_, rfl, tracks.op_adds new makes count (by simpa using levels) small⟩
  | .loop results iv lower upper body attrs span, formed => by
    have formed : BlockFormed body := by simpa [Stmt.Formed] using formed
    have poisoned : Lower.Reports (do
        poison results
        return (none : Option NodeId)) := (poison_reports results).bind fun _ => .pure none
    have left (n : NodeId) : Lower.Reports (do
        closeScope
        applyAttrs n attrs
        return some n) := closeScope_reports.bind fun _ =>
      (applyAttrs_reports n attrs).bind fun _ => .pure (some n)
    have finished (n : NodeId) := (lowerBlock_reports (some n) body).bind fun _ => left n
    unfold lowerStmt
    refine (checkAllNew_clean results).bind fun new => ?_
    cases new with
    | false =>
      refine .unreached poisoned ?_
      rintro _ ⟨-, ⟨⟩, -⟩
    | true =>
      refine .of_each ((enterLoop_reports results iv lower upper span).bind fun made => ?_) ?_
      · cases made with
        | none => exact poisoned
        | some n => exact finished n
      rintro s ⟨rfl, -, -⟩
      refine ((enterLoop_entered results iv lower upper span).withSpec
        (enterLoop_spec results iv lower upper span)).bind fun made => ?_
      cases made with
      | none =>
        refine .unreached poisoned ?_
        rintro _ ⟨⟨_, _, ⟨⟩, _⟩, _⟩
      | some n =>
        refine .of_each (finished n) ?_
        rintro t ⟨⟨rfl, new, ⟨⟩, rfl⟩, created, -⟩
        have tracks' := tracks.enter new lower upper span
        have isLoop : ∀ p, some (⟨s.region.nodes.size⟩ : NodeId) = some p →
            (s.entered iv lower upper span).region.isLoop p = true := by
          rintro p ⟨⟩
          simp [Region.isLoop, created.kind, NodeKind.isLoop]
        have lawful' := lawful.loop created
        refine ((lowerBlock_appends lawful' tracks' _ isLoop body formed).withSpec
          (lowerBlock_spec lawful' tracks'.shows _ isLoop body)).bind fun _ => ?_
        refine .of_each (left _) ?_
        rintro t ⟨⟨ns, inside⟩, _, filled, -⟩
        have made := inside.wrote.node?_entered
        let closed : Lowering := { t with scopes := t.scopes.tail }
        have run : closeScope t = ((), closed) := rfl
        refine .run run closeScope_reports
          (fun _ => (applyAttrs_reports _ attrs).bind fun _ => .pure _) ?_
        refine (applyAttrs_clean (s := closed) made (by simp) attrs).bind fun _ => .pure ?_
        rintro _ ⟨level, levels, small, rfl⟩
        exact ⟨_, rfl, tracks.loop_adds inside filled.lawful (by simpa using levels) small⟩

end

end Lowering

end Staging
