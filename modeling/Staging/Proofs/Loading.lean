import Staging.Proofs.Faithful
import Staging.Proofs.Rereading
import Staging.Proofs.Resolved
import Staging.Proofs.Wording

namespace Staging

theorem Token.punctuated_proper : Punctuated Token.Proper :=
  ⟨fun _ => trivial, fun _ => trivial, trivial⟩

/-- Results of one node come into scope in their order: what is behind one of them hides it. -/
def Region.InTurn (r : Region) (visible : List ValueId) : Prop :=
  ∀ pre v post, visible = pre ++ v :: post → ∀ n before behind, r.results n = before ++ v :: behind →
    ∀ w ∈ behind, w ∈ pre

/-- All that a node says can be written, and read again as it was meant. -/
structure Region.ReadableAt (r : Region) (n : NodeId) : Prop where
  kind : ∀ kind, r.kind? n = some kind → kind.Proper
  attrs : ∀ node, r.node? n = some node → node.attrs.Proper levelKey
  level : ∀ level, r.level? n = some level → level < 2 ^ 32
  operands : ∀ v ∈ r.operands n, r.LastNamed v
  defs : ∀ v ∈ r.defs n, ∃ value, r.value? v = some value ∧ IsValueName value.name ∧ value.type.Valid
  ivType : ∀ v ∈ r.ivs n, r.typeOf v = .scalar "index"
  allocated : ∀ stack, r.kind? n = some (.alloc stack) → ∀ v ∈ r.results n, r.isMemref v = true

section Valid

variable {attrs : Attrs} {reserved : String} {entries : List AttrEntry}

theorem TypeExpr.valid {t : TypeExpr} {type : ValueType} (h : t.valueType? = some type)
    (proper : t.token.Proper) : type.Valid := by
  cases t with
  | named name =>
    obtain ⟨known, rfl⟩ : isScalarName name.text = true ∧ .scalar name.text = type := by
      simpa [valueType?] using h
    exact ⟨proper, if_pos known⟩
  | shaped shape span =>
    obtain ⟨known, rfl⟩ : isScalarName shape.elem = true ∧ .shaped shape = type := by
      simpa [valueType?] using h
    exact ⟨proper, if_pos known⟩

theorem ValueType.valid_index : (ValueType.scalar "index").Valid :=
  ⟨⟨⟨'i', "ndex".toList, rfl, rfl, List.all_eq_true.mp rfl⟩, rfl⟩, rfl⟩

theorem Attrs.get?_of_mem (sorted : attrs.Pairwise fun a b => a.1 < b.1) {key : String} {value : Attr}
    (h : (key, value) ∈ attrs) : attrs.get? key = some value := by
  induction attrs with
  | nil => cases h
  | cons e attrs ih =>
    obtain ⟨above, later⟩ := List.pairwise_cons.mp sorted
    obtain ⟨k, v⟩ := e
    rw [get?_cons]
    rcases List.mem_cons.mp h with same | h
    · cases same
      exact if_pos rfl
    · rw [if_neg (ne_of_gt (above _ h)), ih later h]

theorem lastEntry_mem {key : String} {value : Attr} (h : lastEntry entries key = some value) :
    ∃ e ∈ entries, e.key.text = key ∧ e.value = value := by
  obtain ⟨e, found, rfl⟩ := Option.map_eq_some_iff.mp h
  exact ⟨e, List.mem_reverse.mp (List.mem_of_find?_eq_some found), by simpa using List.find?_some found,
    rfl⟩

/-- Attributes that are collected from what is written can be written. -/
theorem Attrs.Collects.proper (h : attrs.Collects reserved entries)
    (written : ∀ e ∈ entries, (Token.ident e.key.text).Proper ∧ e.value.token.Proper) :
    attrs.Proper reserved := by
  have entry {e : String × Attr} (he : e ∈ attrs) : e.1 ≠ reserved ∧
      lastEntry entries e.1 = some e.2 := by
    have found := (h.found e.1).symm.trans (Attrs.get?_of_mem h.sorted he)
    split at found
    next => cases found
    next free => exact ⟨free, found⟩
  refine ⟨h.sorted, fun e he => (entry he).1, fun e he => ?_⟩
  obtain ⟨source, hs, key, value⟩ := lastEntry_mem (entry he).2
  exact key ▸ value ▸ written source hs

end Valid

section Scope

variable {r : Region} {visible : List ValueId} {n : NodeId} {v : ValueId}

theorem Region.scopeOf_find? {name : String} (h : (r.scopeOf visible).find? name = some v) :
    ∃ pre post, visible = pre ++ v :: post ∧ r.nameOf v = name ∧ ∀ w ∈ pre, r.nameOf w ≠ name := by
  simp only [Scopes.find?, scopeOf, List.findSome?_cons, List.findSome?_nil] at h
  have found : (visible.map fun v => (r.nameOf v, some v)).lookup name = some (some v) := by
    cases hl : (visible.map fun v => (r.nameOf v, some v)).lookup name with
    | none => simp [hl] at h
    | some binding => simpa [hl] using h
  obtain ⟨before, behind, split, other⟩ := List.lookup_eq_some_iff.mp found
  obtain ⟨pre, rest, rfl, hpre, hrest⟩ := List.map_eq_append_iff.mp split
  obtain ⟨w, post, rfl, hw, -⟩ := List.map_eq_cons_iff.mp hrest
  simp only [Prod.mk.injEq, Option.some.injEq] at hw
  obtain ⟨named, rfl⟩ := hw
  refine ⟨pre, post, rfl, named, fun u hu same => ?_⟩
  have different := other (r.nameOf u, some u) (hpre ▸ List.mem_map_of_mem hu)
  simp [same] at different

theorem Region.InTurn.lastNamed (turn : r.InTurn visible) {name : String}
    (h : (r.scopeOf visible).find? name = some v) : r.LastNamed v := by
  obtain ⟨pre, post, split, named, other⟩ := scopeOf_find? h
  intro n before behind results w hw
  rw [named]
  exact other w (turn pre v post split n before behind results w hw)

theorem Region.InTurn.results (turn : r.InTurn visible) (coherent : r.Coherent) (n : NodeId) :
    r.InTurn ((r.results n).reverse ++ visible) := by
  intro pre v post split m before behind results w hw
  rcases List.append_eq_append_iff.mp split with ⟨more, rfl, rest⟩ | ⟨more, own, rest⟩
  · exact List.mem_append_right _ (turn more v post rest m before behind results w hw)
  · cases more with
    | nil => exact absurd (turn [] v post rest.symm m before behind results w hw) (List.not_mem_nil)
    | cons u more =>
      obtain ⟨rfl, -⟩ := List.cons_eq_cons.mp rest
      have mirrored : r.results n = more.reverse ++ v :: pre.reverse := by
        rw [← List.reverse_reverse (r.results n), own]
        simp
      have same : m = n := coherent.defs_unique (v := v) (List.mem_append_right _ (by simp [results]))
        (List.mem_append_right _ (by simp [mirrored]))
      rw [same, mirrored] at results
      have nodup := (List.nodup_append'.mp (coherent.defs_nodup n)).2.1
      rw [mirrored] at nodup
      have once := (List.nodup_middle.mp nodup).notMem
      simp only [List.mem_append, not_or] at once
      obtain ⟨-, -, rfl⟩ := (List.append_cons_inj_of_notMem once.1 once.2).mp results
      exact List.mem_reverse.mp hw

theorem Region.InTurn.iv (turn : r.InTurn visible) (coherent : r.Coherent) {iv : ValueId}
    (h : iv ∈ r.ivs n) : r.InTurn (iv :: visible) := by
  intro pre v post split m before behind results w hw
  cases pre with
  | nil =>
    obtain ⟨rfl, -⟩ := List.cons_eq_cons.mp split
    have result : iv ∈ r.results m := by simp [results]
    obtain rfl := coherent.defs_unique (List.mem_append_left _ h) (List.mem_append_right _ result)
    exact absurd result ((List.nodup_append'.mp (coherent.defs_nodup n)).2.2 h)
  | cons u pre =>
    exact List.mem_cons_of_mem _
      (turn pre v post (List.cons_eq_cons.mp split).2 m before behind results w hw)

end Scope

section Makes

variable {r : Region} {scopes : Scopes} {op : Op} {kind : NodeKind} {operands : List ValueId}
  {types : List ValueType}

/-- The results of a node have types that can be written, if the values in scope have. -/
theorem Op.Makes.valid (h : op.Makes r scopes kind operands types)
    (written : Consists Token.Proper op.lexemes)
    (scope : ∀ name v, scopes.find? name = some v → ∃ value, r.value? v = some value ∧ value.type.Valid) :
    kind.Proper ∧ ∀ t ∈ types, t.Valid := by
  have fixed := Token.punctuated_proper
  have typed {type : TypeExpr} : Consists Token.Proper (typeLexemes [type]) ↔ type.token.Proper := by
    simp [fixed.types]
  cases h with
  | alloc named memref =>
    rw [Op.lexemes, fixed.word, typed] at written
    exact ⟨trivial, by simpa using TypeExpr.valid named written⟩
  | constant named =>
    rw [Op.lexemes, consists_append, typed] at written
    have int := (consists_token.mp (consists_space.mp ((fixed.word _).mp written.1))).1
    exact ⟨int, by simpa using TypeExpr.valid named written.2⟩
  | convert found named | load found named buffer =>
    rw [Op.lexemes, consists_append, typed] at written
    exact ⟨trivial, by simpa using TypeExpr.valid named written.2⟩
  | ret found => simp [NodeKind.Proper]
  | @compute name operands types vs ts found named =>
    refine ⟨trivial, fun t ht => ?_⟩
    obtain ⟨type, htype, known⟩ := mem_of_mapM named t ht
    have some : types.isEmpty = false := List.isEmpty_eq_false_iff.mpr (List.ne_nil_of_mem htype)
    simp only [Op.lexemes, some, Bool.false_eq_true, if_false, consists_append, fixed.sign,
      fixed.types] at written
    exact TypeExpr.valid known (written.2 type htype)
  | store foundValue found buffer => simp [NodeKind.Proper]
  | copyInto foundSource foundTarget source target => simp [NodeKind.Proper]
  | @copyNew source type src t found named =>
    refine ⟨trivial, fun t' ht => List.mem_singleton.mp ht ▸ ?_⟩
    cases type with
    | some type =>
      rw [Op.lexemes, consists_append] at written
      exact TypeExpr.valid named (typed.mp written.2)
    | none =>
      obtain ⟨value, hv, valid⟩ := scope _ src found
      obtain rfl : value.type = t := by simpa [Lowering.copiedType?, hv] using named
      exact valid

/-- The result of an allocation is a buffer. -/
theorem Op.Makes.allocated {stack : Bool} (h : op.Makes r scopes (.alloc stack) operands types) :
    ∀ t ∈ types, t.isMemref = true := by
  cases h with
  | alloc named memref => simpa using memref

end Makes

section Realizes

variable {r : Region} {visible : List ValueId} {stmts : List Stmt} {n : NodeId} {ns : List NodeId}

theorem Region.Defines.result {names : List Name} {types : List ValueType}
    (h : r.Defines n names types) {v : ValueId} (hv : v ∈ r.results n) :
    ∃ name ∈ names, ∃ type ∈ types, ∃ d, r.value? v = some ⟨name.text, type, d⟩ := by
  have mem : r.value? v ∈ (r.results n).map r.value? := List.mem_map_of_mem hv
  rw [h.values] at mem
  obtain ⟨value, hvalue, same⟩ := List.mem_map.mp mem
  obtain ⟨i, hi, rfl⟩ := List.mem_mapIdx.mp hvalue
  obtain ⟨named, typed⟩ := List.of_mem_zip (List.getElem_mem hi)
  obtain ⟨name, hname, text⟩ := List.mem_map.mp named
  exact ⟨name, hname, _, typed, .result n i, by rw [← same, text]; rfl⟩

/-- The node of an operation that is written can be written. -/
theorem Region.InTurn.readableAt {node : Node} {op : Op} {results : List Name}
    {types : List ValueType} {attrs : List AttrEntry} {depth : Nat} {span : Span}
    (turn : r.InTurn visible)
    (scope : ∀ v ∈ visible, ∃ value, r.value? v = some value ∧ value.type.Valid)
    (written : Consists Token.Proper (Stmt.lexemes depth (.op results op attrs span)))
    (found : r.node? n = some node)
    (makes : op.Makes r (r.scopeOf visible) node.kind node.operands types)
    (defines : r.Defines n results types) (attributed : node.Attributed attrs) : r.ReadableAt n := by
  obtain ⟨names, written, entries⟩ := (Token.punctuated_proper.stmt _ _ _ _ _).mp written
  obtain ⟨kind, valid⟩ := makes.valid written fun name v h => by
    obtain ⟨pre, post, rfl, -⟩ := scopeOf_find? h
    exact scope v (by simp)
  have kind? : r.kind? n = some node.kind := by simp [Region.kind?, found]
  have ivs : r.ivs n = [] := ivs_eq_nil found makes.noLoop
  constructor
  case kind =>
    intro other h
    obtain rfl := Option.some.inj (kind?.symm.trans h)
    exact kind
  case attrs =>
    intro other h
    obtain rfl := Option.some.inj (found.symm.trans h)
    exact attributed.attrs.proper entries
  case level =>
    intro level h
    exact attributed.small level (by simpa [Region.level?, found] using h)
  case operands =>
    intro v hv
    obtain ⟨name, h⟩ := makes.found v (by simpa [Region.operands, found] using hv)
    exact turn.lastNamed h
  case defs =>
    intro v hv
    rw [Region.defs, ivs, List.nil_append] at hv
    obtain ⟨name, hname, type, ht, d, hv⟩ := defines.result hv
    exact ⟨_, hv, names name hname, valid type ht⟩
  case ivType => simp [ivs]
  case allocated =>
    intro stack h v hv
    obtain ⟨_, -, type, ht, d, hv⟩ := defines.result hv
    have alloc : node.kind = .alloc stack := Option.some.inj (kind?.symm.trans h)
    simpa [Region.isMemref, hv] using (alloc ▸ makes).allocated type ht

/-- The node of a loop that is written can be written, and so can the loop's body. -/
theorem Region.readableAt_loop {node : Node} {iv : Name} {lower upper : Int} {body : List Stmt}
    {inner : List NodeId} {v : ValueId} {attrs : List AttrEntry} {depth : Nat} {span : Span}
    (written : Consists Token.Proper (Stmt.lexemes depth (.loop [] iv lower upper body attrs span)))
    (found : r.node? n = some node) (kind : node.kind = .loop v lower upper inner)
    (operands : node.operands = []) (results : node.results = [])
    (named : r.value? v = some ⟨iv.text, .scalar "index", .inductionVar n⟩)
    (attributed : node.Attributed attrs) : r.ReadableAt n ∧
      ∀ stmt ∈ body, Consists Token.Proper (stmt.lexemes (depth + 1)) := by
  have fixed := Token.punctuated_proper
  obtain ⟨-, name, low, high, block, entries⟩ := (fixed.loop _ _ _ _ _ _ _ _).mp written
  have kind? : r.kind? n = some (.loop v lower upper inner) := by simp [Region.kind?, found, kind]
  have ivs : r.ivs n = [v] := by simp [Region.ivs, kind?, NodeKind.inductionVar?]
  refine ⟨?_, (fixed.block _ _).mp block⟩
  constructor
  case kind =>
    intro other h
    obtain rfl := Option.some.inj (kind?.symm.trans h)
    exact ⟨low, high⟩
  case attrs =>
    intro other h
    obtain rfl := Option.some.inj (found.symm.trans h)
    exact attributed.attrs.proper entries
  case level =>
    intro level h
    exact attributed.small level (by simpa [Region.level?, found] using h)
  case operands => simp [Region.operands, found, operands]
  case defs =>
    simpa [Region.defs, ivs, Region.results, found, results] using
      ⟨_, named, name, ValueType.valid_index⟩
  case ivType => simp [ivs, typeOf, named]
  case allocated => simp [Region.results, found, results]

theorem Region.readableAt_unknown (unknown : r.nodes.size ≤ n.index) : r.ReadableAt n := by
  constructor <;>
  simp [Region.kind?, Region.level?, Region.operands, Region.results, Region.defs, Region.ivs,
    node?_eq_none unknown]

/-- The nodes of statements that are written can be written. -/
theorem Region.Realizes.readableAt (coherent : r.Coherent) (h : r.Realizes visible stmts ns)
    {depth : Nat} (written : ∀ stmt ∈ stmts, Consists Token.Proper (stmt.lexemes depth))
    (scope : ∀ v ∈ visible, ∃ value, r.value? v = some value ∧ value.type.Valid)
    (turn : r.InTurn visible) : ∀ t ∈ ns, ∀ m, r.Within t m → r.ReadableAt m := by
  induction h generalizing depth with
  | nil => simp
  | @op visible results op attrs span stmts n ns node types found makes defines attributed place rest ih =>
    have here := turn.readableAt scope (written (.op results op attrs span) (by simp)) found makes defines attributed
    intro t ht m hm
    rcases List.mem_cons.mp ht with rfl | ht
    · rcases within_iff.mp hm with rfl | ⟨c, hc, -⟩
      · exact here
      · simp [Child, bodyOf, Region.kind?, found, NodeKind.body_eq_nil makes.noLoop] at hc
    · refine ih (fun stmt hs => written stmt (by simp [hs])) (fun v hv => ?_)
        (turn.results coherent n) t ht m hm
      rcases List.mem_append.mp hv with hv | hv
      · obtain ⟨value, known, -, valid⟩ := here.defs v (List.mem_append_right _ (by simpa using hv))
        exact ⟨value, known, valid⟩
      · exact scope v hv
  | @loop visible iv lower upper body stmts attrs span n inner ns node v found kind operands results
      named attributed place inside _ ihInside ihRest =>
    obtain ⟨here, body⟩ := Region.readableAt_loop (written (.loop [] iv lower upper body attrs span) (by simp))
      found kind operands results named attributed
    have induction : v ∈ r.ivs n := by simp [Region.ivs, Region.kind?, found, kind, NodeKind.inductionVar?]
    intro t ht m hm
    rcases List.mem_cons.mp ht with rfl | ht
    · rcases within_iff.mp hm with rfl | ⟨c, hc, below⟩
      · exact here
      · have hc : c ∈ inner := by
          simpa [Child, bodyOf, Region.kind?, found, kind, NodeKind.body] using hc
        refine ihInside body (fun w hw => ?_) (turn.iv coherent induction) c hc m below
        rcases List.mem_cons.mp hw with rfl | hw
        · exact ⟨_, named, ValueType.valid_index⟩
        · exact scope w hw
    · exact ihRest (fun stmt hs => written stmt (by simp [hs])) scope turn t ht m hm

/-- The region of a function that is written can be written, and read again. -/
theorem Region.RealizesFunc.readable {f : Func} (h : r.RealizesFunc f) (wf : r.WellFormed)
    (numbered : r.Numbered) (apart : r.Apart) (written : Consists Token.Proper f.lexemes) :
    r.Readable ∧ r.Leveled := by
  have fixed := Token.punctuated_proper
  obtain ⟨name, args, attrs, body⟩ := (fixed.func f).mp written
  have argValue {v : ValueId} (hv : v ∈ r.args) :
      ∃ value, r.value? v = some value ∧ IsValueName value.name ∧ value.type.Valid := by
    obtain ⟨i, hi, rfl⟩ := List.mem_iff_getElem.mp hv
    have low : i < f.args.length := h.args.length_eq ▸ hi
    obtain ⟨type, _, known, value⟩ := h.args.get low hi
    obtain ⟨name, token⟩ := args f.args[i] (List.getElem_mem low)
    exact ⟨_, value, name, TypeExpr.valid known token⟩
  have turn : r.InTurn r.args.reverse := by
    intro pre v post split n before behind results w _
    have arg : v ∈ r.args := List.mem_reverse.mp (by simp [split])
    exact absurd (List.mem_append_right _ (by simp [results])) (wf.arg_not_def arg n)
  have within {n : NodeId} (known : n.index < r.nodes.size) : ∃ t ∈ r.body, r.Within t n := by
    obtain ⟨t, ht, m, hm, same⟩ := numbered.body.node_surj (Nat.zero_le _) known
    obtain rfl : m = n := same
    exact ⟨t, ht, hm⟩
  have each (n : NodeId) : r.ReadableAt n := by
    by_cases known : n.index < r.nodes.size
    case neg => exact readableAt_unknown (Nat.le_of_not_lt known)
    obtain ⟨t, ht, hn⟩ := within known
    refine h.body.readableAt wf.toCoherent ((fixed.block 1 _).mp body) (fun v hv => ?_) turn t ht n hn
    obtain ⟨value, found, -, valid⟩ := argValue (List.mem_reverse.mp hv)
    exact ⟨value, found, valid⟩
  refine ⟨?_, fun n => (each n).level⟩
  constructor
  case name => exact h.name ▸ name
  case regionAttrs => exact h.attrs.proper attrs
  case values =>
    intro v value hv
    have defined : ∃ found, r.value? v = some found ∧ IsValueName found.name ∧ found.type.Valid := by
      rcases numbered.value_cases wf.toNested (index_lt_of_value? hv) with arg | ⟨n, def'⟩
      · exact argValue arg
      · exact (each n).defs v (List.mem_append.mpr def')
    obtain ⟨found, hf, proper⟩ := defined
    obtain rfl := Option.some.inj (hv.symm.trans hf)
    exact proper
  case kinds => exact fun n => (each n).kind
  case attrs => exact fun n => (each n).attrs
  case operandKnown =>
    intro n v hv
    have known : n.index < r.nodes.size := by
      by_contra unknown
      simp [Region.operands, node?_eq_none (Nat.le_of_not_lt unknown)] at hv
    obtain ⟨t, ht, hn⟩ := within known
    exact wf.sound.known_of_mentions ht ⟨n, hn, hv⟩
  case resultKnown => exact fun n v hv => wf.result_known hv
  case ivType => exact fun n => (each n).ivType
  case allocated => exact fun n => (each n).allocated
  case latest => exact fun n => (each n).operands
  case apart => exact apart

end Realizes

/-- The functions of a source text are written with the tokens of the text. -/
theorem parse_written {source : String} {p : Program} (h : (parse source).program = some p) :
    ∀ f ∈ p.funcs, Consists Token.Proper f.lexemes := by
  obtain ⟨phrase, tokens, rfl⟩ := derivation_of_parse h
  have composed : Composed (fun l => l.token.Proper) phrase.tokens := fun l hl =>
    lexFrom_proper 0 source.toList l (tokens ▸ hl)
  intro f hf
  obtain ⟨item, hitem, same⟩ := List.mem_filterMap.mp hf
  obtain ⟨part, hpart, rfl⟩ := List.mem_map.mp hitem
  have inner := Lines.composed composed part hpart
  cases part with
  | setting setting => cases same
  | func func =>
    cases same
    exact func.consists Token.punctuated_proper inner

/-- The regions that are loaded can be written and read again, with nodes and values numbered as
they stand. -/
theorem load_readable {source : String} {loaded : Loaded} (h : load source = .ok loaded) :
    ∀ r ∈ loaded.regions, r.WellFormed ∧ r.Numbered ∧ r.Readable ∧ r.Leveled := by
  obtain ⟨p, parsed, regions, clean⟩ := load_eq_ok h
  have parsed : (parse source).program = some p := by rw [parsed]
  have faithful := Program.lower_faithful parsed clean
  intro r hr
  rw [regions] at hr
  obtain ⟨made, -, rfl⟩ := mem_lowerItems hr
  obtain ⟨i, hi, same⟩ := List.mem_iff_getElem.mp hr
  have low : i < p.funcs.length := faithful.length_eq ▸ hi
  obtain ⟨realizes, apart⟩ := faithful.get low hi
  rw [List.get_eq_getElem, same] at realizes apart
  have numbered := made.lower_spec.2.2.1
  exact ⟨made.lower_wellFormed, numbered, realizes.readable made.lower_wellFormed numbered apart
    (parse_written parsed _ (List.get_mem p.funcs ⟨i, low⟩))⟩

end Staging
