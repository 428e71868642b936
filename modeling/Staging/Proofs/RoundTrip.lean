import Staging.Proofs.Bounded
import Staging.Proofs.Certified
import Staging.Proofs.Derivable
import Staging.Proofs.Loading
import Staging.Proofs.Naming
import Staging.Proofs.Restoring

namespace Staging

def Attr.Plain : Attr → Prop
  | .text content => IsPlain content
  | _ => True

def NodeKind.Plain : NodeKind → Prop
  | .compute name => IsPlain name
  | _ => True

/-- Names of operations and texts in attributes are written with no escapes but those of quotes and
backslashes. -/
structure Region.Plain (r : Region) : Prop where
  attrs : ∀ e ∈ r.attrs, e.2.Plain
  nodes : ∀ node ∈ r.nodes, node.kind.Plain ∧ ∀ e ∈ node.attrs, e.2.Plain

-- The instances test each member of a list with List.all, which the kernel evaluates at little cost.
instance : DecidablePred Attr.Plain
  | .text content => inferInstanceAs (Decidable (IsPlain content))
  | .int _ | .bool _ => isTrue trivial

instance : DecidablePred NodeKind.Plain
  | .compute name => inferInstanceAs (Decidable (IsPlain name))
  | .alloc _ | .constant _ | .convert _ | .ret | .load | .store | .copy | .loop .. => isTrue trivial

instance (r : Region) : Decidable r.Plain :=
  decidable_of_iff ((r.attrs.all fun e => e.2.Plain) ∧ r.nodes.toList.all fun node =>
      node.kind.Plain ∧ node.attrs.all fun e => e.2.Plain)
    ⟨fun h => ⟨by simpa using h.1, by simpa [-Array.all_toList] using h.2⟩,
      fun h => ⟨by simpa using h.attrs, by simpa [-Array.all_toList] using h.nodes⟩⟩

def Node.Plain (node : Node) : Prop :=
  node.kind.Plain ∧ ∀ e ∈ node.attrs, e.2.Plain

theorem Token.punctuated_plain : Punctuated Token.Plain :=
  ⟨fun _ => trivial, fun _ => trivial, trivial⟩

section Written

variable {r : Region}

theorem Attr.plain_token {a : Attr} : a.token.Plain ↔ a.Plain := by
  cases a <;> exact Iff.rfl

theorem Attrs.Proper.entries {attrs : Attrs} {reserved : String} (h : attrs.Proper reserved) :
    ∀ e ∈ attrs.map attrEntry, Token.Proper (.ident e.key.text) ∧ e.value.token.Proper := by
  intro e he
  obtain ⟨source, hs, rfl⟩ := List.mem_map.mp he
  exact h.written source hs

theorem Region.Readable.name_proper (readable : r.Readable) {v : ValueId}
    (known : v.index < r.values.size) : Token.Proper (.value (r.nameExpr v).text) := by
  obtain ⟨value, hv⟩ := value?_eq_some known
  simpa [nameExpr, nameOf, hv, Token.Proper] using (readable.values v value hv).1

theorem Region.Readable.type_proper (readable : r.Readable) {v : ValueId}
    (known : v.index < r.values.size) : (r.typeExpr v).token.Proper := by
  obtain ⟨value, hv⟩ := value?_eq_some known
  have type : r.typeExpr v = value.type.expr := by simp [typeExpr, typeOf, hv]
  rw [type]
  exact (readable.values v value hv).2.1

/-- The operation that a node is written as can be written and read again. -/
theorem Region.Readable.op_proper (readable : r.Readable) (coherent : r.Coherent)
    {n : NodeId} {node : Node} (hn : r.node? n = some node) :
    Consists Token.Proper (r.opOf node).lexemes ∧ (r.opOf node).Formed := by
  have fixed := Token.punctuated_proper
  have name : ∀ v ∈ node.operands, Token.Proper (.value (r.nameExpr v).text) := fun v hv =>
    readable.name_proper (readable.operandKnown n v (by simpa [Region.operands, hn] using hv))
  have type : ∀ v ∈ node.results, (r.typeExpr v).token.Proper := fun v hv =>
    readable.type_proper (readable.resultKnown n v (by simpa [Region.results, hn] using hv))
  have result (one : node.results.length = 1) : (r.resultExpr node).token.Proper := by
    obtain ⟨v, hv⟩ := List.length_eq_one_iff.mp one
    simpa [resultExpr, hv] using type v (by simp [hv])
  have operand {i : Nat} (low : i < node.operands.length) :
      Token.Proper (.value (r.operandExpr node i).text) := by
    rw [operandExpr_of (List.getElem?_eq_getElem low)]
    exact name _ (List.getElem_mem low)
  have typed {type : TypeExpr} : Consists Token.Proper (typeLexemes [type]) ↔ type.token.Proper := by
    simp [fixed.types]
  have fits := coherent.fits n node hn
  have said := readable.kinds n node.kind (by simp [Region.kind?, hn])
  unfold opOf
  cases hk : node.kind <;> rw [hk] at fits said
  case alloc stack => exact ⟨by simpa [Op.lexemes, fixed.word, typed] using result fits.2, trivial⟩
  case constant value =>
    exact ⟨by simpa [Op.lexemes, fixed.word, typed] using ⟨said, result fits.2⟩, trivial⟩
  case convert conversion | load =>
    have one : 0 < node.operands.length := by rw [fits.1]; exact Nat.one_pos
    exact ⟨by simpa [Op.lexemes, fixed.word, typed] using ⟨operand one, result fits.2⟩, trivial⟩
  case store =>
    have two : 1 < node.operands.length := by rw [fits.1]; exact Nat.one_lt_two
    exact ⟨by simpa [Op.lexemes, fixed.word, fixed.values] using
      ⟨operand (Nat.lt_of_succ_lt two), operand two⟩, trivial⟩
  case ret | loop =>
    refine ⟨?_, trivial⟩
    rw [Op.lexemes, fixed.word]
    split
    · exact consists_nil
    · simpa [fixed.values] using name
  case compute name' =>
    have types : Consists Token.Proper (if (node.results.map r.typeExpr).isEmpty then []
        else typeLexemes (node.results.map r.typeExpr)) := by
      split
      · exact consists_nil
      · simpa [fixed.types] using type
    refine ⟨?_, trivial⟩
    simp only [Op.lexemes, consists_append, fixed.word, fixed.sign, fixed.values, consists_space,
      consists_token, List.forall_mem_map]
    exact ⟨⟨⟨trivial, consists_nil⟩, name⟩, types⟩
  case copy =>
    have operands : (node.operands.map r.nameExpr).length = 1 ∨
        (node.operands.map r.nameExpr).length = 2 := by
      rw [List.length_map]
      exact fits.symm.imp And.left And.left
    refine ⟨?_, operands⟩
    simp only [Op.lexemes, consists_append, fixed.word, fixed.values, consists_space,
      List.forall_mem_map]
    refine ⟨⟨consists_nil, name⟩, ?_⟩
    cases hv : node.results with
    | nil => exact consists_nil
    | cons v vs => exact typed.mpr (type v (by simp [hv]))

theorem blockFormed_iff {stmts : List Stmt} : BlockFormed stmts ↔ ∀ stmt ∈ stmts, stmt.Formed := by
  induction stmts with
  | nil => simp [BlockFormed]
  | cons stmt stmts ih => simp [BlockFormed, ih]

theorem fitsInt_of_lt {n : Nat} (h : n < 2 ^ 32) : fitsInt n = true := by
  simp only [fitsInt, Bool.and_eq_true, decide_eq_true_eq]
  norm_num
  omega

theorem Token.proper_levelKey : Token.Proper (.ident levelKey) :=
  ⟨⟨'d', "ataflow_level".toList, rfl, rfl, List.all_eq_true.mp rfl⟩, rfl⟩

theorem Token.proper_dataflowKey : Token.Proper (.ident dataflowKey) :=
  ⟨⟨'d', "ataflow".toList, rfl, rfl, List.all_eq_true.mp rfl⟩, rfl⟩

/-- The statement that a node is written as can be written and read again. -/
theorem Region.Readable.stmt_proper (readable : r.Readable) (leveled : r.Leveled)
    (coherent : r.Coherent) (depth : Nat) (n : NodeId) (margin : Nat) :
    Consists Token.Proper ((r.stmtOf depth n).lexemes margin) ∧ (r.stmtOf depth n).Formed := by
  have fixed := Token.punctuated_proper
  have nothing (margin : Nat) :
      Consists Token.Proper (Stmt.lexemes margin (.op [] (.ret []) [] default)) ∧
        Stmt.Formed (.op [] (.ret []) [] default) := by
    refine ⟨(fixed.stmt _ _ _ _ _).mpr ⟨by simp, ?_, by simp⟩, trivial⟩
    simp [Op.lexemes, fixed.word]
  induction depth generalizing n margin with
  | zero => exact nothing margin
  | succ depth ih =>
    cases hn : r.node? n with
    | none => simpa only [stmtOf, hn] using nothing margin
    | some node =>
      have results : ∀ name ∈ node.results.map r.nameExpr, Token.Proper (.value name.text) := by
        intro name hname
        obtain ⟨v, hv, rfl⟩ := List.mem_map.mp hname
        exact readable.name_proper
          (readable.resultKnown n v (by simpa [Region.results, hn] using hv))
      have attrs : ∀ e ∈ node.writtenAttrs.map attrEntry,
          Token.Proper (.ident e.key.text) ∧ e.value.token.Proper := by
        have own := (readable.attrs n node hn).entries
        rw [Node.writtenAttrs, List.map_append]
        intro e he
        rcases List.mem_append.mp he with he | he
        · cases hl : node.level with
          | none => simp [hl] at he
          | some level =>
            obtain rfl : e = attrEntry (levelKey, .int level) := by simpa [hl] using he
            have small := leveled n level (by simp [Region.level?, hn, hl])
            exact ⟨Token.proper_levelKey, fitsInt_of_lt small⟩
        · exact own e he
      by_cases loop : node.kind.isLoop = true
      · obtain ⟨iv, lower, upper, body, hk⟩ := NodeKind.eq_loop loop
        have bounds := readable.kinds n _ (show r.kind? n = some _ by simp [Region.kind?, hn, hk]; rfl)
        have iv' : iv ∈ r.ivs n := by simp [Region.ivs, Region.kind?, hn, hk, NodeKind.inductionVar?]
        rw [stmtOf_loop hn hk]
        refine ⟨(fixed.loop _ _ _ _ _ _ _ _).mpr ⟨results, ?_, bounds.1, bounds.2,
          (fixed.block _ _).mpr ?_, attrs⟩, ?_⟩
        · exact readable.name_proper (coherent.def_known (List.mem_append_left _ iv'))
        · exact List.forall_mem_map.mpr fun m _ => (ih m (margin + 1)).1
        · rw [Stmt.Formed, blockFormed_iff]
          exact List.forall_mem_map.mpr fun m _ => (ih m margin).2
      · have noLoop : node.kind.isLoop = false := by simpa using loop
        rw [stmtOf_op hn noLoop]
        obtain ⟨written, formed⟩ := readable.op_proper coherent hn
        refine ⟨(fixed.stmt _ _ _ _ _).mpr ⟨results, written, attrs⟩, ?_⟩
        unfold Stmt.Formed
        exact formed

/-- The function that a region is written as can be written and read again. -/
theorem Region.WellFormed.func_proper (wf : r.WellFormed) (readable : r.Readable)
    (leveled : r.Leveled) : Consists Token.Proper r.func.lexemes ∧ BlockFormed r.func.body := by
  have stmt := readable.stmt_proper leveled wf.toCoherent
  have attrs : ∀ e ∈ r.writtenAttrs.map attrEntry,
      Token.Proper (.ident e.key.text) ∧ e.value.token.Proper := by
    rw [writtenAttrs, List.map_append]
    intro e he
    rcases List.mem_append.mp he with he | he
    · split at he
      · obtain rfl := List.mem_singleton.mp he
        exact ⟨Token.proper_dataflowKey, trivial⟩
      · cases he
    · exact readable.regionAttrs.entries e he
  refine ⟨(Token.punctuated_proper.func r.func).mpr ⟨readable.name, ?_, attrs, ?_⟩, ?_⟩
  · refine List.forall_mem_map.mpr fun v hv => ?_
    have known := known_of_definition? (wf.sound.arg_defined hv).choose_spec
    exact ⟨readable.name_proper known, readable.type_proper known⟩
  · exact (Token.punctuated_proper.block _ _).mpr
      (List.forall_mem_map.mpr fun n _ => (stmt r.nodes.size n 1).1)
  · exact blockFormed_iff.mpr (List.forall_mem_map.mpr fun n _ => (stmt r.nodes.size n 0).2)

/-- The operation that a node is written as is plain where its name is. -/
theorem Region.op_plain {node : Node} :
    Consists Token.Plain (r.opOf node).lexemes ↔ node.kind.Plain := by
  have fixed := Token.punctuated_plain
  have names (ns : List Name) : Consists Token.Plain (valueLexemes ns) :=
    (fixed.values ns).mpr fun _ _ => trivial
  have types (ts : List TypeExpr) : Consists Token.Plain (typeLexemes ts) :=
    (fixed.types ts).mpr fun t _ => by cases t <;> trivial
  have value (n : Name) : Token.Plain (.value n.text) := trivial
  have number (v : Int) : Token.Plain (.int v) := trivial
  unfold opOf
  cases node.kind with
  | alloc stack => cases stack <;> simp [Op.lexemes, NodeKind.Plain, fixed.word, types]
  | constant v => simp [Op.lexemes, NodeKind.Plain, fixed.word, types, number]
  | convert | load => simp [Op.lexemes, NodeKind.Plain, fixed.word, types, value]
  | store => simp [Op.lexemes, NodeKind.Plain, fixed.word, names]
  | ret | loop =>
    simp only [Op.lexemes, NodeKind.Plain, fixed.word]
    split <;> simp [names]
  | compute name =>
    have said : Token.Plain (.string name) ↔ IsPlain name := Iff.rfl
    simp only [Op.lexemes, NodeKind.Plain, List.cons_append, List.nil_append, fixed.word,
      consists_space, consists_token, consists_append, fixed.sign, said, names]
    split <;> simp [types]
  | copy =>
    simp only [Op.lexemes, NodeKind.Plain, List.cons_append, List.nil_append, fixed.word,
      consists_space, consists_append, names]
    cases node.results.head? <;> simp [types]

theorem Attrs.plain_entries {attrs : Attrs} : (∀ e ∈ attrs.map attrEntry,
    Token.Plain (.ident e.key.text) ∧ e.value.token.Plain) ↔ ∀ e ∈ attrs, e.2.Plain := by
  rw [List.forall_mem_map]
  exact forall₂_congr fun e _ => ⟨fun h => Attr.plain_token.mp h.2,
    fun h => ⟨trivial, Attr.plain_token.mpr h⟩⟩

theorem Node.plain_entries {node : Node} : (∀ e ∈ node.writtenAttrs.map attrEntry,
    Token.Plain (.ident e.key.text) ∧ e.value.token.Plain) ↔ ∀ e ∈ node.attrs, e.2.Plain := by
  rw [Attrs.plain_entries, writtenAttrs, List.forall_mem_append]
  refine and_iff_right ?_
  cases node.level <;> simp [Attr.Plain]

theorem Region.plain_entries : (∀ e ∈ r.writtenAttrs.map attrEntry,
    Token.Plain (.ident e.key.text) ∧ e.value.token.Plain) ↔ ∀ e ∈ r.attrs, e.2.Plain := by
  rw [Attrs.plain_entries, writtenAttrs, List.forall_mem_append]
  refine and_iff_right ?_
  cases r.dataflow <;> simp [Attr.Plain]

/-- The statement that a node is written as is plain where all nodes within it are. -/
theorem Region.stmt_plain (depth : Nat) (n : NodeId) (margin : Nat) :
    Consists Token.Plain ((r.stmtOf depth n).lexemes margin) ↔
      ∀ m ∈ r.walkWithin depth n, ∀ node, r.node? m = some node → node.Plain := by
  have fixed := Token.punctuated_plain
  have nothing (margin : Nat) :
      Consists Token.Plain (Stmt.lexemes margin (.op [] (.ret []) [] default)) := by
    refine (fixed.stmt _ _ _ _ _).mpr ⟨by simp, ?_, by simp⟩
    simp [Op.lexemes, fixed.word]
  induction depth generalizing n margin with
  | zero => exact iff_of_true (nothing margin) (by simp [walkWithin])
  | succ depth ih =>
    rw [walkWithin, List.forall_mem_cons, List.forall_mem_flatMap]
    cases hn : r.node? n with
    | none => simpa [stmtOf, hn, bodyOf, kind?] using nothing margin
    | some node =>
      have here : (∀ node', some node = some node' → node'.Plain) ↔ node.Plain := by simp
      have body : r.bodyOf n = node.kind.body := by simp [bodyOf, kind?, hn]
      rw [here, body]
      by_cases loop : node.kind.isLoop = true
      · obtain ⟨iv, lower, upper, body, hk⟩ := NodeKind.eq_loop loop
        have kind : node.Plain ↔ ∀ e ∈ node.attrs, e.2.Plain := by
          rw [Node.Plain, hk]
          exact and_iff_right trivial
        rw [stmtOf_loop hn hk, fixed.loop, fixed.block, Node.plain_entries, kind, hk, NodeKind.body]
        simp only [List.forall_mem_map, ih]
        exact ⟨fun h => ⟨h.2.2.2.2.2, h.2.2.2.2.1⟩,
          fun h => ⟨fun _ _ => trivial, trivial, trivial, trivial, h.2, h.1⟩⟩
      · have noLoop : node.kind.isLoop = false := by simpa using loop
        rw [stmtOf_op hn noLoop, fixed.stmt, Node.plain_entries, op_plain,
          NodeKind.body_eq_nil noLoop]
        exact ⟨fun h => ⟨h.2, by simp⟩, fun h => ⟨fun _ _ => trivial, h.1⟩⟩

/-- The function that a region is written as is plain where the region is, but for nodes that are in
no block. -/
theorem Region.func_plain : Consists Token.Plain r.func.lexemes ↔ (∀ e ∈ r.attrs, e.2.Plain) ∧
    ∀ n ∈ r.attached, ∀ node, r.node? n = some node → node.Plain := by
  have fixed := Token.punctuated_plain
  have args : ∀ arg ∈ r.func.args, Token.Plain (.value arg.name.text) ∧ arg.type.token.Plain :=
    fun arg _ => ⟨trivial, by cases arg.type <;> trivial⟩
  have attrs : r.func.attrs = r.writtenAttrs.map attrEntry := rfl
  have body : r.func.body = r.body.map (r.stmtOf r.nodes.size) := rfl
  rw [fixed.func, attrs, plain_entries, body, fixed.block, List.forall_mem_map, attached,
    List.forall_mem_flatMap]
  simp only [stmt_plain]
  exact ⟨fun h => h.2.2, fun h => ⟨trivial, args, h⟩⟩

theorem Region.Plain.func (plain : r.Plain) : Consists Token.Plain r.func.lexemes :=
  Region.func_plain.mpr
    ⟨plain.attrs, fun _ _ node hn => plain.nodes node (Array.mem_of_getElem? hn)⟩

end Written

section Reload

variable {rs : List Region}

/-- A region that is read from what `r` is written as, with any new identifiers that are given in the
order in which nodes and values stand. -/
def Region.Reread (r q : Region) : Prop :=
  ∀ (φ : Renaming) (last : IdSupply),
    r.args.map φ.value = (List.range' 0 r.args.length).map ValueId.mk →
      r.Places φ ⟨0, r.args.length⟩ r.body last → r.Restored φ q

/-- Where nodes and values are numbered as they stand, they keep their numbers. -/
theorem Region.Reread.same {r q : Region} (h : r.Reread q) (numbered : r.Numbered) :
    q.bare = r.bare :=
  (h .id _ (by simpa [Renaming.id] using numbered.args) numbered.body).bare_eq numbered

theorem applyItems_funcs (o : Options) (fs : List Func) : o.applyItems (fs.map .func) = (o, []) := by
  induction fs with
  | nil => rfl
  | cons f fs ih => exact ih

theorem lowerItems_funcs {fs : List Func} (taken : List (String × Span))
    (distinct : (taken.map Prod.fst ++ fs.map fun f => f.name.text).Nodup)
    (quiet : ∀ f ∈ fs, f.lower.2 = []) :
    lowerItems taken (fs.map .func) = (fs.map fun f => f.lower.1, []) := by
  induction fs generalizing taken with
  | nil => rfl
  | cons f fs ih =>
    have free : taken.lookup f.name.text = none := by
      refine List.lookup_eq_none_iff.mpr fun site hsite => ?_
      have other := (List.nodup_append.mp distinct).2.2 site.1 (List.mem_map_of_mem hsite)
        f.name.text (by simp)
      simpa using other.symm
    have rest := ih (taken ++ [(f.name.text, f.name.span)]) (by simpa using distinct)
      fun g hg => quiet g (by simp [hg])
    rw [List.map_cons, lowerItems, free]
    simp [rest, quiet f (by simp)]

/-- The text of regions that can be written is parsed as the functions that they are written as. -/
theorem parse_moduleText (wf : ∀ r ∈ rs, r.WellFormed) (readable : ∀ r ∈ rs, r.Readable)
    (leveled : ∀ r ∈ rs, r.Leveled) (plain : ∀ r ∈ rs, r.Plain) :
    ∃ (text : String) (gs : List Func) (span : Span), moduleText rs = some text ∧
      gs.map Func.bare = (rs.map Region.func).map Func.bare ∧
      parse text = ⟨some ⟨gs.map .func, span⟩, []⟩ := by
  obtain ⟨text, written, spelled⟩ := moduleText_spells wf
  have proper : ∀ f ∈ rs.map Region.func, Consists Token.Proper f.lexemes ∧ BlockFormed f.body :=
    List.forall_mem_map.mpr fun r hr => (wf r hr).func_proper (readable r hr) (leveled r hr)
  have plain : ∀ f ∈ rs.map Region.func, Consists Token.Plain f.lexemes :=
    List.forall_mem_map.mpr fun r hr => (plain r hr).func
  obtain ⟨gs, span, same, parsed⟩ := parse_spell (rs.map Region.func) (fun f hf => (proper f hf).2)
    fun t ht => ⟨(Token.punctuated_proper.funcs _).mpr (fun f hf => (proper f hf).1) t ht,
      (Token.punctuated_plain.funcs _).mpr plain t ht⟩
  rw [← spelled, String.ofList_toList] at parsed
  exact ⟨text, gs, span, written, same, parsed⟩

/-- Regions of different names that can be written are read back from what they are written as. -/
theorem reload (wf : ∀ r ∈ rs, r.WellFormed) (readable : ∀ r ∈ rs, r.Readable)
    (leveled : ∀ r ∈ rs, r.Leveled) (plain : ∀ r ∈ rs, r.Plain)
    (distinct : (rs.map Region.name).Nodup) : ∃ text again, moduleText rs = some text ∧
      load text = .ok again ∧ again.warnings = [] ∧
      List.Forall₂ Region.Reread rs again.regions := by
  obtain ⟨text, gs, span, written, same, parsed⟩ := parse_moduleText wf readable leveled plain
  have each : List.Forall₂ (fun r g => (Region.func r).bare = Func.bare g) rs gs := by
    rw [List.map_map, eq_comm, ← List.forall₂_eq_eq_eq, List.forall₂_map_left_iff,
      List.forall₂_map_right_iff] at same
    exact same
  have reread : List.Forall₂ (fun g r => (Func.lower g).2 = [] ∧ g.name.text = Region.name r ∧
      r.Reread g.lower.1) gs rs := by
    refine .flip (((List.forall₂_and_left _ _).mpr ⟨fun r hr => And.intro (wf r hr) (And.intro
      (readable r hr) (leveled r hr)), each⟩).imp ?_)
    rintro r g ⟨⟨wf, readable, leveled⟩, same⟩
    obtain ⟨φ, last, numbers, places⟩ := wf.exists_places
    refine ⟨(wf.restores readable leveled numbers places same.symm).1,
      Name.text_of_bare (congrArg Func.name same.symm :), fun φ last numbers places => ?_⟩
    exact (wf.restores readable leveled numbers places same.symm).2
  obtain ⟨quiet, reread⟩ := (List.forall₂_and_left _ _).mp reread
  have names : gs.map (fun g => g.name.text) = rs.map Region.name := by
    rw [← List.forall₂_eq_eq_eq, List.forall₂_map_left_iff, List.forall₂_map_right_iff]
    exact reread.imp fun _ _ both => both.1
  have lowered : Program.lower ⟨gs.map .func, span⟩ = (gs.map fun g => g.lower.1, []) :=
    lowerItems_funcs [] (by simpa [names] using distinct) quiet
  refine ⟨text, ⟨gs.map fun g => g.lower.1, .default, []⟩, written, ?_, rfl, ?_⟩
  · simp [load, parsed, Program.options, applyItems_funcs, lowered, anyError]
  · exact .flip (List.forall₂_map_left_iff.mpr (reread.imp fun _ _ both => both.2))

/-- Regions that are written as the same functions have the same text. -/
theorem moduleText_of_func {qs : List Region} (wf : ∀ r ∈ rs, r.WellFormed)
    (wf' : ∀ q ∈ qs, q.WellFormed) (same : qs.map Region.func = rs.map Region.func) :
    moduleText qs = moduleText rs := by
  obtain ⟨text, written, spelled⟩ := moduleText_spells wf
  obtain ⟨text', written', spelled'⟩ := moduleText_spells wf'
  rw [written, written', String.toList_inj.mp (spelled'.trans ((same ▸ spelled).symm))]

/-- Regions that are read back are written as before. -/
theorem moduleText_reread {qs : List Region} (wf : ∀ r ∈ rs, r.WellFormed)
    (wf' : ∀ q ∈ qs, q.WellFormed) (reread : List.Forall₂ Region.Reread rs qs) :
    moduleText qs = moduleText rs := by
  refine moduleText_of_func wf wf' ?_
  induction reread with
  | nil => rfl
  | @cons r q rs qs here _ ih =>
    have wfr := wf r (by simp)
    obtain ⟨φ, last, numbers, places⟩ := wfr.exists_places
    rw [List.map_cons, List.map_cons, (here φ last numbers places).func_eq wfr (wf' q (by simp)),
      ih (fun r hr => wf r (by simp [hr])) fun q hq => wf' q (by simp [hq])]

end Reload

section Steps

/-- A region that comes out of a run. -/
def Region.MadeLegal (r out : Region) : Prop :=
  ∃ o report, r.legalize o = .ok (report, out)

variable {r out : Region}

/-- No run brings in what is written with other escapes. -/
theorem Region.Plain.legalize (plain : r.Plain) (wf : r.WellFormed) {o : Options} {report : Report}
    (h : r.legalize o = .ok (report, out)) : out.Plain := by
  have aug := legalize_augments h
  obtain ⟨_, _, _, -, -, legal⟩ := wf.legalize h
  have rew := legal.threaded.rewritten.sameNodes legal.same
  have kinds {n : NodeId} {kind : NodeKind} (hk : out.kind? n = some kind) : kind.Plain := by
    rcases rew.kind_cases hk with old | rfl | rfl
    · obtain ⟨node, hn, rfl⟩ := Option.map_eq_some_iff.mp old
      exact (plain.nodes node (Array.mem_of_getElem? hn)).1
    · trivial
    · trivial
  refine ⟨aug.attrs ▸ plain.attrs, fun node hnode => ?_⟩
  obtain ⟨i, hi⟩ := Array.mem_iff_getElem?.mp hnode
  have hn : out.node? ⟨i⟩ = some node := hi
  refine ⟨kinds (n := ⟨i⟩) (by simp [kind?, hn]), ?_⟩
  rcases aug.nodeAttrs ⟨i⟩ node hn with none | ⟨old, ho, same⟩
  · simp [none]
  · exact same ▸ (plain.nodes old (Array.mem_of_getElem? ho)).2

/-- What the text of a region needs to be read again, but for its levels. -/
structure Region.Lasting (r : Region) (name : String) : Prop where
  wf : r.WellFormed
  readable : r.Readable
  plain : r.Plain
  named : r.name = name
  leveled : r.nodes.size < 2 ^ 32 → r.Leveled

theorem Region.Lasting.madeLegal {name : String} (lasting : r.Lasting name) (h : r.MadeLegal out) :
    out.Lasting name := by
  obtain ⟨o, report, h⟩ := h
  have aug := legalize_augments h
  obtain ⟨_, _, _, -, -, legal⟩ := lasting.wf.legalize h
  refine ⟨legal.wellFormed, legal.readable aug lasting.readable, lasting.plain.legalize lasting.wf h,
    aug.name.trans lasting.named, fun small n level hl => ?_⟩
  exact lt_of_le_of_lt (lasting.wf.legalize_level_le h hl) small

theorem Region.Lasting.steps {name : String} (lasting : r.Lasting name)
    (h : Relation.ReflTransGen Region.MadeLegal r out) : out.Lasting name := by
  induction h with
  | refl => exact lasting
  | tail _ step ih => exact ih.madeLegal step

end Steps

/-- Where there are no errors, functions have different names. -/
theorem lowerItems_distinct {taken : List (String × Span)} {items : List Item}
    (nodup : (taken.map Prod.fst).Nodup) (clean : anyError (lowerItems taken items).2 = false) :
    (taken.map Prod.fst ++ (items.filterMap Item.func?).map fun f => f.name.text).Nodup := by
  induction items generalizing taken with
  | nil => simpa using nodup
  | cons item items ih =>
    cases item with
    | setting setting => exact ih nodup clean
    | func f =>
      unfold lowerItems at clean
      split at clean
      next previous old => simp [anyError, Diagnostic.isError, Diagnostic.redefinedFunction,
          Diagnostic.error] at clean
      next new =>
        simp only [anyError, List.any_append, Bool.or_eq_false_iff] at clean
        have free : f.name.text ∉ taken.map Prod.fst := by
          intro mem
          obtain ⟨site, hs, same⟩ := List.mem_map.mp mem
          have other := List.lookup_eq_none_iff.mp new site hs
          simp [same] at other
        have rest := @ih (taken ++ [(f.name.text, f.name.span)])
          (by simpa using List.nodup_append_comm.mp (List.nodup_cons.mpr ⟨free, nodup⟩)) clean.2
        simpa [Item.func?] using rest

/-- The regions that are loaded have different names. -/
theorem load_distinct {source : String} {loaded : Loaded} (h : load source = .ok loaded) :
    (loaded.regions.map Region.name).Nodup := by
  obtain ⟨p, parsed, regions, clean⟩ := load_eq_ok h
  have faithful := Program.lower_faithful (by rw [parsed]) clean
  have names : p.funcs.map (fun f => f.name.text) = p.lower.1.map Region.name := by
    rw [← List.forall₂_eq_eq_eq, List.forall₂_map_left_iff, List.forall₂_map_right_iff]
    exact faithful.imp fun _ _ both => both.1.name.symm
  rw [regions, ← names]
  exact @lowerItems_distinct [] _ .nil clean

/-- The text of the regions that are loaded is read back as the same regions. It can still be read
back, as what is then written the same way, once regions have been made legal any number of times. -/
theorem load_text_again {source : String} {loaded : Loaded} (h : load source = .ok loaded)
    (plain : ∀ r ∈ loaded.regions, r.Plain) :
    (∃ text again, moduleText loaded.regions = some text ∧ load text = .ok again ∧
      again.warnings = [] ∧ again.regions.map Region.bare = loaded.regions.map Region.bare) ∧
    ∀ rs, List.Forall₂ (Relation.ReflTransGen Region.MadeLegal) loaded.regions rs →
      (∀ r ∈ rs, r.nodes.size < 2 ^ 32) → ∃ text again, moduleText rs = some text ∧
        load text = .ok again ∧ again.warnings = [] ∧ moduleText again.regions = some text := by
  have readable := load_readable h
  have distinct := load_distinct h
  constructor
  · obtain ⟨text, again, written, loads, quiet, reread⟩ := reload
      (fun r hr => (readable r hr).1) (fun r hr => (readable r hr).2.2.1)
      (fun r hr => (readable r hr).2.2.2) plain distinct
    refine ⟨text, again, written, loads, quiet, ?_⟩
    have restored := (List.forall₂_and_left _ _).mpr ⟨fun r hr => (readable r hr).2.1, reread⟩
    rw [eq_comm, ← List.forall₂_eq_eq_eq, List.forall₂_map_left_iff, List.forall₂_map_right_iff]
    exact restored.imp fun r q both => (both.2.same both.1).symm
  · intro rs steps small
    have lasting : List.Forall₂ (fun out r => Region.Lasting out (Region.name r)) rs loaded.regions := by
      have start : ∀ r ∈ loaded.regions, r.Lasting r.name := fun r hr =>
        ⟨(readable r hr).1, (readable r hr).2.2.1, plain r hr, rfl, fun _ => (readable r hr).2.2.2⟩
      exact .flip (((List.forall₂_and_left _ _).mpr ⟨start, steps⟩).imp fun r out both =>
        both.1.steps both.2)
    have each : ∀ r ∈ rs, ∃ name, r.Lasting name := by
      intro r hr
      obtain ⟨i, hi, rfl⟩ := List.mem_iff_getElem.mp hr
      exact ⟨_, lasting.get hi (lasting.length_eq ▸ hi)⟩
    have names : rs.map Region.name = loaded.regions.map Region.name := by
      rw [← List.forall₂_eq_eq_eq, List.forall₂_map_left_iff, List.forall₂_map_right_iff]
      exact lasting.imp fun _ _ lasting => lasting.named
    have wf : ∀ r ∈ rs, r.WellFormed := fun r hr => (each r hr).choose_spec.wf
    obtain ⟨text, again, written, loads, quiet, reread⟩ := reload wf
      (fun r hr => (each r hr).choose_spec.readable)
      (fun r hr => (each r hr).choose_spec.leveled (small r hr))
      (fun r hr => (each r hr).choose_spec.plain) (names ▸ distinct)
    exact ⟨text, again, written, loads, quiet,
      (moduleText_reread wf (load_wellFormed loads) reread).trans written⟩

/-- A source text with results of one name, which is the name that an inserted value would have. -/
def renamedSource : String :=
  "func @k(%s: tensor<1xi1>) attributes \x7bnote = \"\\\"\\\\\"\x7d \x7b
    %fwd0, %fwd0 = op \"x y\"(%s) : i1, tensor<1xi1>
    %b = op \"x\"(%fwd0) : tensor<1xi1>
    op \"x\"(%fwd0, %b)
    for %i = -9223372036854775808 to 9223372036854775807 \x7b
    \x7d
  \x7d"

theorem load_text_again_renamed : ∃ loaded r out, load renamedSource = .ok loaded ∧
    loaded.regions = [r] ∧ r.MadeLegal out ∧ r.body.length < out.body.length ∧
    (∃ text again, moduleText [r] = some text ∧ load text = .ok again ∧
      again.warnings = [] ∧ again.regions.map Region.bare = [r.bare]) ∧
    ∃ text again, moduleText [out] = some text ∧ load text = .ok again ∧
      again.warnings = [] ∧ moduleText again.regions = some text := by
  obtain ⟨loaded, hload, r, hr, report, out, hlegal, tests⟩ :=
    @exists_of_anyLegalized renamedSource _ (by rfl) ⟨true, 1⟩
      (fun r out => r.Plain ∧ r.body.length < out.body.length ∧ out.nodes.size < 2 ^ 32)
      (by decide +kernel)
  obtain ⟨plain, more, small⟩ := of_decide_eq_true tests
  obtain ⟨again, hagain, count⟩ := @exists_of_anyLoaded renamedSource _ (by rfl)
    (fun rs => rs.length = 1) (by decide +kernel)
  obtain rfl : loaded = again := Except.ok.inj (hload.symm.trans hagain)
  obtain ⟨r', one⟩ := List.length_eq_one_iff.mp (of_decide_eq_true count)
  obtain rfl : r = r' := by simpa [one] using hr
  have legal : r.MadeLegal out := ⟨_, _, hlegal⟩
  obtain ⟨same, after⟩ := load_text_again hload (by simpa [one] using plain)
  rw [one] at same after
  exact ⟨loaded, r, out, hload, one, legal, more, same,
    after [out] (.cons (.single legal) .nil) (by simpa using small)⟩

end Staging
