import Staging.Proofs.Bare
import Staging.Proofs.Layout
import Staging.Proofs.Printed

namespace Staging

/-- The name of a value, or nothing for an unknown one. -/
def Region.nameOf (r : Region) (v : ValueId) : String :=
  ((r.value? v).map Value.name).getD ""

def Region.typeOf (r : Region) (v : ValueId) : ValueType :=
  ((r.value? v).map Value.type).getD (.scalar "")

def Region.nameExpr (r : Region) (v : ValueId) : Name :=
  ⟨r.nameOf v, default⟩

def ValueType.expr : ValueType → TypeExpr
  | .scalar name => .named ⟨name, default⟩
  | .shaped shape => .shaped shape default

def Region.typeExpr (r : Region) (v : ValueId) : TypeExpr :=
  (r.typeOf v).expr

/-- The type of the first result of a node. -/
def Region.resultExpr (r : Region) (node : Node) : TypeExpr :=
  (node.results.head?.map r.typeExpr).getD (.named ⟨"", default⟩)

def Region.operandExpr (r : Region) (node : Node) (i : Nat) : Name :=
  (node.operands[i]?.map r.nameExpr).getD ⟨"", default⟩

def attrEntry (entry : String × Attr) : AttrEntry :=
  ⟨⟨entry.1, default⟩, entry.2, default⟩

/-- The operation that a node is written as, unless it is a loop. -/
def Region.opOf (r : Region) (node : Node) : Op :=
  match node.kind with
  | .alloc stack => .alloc stack (r.resultExpr node)
  | .constant value => .constant value (r.resultExpr node)
  | .convert conversion => .convert conversion (r.operandExpr node 0) (r.resultExpr node)
  | .ret | .loop .. => .ret (node.operands.map r.nameExpr)
  | .compute name => .compute name (node.operands.map r.nameExpr) (node.results.map r.typeExpr)
  | .load => .load (r.operandExpr node 0) (r.resultExpr node)
  | .store => .store (r.operandExpr node 0) (r.operandExpr node 1)
  | .copy => .copy (node.operands.map r.nameExpr) (node.results.head?.map r.typeExpr)

/-- The statement that a node is written as, with what is nested in it less than `depth` deep. -/
def Region.stmtOf (r : Region) : Nat → NodeId → Stmt
  | 0, _ => .op [] (.ret []) [] default
  | depth + 1, n =>
    match r.node? n with
    | none => .op [] (.ret []) [] default
    | some node =>
      match node.kind with
      | .loop iv lower upper body =>
        .loop (node.results.map r.nameExpr) (r.nameExpr iv) lower upper (body.map (r.stmtOf depth))
          (node.writtenAttrs.map attrEntry) default
      | _ => .op (node.results.map r.nameExpr) (r.opOf node) (node.writtenAttrs.map attrEntry) default

/-- The function that a region is written as. -/
def Region.func (r : Region) : Func :=
  ⟨⟨r.name, default⟩, r.args.map fun v => ⟨r.nameExpr v, r.typeExpr v⟩,
    r.writtenAttrs.map attrEntry, r.body.map (r.stmtOf r.nodes.size), default⟩

theorem NodeKind.eq_loop {kind : NodeKind} (loop : kind.isLoop = true) :
    ∃ iv lower upper body, kind = .loop iv lower upper body := by
  cases kind <;> simp_all [NodeKind.isLoop]

theorem NodeKind.body_eq_nil {kind : NodeKind} (noLoop : kind.isLoop = false) : kind.body = [] := by
  cases kind <;> simp_all [NodeKind.isLoop, NodeKind.body]

theorem Region.stmtOf_loop {r : Region} {n : NodeId} {node : Node} (hnode : r.node? n = some node)
    {iv : ValueId} {lower upper : Int} {body : List NodeId}
    (hk : node.kind = .loop iv lower upper body) (depth : Nat) : r.stmtOf (depth + 1) n =
      .loop (node.results.map r.nameExpr) (r.nameExpr iv) lower upper (body.map (r.stmtOf depth))
        (node.writtenAttrs.map attrEntry) default := by
  simp only [stmtOf, hnode, hk]

theorem Region.stmtOf_op {r : Region} {n : NodeId} {node : Node} (hnode : r.node? n = some node)
    (noLoop : node.kind.isLoop = false) (depth : Nat) : r.stmtOf (depth + 1) n =
      .op (node.results.map r.nameExpr) (r.opOf node) (node.writtenAttrs.map attrEntry) default := by
  simp only [stmtOf, hnode]
  split
  next hk => simp [hk, NodeKind.isLoop] at noLoop
  next => rfl

/-- A text is there, and it consists of some lexemes. -/
def Says (text : Option String) (ls : List Lexeme) : Prop :=
  ∃ t, text = some t ∧ t.toList = spell ls

section Says

variable {r : Region} {α : Type}

theorem spells_of_mapM {f : α → Option String} {g : α → List Lexeme} {l : List α}
    (h : ∀ a ∈ l, Says (f a) (g a)) :
    ∃ ts, l.mapM f = some ts ∧ ts.map String.toList = l.map fun a => spell (g a) := by
  induction l with
  | nil => exact ⟨[], rfl, rfl⟩
  | cons a l ih =>
    obtain ⟨t, ht, text⟩ := h a (by simp)
    obtain ⟨ts, hts, texts⟩ := ih fun b hb => h b (by simp [hb])
    exact ⟨t :: ts, by simp [ht, hts], by simp [text, texts]⟩

theorem spell_commas (items : List (List Lexeme)) :
    spell (commas items) = List.intercalate [',', ' '] (items.map spell) := by
  induction items with
  | nil => rfl
  | cons item items ih =>
    cases items with
    | nil => simp [commas]
    | cons next items =>
      rw [commas] at ih ⊢
      rw [List.intercalate_cons_cons, spell_append, spell_append, ih]
      simp [List.intercalate_cons_cons, Lexeme.mark, Lexeme.spelled, Token.spelled, Mark.char]

theorem toList_commas (ts : List String) (items : List (List Lexeme))
    (h : ts.map String.toList = items.map spell) :
    (String.intercalate ", " ts).toList = spell (commas items) := by
  rw [String.toList_intercalate, h, spell_commas]
  rfl

theorem spell_margin (depth : Nat) : (indent depth).toList = spell (margin depth) := by
  rw [indent, String.toList_join, margin, Nat.mul_comm]
  induction depth with
  | zero => rfl
  | succ depth ih =>
    rw [List.replicate_succ, List.flatMap_cons, ih, Nat.succ_mul, List.replicate_succ,
      List.replicate_succ]
    simp [Lexeme.spelled]

theorem spell_type (t : ValueType) : t.text.toList = spell [.token t.expr.token] := by
  cases t <;> simp [ValueType.text, ValueType.expr, TypeExpr.token, Lexeme.spelled, Token.spelled]

theorem spell_attr (a : Attr) : a.written.toList = spell [.token a.token] := by
  cases a with
  | int v => simp [Attr.written, Attr.token, Lexeme.spelled, Token.spelled]
  | text s => simp [Attr.written, Attr.token, Lexeme.spelled, Token.spelled]
  | bool b =>
    cases b <;>
      simp [Attr.written, boolText, Attr.token, Lexeme.spelled, Token.spelled, Keyword.text]

theorem spell_attrText (entry : String × Attr) :
    (attrText entry).toList = spell (attrEntry entry).lexemes := by
  have value := spell_attr entry.2
  simp only [spell_cons, spell_nil, List.append_nil] at value
  simp [attrText, attrEntry, AttrEntry.lexemes, value, Lexeme.mark, Lexeme.spelled, Token.spelled,
    Mark.char]

theorem spell_attrs (attrs : Attrs) :
    (attrsText attrs).toList = spell (attrLexemes (attrs.map attrEntry)) := by
  unfold attrsText attrLexemes
  by_cases none : attrs = []
  · subst none
    rfl
  · have entries : (attrs.map attrText).map String.toList =
        ((attrs.map attrEntry).map AttrEntry.lexemes).map spell := by
      simp [Function.comp_def, spell_attrText]
    rw [if_neg (by simpa using none), if_neg (by simpa using none)]
    simp only [String.toList_append, toList_commas _ _ entries]
    simp [Lexeme.mark, Lexeme.spelled, Token.spelled, Mark.char]

theorem Region.valueText_spells {v : ValueId} (known : v.index < r.values.size) :
    Says (r.valueText v) [(r.nameExpr v).lexeme] := by
  obtain ⟨value, hv⟩ := value?_eq_some known
  exact ⟨"%" ++ value.name, by simp [valueText, hv],
    by simp [nameExpr, nameOf, hv, Name.lexeme, Lexeme.spelled, Token.spelled]⟩

theorem Region.valuesText_spells {vs : List ValueId} (known : ∀ v ∈ vs, v.index < r.values.size) :
    Says (r.valuesText vs) (valueLexemes (vs.map r.nameExpr)) := by
  obtain ⟨ts, hts, texts⟩ := spells_of_mapM fun v hv => valueText_spells (known v hv)
  refine ⟨String.intercalate ", " ts, by simp [valuesText, hts], ?_⟩
  rw [valueLexemes]
  exact toList_commas _ _ (by simpa [Function.comp_def] using texts)

theorem Region.typeText_spells {v : ValueId} (known : v.index < r.values.size) :
    Says (r.typeText v) [.token (r.typeExpr v).token] := by
  obtain ⟨value, hv⟩ := value?_eq_some known
  exact ⟨value.type.text, by simp [typeText, hv],
    by simpa [typeExpr, typeOf, hv] using spell_type value.type⟩

theorem Region.resultTypeText_spells {node : Node} (one : node.results.length = 1)
    (known : ∀ v ∈ node.results, v.index < r.values.size) :
    Says (r.resultTypeText node) [.token (r.resultExpr node).token] := by
  obtain ⟨v, hv⟩ := List.length_eq_one_iff.mp one
  have text := typeText_spells (known v (by simp [hv]))
  simpa [resultTypeText, resultExpr, hv] using text

theorem Region.resultsText_spells {node : Node}
    (known : ∀ v ∈ node.results, v.index < r.values.size) :
    Says (r.resultsText node) (resultLexemes (node.results.map r.nameExpr)) := by
  obtain ⟨t, ht, text⟩ := valuesText_spells known
  cases hr : node.results with
  | nil => exact ⟨"", by simp [resultsText, hr], rfl⟩
  | cons v vs =>
    rw [hr] at ht text
    refine ⟨t ++ " = ", by simp [resultsText, hr, ht], ?_⟩
    rw [resultLexemes, if_neg (by simp), spell_append, ← text]
    simp [Lexeme.mark, Lexeme.spelled, Token.spelled, Mark.char]

theorem Region.operandExpr_of {node : Node} {i : Nat} {v : ValueId} (h : node.operands[i]? = some v) :
    r.operandExpr node i = r.nameExpr v := by
  simp [operandExpr, h]

/-- An operation is written as its syntax tree is. -/
theorem Region.opText_spells {node : Node} (noLoop : node.kind.isLoop = false)
    (fits : node.kind.Fits node.operands.length node.results.length)
    (operands : ∀ v ∈ node.operands, v.index < r.values.size)
    (results : ∀ v ∈ node.results, v.index < r.values.size) :
    Says (r.opText node) (r.opOf node).lexemes := by
  obtain ⟨ops, hops, opsText⟩ := valuesText_spells operands
  have type (one : node.results.length = 1) := resultTypeText_spells one results
  have single {op : Name} (one : node.operands.length = 1) (h : r.operandExpr node 0 = op) :
      valueLexemes (node.operands.map r.nameExpr) = [op.lexeme] := by
    obtain ⟨v, hv⟩ := List.length_eq_one_iff.mp one
    rw [operandExpr_of (v := v) (by simp [hv])] at h
    simp [hv, h, valueLexemes, commas]
  unfold opText opOf
  cases hk : node.kind with
  | alloc stack =>
    obtain ⟨t, ht, text⟩ := type (hk ▸ fits : (NodeKind.alloc stack).Fits _ _).2
    refine ⟨_, by simp [ht]; rfl, ?_⟩
    simp only [spell_cons, spell_nil, List.append_nil] at text
    cases stack <;> simp [NodeKind.mnemonic, Op.lexemes, typeLexemes, commas, text, Lexeme.word,
      Lexeme.mark, Lexeme.spelled, Token.spelled, Keyword.text, Mark.char]
  | constant value =>
    obtain ⟨t, ht, text⟩ := type (hk ▸ fits : (NodeKind.constant value).Fits _ _).2
    refine ⟨_, by simp [ht]; rfl, ?_⟩
    simp only [spell_cons, spell_nil, List.append_nil] at text
    simp [Op.lexemes, typeLexemes, commas, text, Lexeme.word, Lexeme.mark, Lexeme.spelled,
      Token.spelled, Keyword.text, Mark.char]
  | convert conversion =>
    obtain ⟨one, result⟩ := (hk ▸ fits : (NodeKind.convert conversion).Fits _ _)
    obtain ⟨t, ht, text⟩ := type result
    refine ⟨_, by simp [ht, hops]; rfl, ?_⟩
    simp only [single one rfl, spell_cons, spell_nil, List.append_nil] at text opsText
    cases conversion <;> simp [Conversion.mnemonic, Conversion.keyword, Op.lexemes, typeLexemes,
      commas, text, opsText, Lexeme.word, Lexeme.mark, Lexeme.spelled, Token.spelled, Keyword.text,
      Mark.char]
  | load =>
    obtain ⟨one, result⟩ := (hk ▸ fits : NodeKind.load.Fits _ _)
    obtain ⟨t, ht, text⟩ := type result
    refine ⟨_, by simp [ht, hops]; rfl, ?_⟩
    simp only [single one rfl, spell_cons, spell_nil, List.append_nil] at text opsText
    simp [Op.lexemes, typeLexemes, commas, text, opsText, Lexeme.word, Lexeme.mark, Lexeme.spelled,
      Token.spelled, Keyword.text, Mark.char]
  | ret =>
    refine ⟨_, by simp [hops]; rfl, ?_⟩
    by_cases none : node.operands = [] <;>
      simp [Op.lexemes, none, opsText, Lexeme.word, Lexeme.spelled, Token.spelled, Keyword.text]
  | compute name =>
    obtain ⟨types, htypes, texts⟩ := spells_of_mapM fun v hv => typeText_spells (results v hv)
    refine ⟨_, by simp [hops, htypes]; rfl, ?_⟩
    have list := toList_commas types
      ((node.results.map r.typeExpr).map fun t => [.token t.token])
      (by simpa [Function.comp_def] using texts)
    by_cases none : node.results = [] <;>
      simp [Op.lexemes, typeLexemes, none, opsText, list, Lexeme.word, Lexeme.mark, Lexeme.spelled,
        Token.spelled, Keyword.text, Mark.char]
  | store =>
    obtain ⟨two, -⟩ := (hk ▸ fits : NodeKind.store.Fits _ _)
    obtain ⟨v, m, hv⟩ := List.length_eq_two.mp two
    refine ⟨_, by simp [hops]; rfl, ?_⟩
    rw [operandExpr_of (v := v) (by simp [hv]), operandExpr_of (v := m) (by simp [hv])]
    rw [hv] at opsText
    simp only [List.map_cons, List.map_nil] at opsText
    simp [Op.lexemes, opsText, Lexeme.word, Lexeme.spelled, Token.spelled, Keyword.text]
  | copy =>
    rcases (hk ▸ fits : NodeKind.copy.Fits _ _) with ⟨_, none⟩ | ⟨_, one⟩
    · have none := List.length_eq_zero_iff.mp none
      refine ⟨"copy " ++ ops, by simp [hops, none], ?_⟩
      simp [Op.lexemes, none, opsText, Lexeme.word, Lexeme.spelled, Token.spelled, Keyword.text]
    · obtain ⟨t, ht, text⟩ := type one
      obtain ⟨v, hv⟩ := List.length_eq_one_iff.mp one
      refine ⟨"copy " ++ ops ++ " : " ++ t, by simp [hops, ht, hv], ?_⟩
      simp only [resultExpr, hv, List.head?_cons, Option.map_some, Option.getD_some, spell_cons,
        spell_nil, List.append_nil] at text
      simp [Op.lexemes, typeLexemes, commas, hv, opsText, text, Lexeme.word, Lexeme.mark,
        Lexeme.spelled, Token.spelled, Keyword.text, Mark.char]
  | loop iv lower upper body => simp [hk, NodeKind.isLoop] at noLoop

theorem spell_flatten (lines : List (List Lexeme)) :
    spell lines.flatten = (lines.map spell).flatten := by
  induction lines with
  | nil => rfl
  | cons line lines ih => simp [ih]

theorem toList_join {ts : List String} (lines : List (List Lexeme))
    (h : ts.map String.toList = lines.map spell) :
    (String.join ts).toList = spell lines.flatten := by
  rw [String.toList_join, List.flatMap_def, h, spell_flatten]

theorem blockLexemes_eq (depth : Nat) (stmts : List Stmt) : blockLexemes depth stmts =
    (stmts.map fun stmt => stmt.lexemes depth ++ [.lines 0]).flatten := by
  induction stmts with
  | nil => rfl
  | cons stmt stmts ih => simp [blockLexemes, ih]

/-- The head of a loop is written up to the first line of its body. -/
theorem Region.loopText_spells {node : Node} {iv : ValueId} {lower upper : Int} {body : List NodeId}
    (hk : node.kind = .loop iv lower upper body) (known : iv.index < r.values.size) :
    Says (r.opText node) [.word .loop, .space, (r.nameExpr iv).lexeme, .space, .mark .equals, .space,
      .token (.int lower), .space, .word .upTo, .space, .token (.int upper), .space,
      .mark .lbrace, .lines 0] := by
  obtain ⟨t, ht, text⟩ := valueText_spells known
  refine ⟨_, by simp [opText, hk, ht]; rfl, ?_⟩
  simp only [spell_cons, spell_nil, List.append_nil] at text
  simp [text, Lexeme.word, Lexeme.mark, Lexeme.spelled, Token.spelled, Keyword.text, Mark.char]

theorem spell_close (loop : Bool) (depth : Nat) :
    (if loop then indent depth ++ "\x7d" else "").toList =
      spell (if loop then margin depth ++ [.mark .rbrace] else []) := by
  cases loop with
  | true => simp [spell_margin, Lexeme.mark, Lexeme.spelled, Token.spelled, Mark.char]
  | false => rfl

/-- The lines of a node, from those of its parts. -/
theorem Region.nodeText_of_parts {n : NodeId} {node : Node} (hnode : r.node? n = some node)
    {head op inside : List Lexeme} (hhead : Says (r.resultsText node) head)
    (hop : Says (r.opText node) op) {depth edge : Nat} {lines : List String}
    (hlines : node.kind.body.mapM (r.nodeText depth (edge + 1)) = some lines)
    (hinside : (String.join lines).toList = spell inside) :
    Says (r.nodeText (depth + 1) edge n) (margin edge ++ head ++ op ++ inside ++
      (if node.kind.isLoop then margin edge ++ [.mark .rbrace] else []) ++
        attrLexemes (node.writtenAttrs.map attrEntry) ++ [.lines 0]) := by
  obtain ⟨headText, hhead, heads⟩ := hhead
  obtain ⟨opText, hop, ops⟩ := hop
  have line : "\n".toList = spell [.lines 0] := rfl
  refine ⟨indent edge ++ headText ++ opText ++ String.join lines ++
    (if node.kind.isLoop then indent edge ++ "\x7d" else "") ++ attrsText node.writtenAttrs ++ "\n",
    by simp [nodeText, hnode, hhead, hop, hlines], ?_⟩
  simp only [String.toList_append, spell_append, spell_margin edge, spell_close, heads, ops, hinside,
    spell_attrs, line]

/-- The nodes of a block that is scoped are written as their syntax trees are. -/
theorem Region.Scoped.nodeText_spells (coherent : r.Coherent) {visible : List ValueId}
    {ns : List NodeId} (h : r.Scoped visible ns) (known : ∀ n ∈ ns, n.index < r.nodes.size)
    (values : ∀ v ∈ visible, v.index < r.values.size) (depth : Nat)
    (deep : ∀ n ∈ ns, r.nodes.size ≤ n.index + depth) (edge : Nat) :
    ∀ n ∈ ns, Says (r.nodeText depth edge n) ((r.stmtOf depth n).lexemes edge ++ [.lines 0]) := by
  induction h generalizing depth edge with
  | nil => simp
  | @cons visible n ns hops _ _ ihInside ihRest =>
    have results : ∀ v ∈ r.results n, v.index < r.values.size := fun v hv =>
      coherent.result_known hv
    intro m hm
    rcases List.mem_cons.mp hm with rfl | hm
    · have low := known m (by simp)
      have high := deep m (by simp)
      obtain ⟨depth, rfl⟩ : ∃ d, depth = d + 1 := ⟨depth - 1, by omega⟩
      obtain ⟨node, hnode⟩ := node?_eq_some low
      have ivs : ∀ v ∈ r.ivs m, v.index < r.values.size := fun v hv =>
        known_of_definition? (coherent.ivDefined m v hv)
      have operands' : r.operands m = node.operands := by simp [Region.operands, hnode]
      have results' : r.results m = node.results := by simp [Region.results, hnode]
      have body' : r.bodyOf m = node.kind.body := by simp [bodyOf, kind?, hnode]
      have head := resultsText_spells fun v hv => results v (results' ▸ hv)
      obtain ⟨lines, hlines, texts⟩ := spells_of_mapM (ihInside (fun c hc => coherent.childKnown m c hc)
        (fun v hv => (List.mem_append.mp hv).elim (ivs v) (values v)) depth
        (fun c hc => by have := coherent.childDeeper m c hc; omega) (edge + 1))
      have inside := toList_join (((r.bodyOf m).map (r.stmtOf depth)).map fun stmt =>
        stmt.lexemes (edge + 1) ++ [.lines 0]) (by simpa [Function.comp_def] using texts)
      rw [← blockLexemes_eq, body'] at inside
      rw [body'] at hlines
      by_cases loop : node.kind.isLoop = true
      · obtain ⟨iv, lower, upper, body, hk⟩ := NodeKind.eq_loop loop
        have knownIv : iv.index < r.values.size :=
          ivs iv (by simp [Region.ivs, kind?, hnode, hk, NodeKind.inductionVar?])
        have whole := nodeText_of_parts hnode head (loopText_spells hk knownIv) hlines inside
        rw [if_pos loop, hk] at whole
        simpa [stmtOf_loop hnode hk, Stmt.lexemes, NodeKind.body] using whole
      · have noLoop : node.kind.isLoop = false := by simpa using loop
        have op := opText_spells noLoop (coherent.fits m node hnode)
          (fun v hv => values v (hops v (operands' ▸ hv))) (fun v hv => results v (results' ▸ hv))
        have whole := nodeText_of_parts hnode head op hlines inside
        rw [if_neg loop, NodeKind.body_eq_nil noLoop] at whole
        simpa [stmtOf_op hnode noLoop, Stmt.lexemes, blockLexemes] using whole
    · exact ihRest (fun c hc => known c (by simp [hc]))
        (fun v hv => (List.mem_append.mp hv).elim (results v) (values v)) depth
        (fun c hc => deep c (by simp [hc])) edge m hm

theorem Region.argText_spells {v : ValueId} (known : v.index < r.values.size) :
    Says (r.argText v) (ArgDecl.lexemes ⟨r.nameExpr v, r.typeExpr v⟩) := by
  obtain ⟨value, hv⟩ := value?_eq_some known
  have type := spell_type value.type
  simp only [spell_cons, spell_nil, List.append_nil] at type
  refine ⟨"%" ++ value.name ++ ": " ++ value.type.text, by simp [argText, hv], ?_⟩
  simp [ArgDecl.lexemes, typeExpr, typeOf, nameExpr, nameOf, hv, type, Name.lexeme, Lexeme.mark,
    Lexeme.spelled, Token.spelled, Mark.char]

theorem spell_funcAttrs (attrs : Attrs) :
    (if attrs.isEmpty then "" else " attributes" ++ attrsText attrs).toList =
      spell (if (attrs.map attrEntry).isEmpty then []
        else [.space, .word .attributes] ++ attrLexemes (attrs.map attrEntry)) := by
  by_cases none : attrs = []
  · subst none
    rfl
  · have text := spell_attrs attrs
    simp [none, text, Lexeme.word, Lexeme.spelled, Token.spelled, Keyword.text]

/-- A well-formed region is written as its syntax tree is. -/
theorem Region.WellFormed.text_spells (wf : r.WellFormed) :
    Says r.text (r.func.lexemes ++ [.lines 0]) := by
  have known : ∀ v ∈ r.args, v.index < r.values.size := by
    intro v hv
    obtain ⟨i, hi⟩ := wf.sound.arg_defined hv
    exact known_of_definition? hi
  obtain ⟨args, hargs, argTexts⟩ := spells_of_mapM fun v hv => argText_spells (known v hv)
  have list := toList_commas args (r.func.args.map ArgDecl.lexemes)
    (by simpa [func, Function.comp_def] using argTexts)
  obtain ⟨lines, hlines, texts⟩ := spells_of_mapM (wf.inScope.nodeText_spells wf.toCoherent
    wf.bodyKnown known r.nodes.size (fun n _ => by omega) 1)
  have body := toList_join (r.func.body.map fun stmt => stmt.lexemes 1 ++ [.lines 0])
    (by simpa [func, Function.comp_def] using texts)
  rw [← blockLexemes_eq] at body
  have attrs := spell_funcAttrs r.writtenAttrs
  have start : ("func @" ++ r.name ++ "(").toList =
      spell [.word .func, .space, .token (.symbol r.name), .mark .lparen] := by
    simp [Lexeme.word, Lexeme.mark, Lexeme.spelled, Token.spelled, Keyword.text, Mark.char]
  have opening : " \x7b\n".toList = spell [.space, .mark .lbrace, .lines 0] := rfl
  have closing : "\x7d\n".toList = spell [.mark .rbrace, .lines 0] := rfl
  have bracket : ")".toList = spell [.mark .rparen] := rfl
  refine ⟨"func @" ++ r.name ++ "(" ++ String.intercalate ", " args ++ ")" ++
    (if r.writtenAttrs.isEmpty then "" else " attributes" ++ attrsText r.writtenAttrs) ++ " \x7b\n" ++
    String.join lines ++ "\x7d\n", by simp [text, hargs, hlines], ?_⟩
  simp only [String.toList_append] at start ⊢
  rw [start, list, bracket, attrs, opening, body, closing]
  simp [Func.lexemes, func]

/-- Several regions are written as their syntax trees are. -/
theorem moduleText_spells {rs : List Region} (wf : ∀ r ∈ rs, r.WellFormed) :
    Says (moduleText rs) (funcsLexemes (rs.map Region.func)) := by
  obtain ⟨ts, hts, texts⟩ := spells_of_mapM fun r hr => (wf r hr).text_spells
  refine ⟨String.intercalate "\n" ts, by simp [moduleText, hts], ?_⟩
  rw [String.toList_intercalate, texts]
  clear hts texts wf
  induction rs with
  | nil => rfl
  | cons r rs ih =>
    cases rs with
    | nil => simp [funcsLexemes]
    | cons s rs =>
      simp only [List.map_cons, List.intercalate_cons_cons] at ih ⊢
      rw [ih]
      simp [funcsLexemes, Lexeme.spelled, List.replicate_succ]

end Says

end Staging
