import Staging.Proofs.Blocks

namespace Staging

/-- A call that builds a region or changes it. -/
inductive Call where
  | addArg (name : String) (type : ValueType)
  | addNode (kind : NodeKind) (operands : List ValueId) (results : List (Option String × ValueType))
      (span : Span)
  | addLoop (iv : Option String) (lower upper : Int) (span : Span)
  | append (parent : Option NodeId) (n : NodeId)
  | insertAt (parent : Option NodeId) (index : Nat) (n : NodeId)
  | insertBefore (anchor n : NodeId)
  | moveBefore (n anchor : NodeId)
  | replaceUses (old new : ValueId) (scope : NodeId)
  | clearLevels

/-- What a call answers. -/
inductive Answer where
  | value (v : ValueId)
  | node (n : NodeId)
  | done (b : Bool)
  | count (k : Nat)
  | nothing

def Call.perform (r : Region) : Call → Option (Answer × Region)
  | .addArg name type => some (.value (r.addArg name type).1, (r.addArg name type).2)
  | .addNode kind operands results span =>
    some (.node (r.addNode kind operands results span).1, (r.addNode kind operands results span).2)
  | .addLoop iv lower upper span =>
    some (.node (r.addLoop iv lower upper span).1, (r.addLoop iv lower upper span).2)
  | .append parent n => (r.append parent n).map fun (s, b) => (.done b, s)
  | .insertAt parent index n => (r.insertAt parent index n).map fun (s, b) => (.done b, s)
  | .insertBefore anchor n => (r.insertBefore anchor n).map fun (s, b) => (.done b, s)
  | .moveBefore n anchor => (r.moveBefore n anchor).map fun (s, b) => (.done b, s)
  | .replaceUses old new scope => (r.replaceUses old new scope).map fun (s, k) => (.count k, s)
  | .clearLevels => some (.nothing, r.clearLevels)

/-- What is asked of the caller: only a node that is in no block is put into one, and into none that
is within it. -/
def Call.Allowed (r : Region) : Call → Prop
  | .append parent n => r.Takes parent n
  | .insertAt parent _ n => r.Takes parent n
  | .insertBefore anchor n => r.Takes (r.parent? anchor) n
  | _ => True

/-- If a call creates a node, there is nothing in it. -/
def Call.Hollow : Call → Prop
  | .addNode kind .. => kind.body = []
  | _ => True

/-- All nodes that a call names are there. -/
def Call.Known (r : Region) : Call → Prop
  | .append parent n => (∀ p, parent = some p → p.index < r.nodes.size) ∧ n.index < r.nodes.size
  | .insertAt parent _ n =>
    (∀ p, parent = some p → p.index < r.nodes.size) ∧ n.index < r.nodes.size
  | .insertBefore anchor n => anchor.index < r.nodes.size ∧ n.index < r.nodes.size
  | .moveBefore n anchor => n.index < r.nodes.size ∧ anchor.index < r.nodes.size
  | .replaceUses _ _ scope => scope.index < r.nodes.size
  | _ => True

/-- How many nodes a call creates. -/
def Call.newNodes : Call → Nat
  | .addNode .. | .addLoop .. => 1
  | _ => 0

/-- How many values a call creates. -/
def Call.newValues : Call → Nat
  | .addArg .. | .addLoop .. => 1
  | .addNode _ _ results _ => results.length
  | _ => 0

section Perform

variable {r s : Region} {c : Call} {answer : Answer}

/-- What a call does to the blocks. -/
inductive Region.Step (r : Region) : Region → Prop
  | same {s : Region} (h : r.SameBlocks s) : Step r s
  | gains {s : Region} (h : r.Gains s) : Step r s
  | inserts {s : Region} {block : Option NodeId} {n : NodeId} (takes : r.Takes block n)
      (h : r.Inserts block n s) : Step r s
  | moves {s : Region} {n anchor : NodeId} (h : r.Moves n anchor s) : Step r s

theorem Region.Step.refl (r : Region) : r.Step r :=
  .same ⟨rfl, fun _ => rfl, fun _ => rfl⟩

theorem Region.Tidy.step (tidy : r.Tidy) (h : r.Step s) : s.Tidy := by
  cases h with
  | same h => exact tidy.sameBlocks h
  | gains h => exact tidy.gains h
  | inserts takes h => exact tidy.inserts h takes
  | moves h => exact tidy.moves h

theorem Region.Step.of_effect {block : Option NodeId} {n : NodeId} {done : Bool}
    (takes : r.Takes block n) (h : (done = false ∧ s = r) ∨ (done = true ∧ r.Inserts block n s)) :
    r.Step s := by
  rcases h with ⟨-, rfl⟩ | ⟨-, inserts⟩
  · exact .refl s
  · exact .inserts takes inserts

/-- What has been done where a call has been answered. -/
inductive Call.Effect (r : Region) : Call → Answer → Region → Prop
  | addArg (name : String) (type : ValueType) :
    Effect r (.addArg name type) (.value (r.addArg name type).1) (r.addArg name type).2
  | addNode (kind : NodeKind) (operands : List ValueId)
      (results : List (Option String × ValueType)) (span : Span) :
    Effect r (.addNode kind operands results span) (.node (r.addNode kind operands results span).1)
      (r.addNode kind operands results span).2
  | addLoop (iv : Option String) (lower upper : Int) (span : Span) :
    Effect r (.addLoop iv lower upper span) (.node (r.addLoop iv lower upper span).1)
      (r.addLoop iv lower upper span).2
  | append {parent : Option NodeId} {n : NodeId} {done : Bool} {s : Region}
      (h : (done = false ∧ s = r) ∨ (done = true ∧ r.Inserts parent n s)) :
    Effect r (.append parent n) (.done done) s
  | insertAt {parent : Option NodeId} {index : Nat} {n : NodeId} {done : Bool} {s : Region}
      (h : (done = false ∧ s = r) ∨ (done = true ∧ r.Inserts parent n s)) :
    Effect r (.insertAt parent index n) (.done done) s
  | insertBefore {anchor n : NodeId} {done : Bool} {s : Region}
      (h : (done = false ∧ s = r) ∨ (done = true ∧ r.Inserts (r.parent? anchor) n s)) :
    Effect r (.insertBefore anchor n) (.done done) s
  | moveNowhere (n : NodeId) : Effect r (.moveBefore n n) (.done true) r
  | moveBefore {n anchor : NodeId} {done : Bool} {s : Region}
      (h : (done = false ∧ s = r) ∨ (done = true ∧ r.Moves n anchor s)) :
    Effect r (.moveBefore n anchor) (.done done) s
  | replaceUses {old new : ValueId} {scope : NodeId} {k : Nat} {s : Region}
      (blocks : r.SameBlocks s) (values : s.values = r.values) :
    Effect r (.replaceUses old new scope) (.count k) s
  | clearLevels : Effect r .clearLevels .nothing r.clearLevels

theorem Call.effect (h : c.perform r = some (answer, s)) : c.Effect r answer s := by
  cases c with
  | addArg name type =>
    cases h
    exact .addArg name type
  | addNode kind operands results span =>
    cases h
    exact .addNode kind operands results span
  | addLoop iv lower upper span =>
    cases h
    exact .addLoop iv lower upper span
  | append parent n =>
    obtain ⟨⟨t, done⟩, called, h⟩ := Option.map_eq_some_iff.mp h
    cases h
    exact .append (Region.append_effect called)
  | insertAt parent index n =>
    obtain ⟨⟨t, done⟩, called, h⟩ := Option.map_eq_some_iff.mp h
    cases h
    exact .insertAt (Region.insertAt_effect called)
  | insertBefore anchor n =>
    obtain ⟨⟨t, done⟩, called, h⟩ := Option.map_eq_some_iff.mp h
    cases h
    exact .insertBefore (Region.insertBefore_effect called)
  | moveBefore n anchor =>
    obtain ⟨⟨t, done⟩, called, h⟩ := Option.map_eq_some_iff.mp h
    cases h
    by_cases same : n = anchor
    · rw [Region.moveBefore, if_pos same] at called
      cases called
      exact same ▸ .moveNowhere n
    · exact .moveBefore (Region.moveBefore_effect same called)
  | replaceUses old new scope =>
    obtain ⟨⟨t, k⟩, called, h⟩ := Option.map_eq_some_iff.mp h
    cases h
    exact .replaceUses (Region.replaceUses_sameBlocks called) (Region.replaceUses_values called)
  | clearLevels =>
    cases h
    exact .clearLevels

theorem Call.Effect.step (h : c.Effect r answer s) (allowed : c.Allowed r) (hollow : c.Hollow) :
    r.Step s := by
  cases h with
  | addArg name type => exact .same (Region.addArg_sameBlocks name type)
  | addNode kind operands results span =>
    exact .gains (Region.addNode_gains hollow operands results span)
  | addLoop iv lower upper span => exact .gains (Region.addLoop_gains iv lower upper span)
  | append h | insertAt h | insertBefore h => exact .of_effect allowed h
  | moveNowhere n => exact .refl r
  | moveBefore h =>
    rcases h with ⟨-, rfl⟩ | ⟨-, moves⟩
    · exact .refl s
    · exact .moves moves
  | replaceUses blocks _ => exact .same blocks
  | clearLevels => exact .same Region.clearLevels_sameBlocks

/-- A call that says that nothing was done has done nothing. -/
theorem Call.Effect.unchanged (h : c.Effect r (.done false) s) : s = r := by
  cases h with
  | append h | insertAt h | insertBefore h | moveBefore h =>
    rcases h with ⟨-, same⟩ | ⟨done, -⟩
    · exact same
    · cases done

/-- A call creates as many nodes and values as it says. -/
theorem Call.Effect.sizes (h : c.Effect r answer s) :
    s.nodes.size = r.nodes.size + c.newNodes ∧ s.values.size = r.values.size + c.newValues := by
  cases h with
  | addArg name type => exact ⟨rfl, Array.size_push _⟩
  | addNode kind operands results span =>
    obtain ⟨news, made, length, -⟩ := r.addResults_eq ⟨r.nodes.size⟩ 0 results
    simp [Region.addNode, made, Region.pushNode, newNodes, newValues, length]
  | addLoop iv lower upper span => exact ⟨Array.size_push _, Array.size_push _⟩
  | append h | insertAt h | insertBefore h =>
    rcases h with ⟨-, rfl⟩ | ⟨-, inserts⟩
    · exact ⟨rfl, rfl⟩
    · exact ⟨inserts.size, congrArg Array.size inserts.values⟩
  | moveNowhere n => exact ⟨rfl, rfl⟩
  | moveBefore h =>
    rcases h with ⟨-, rfl⟩ | ⟨-, moves⟩
    · exact ⟨rfl, rfl⟩
    · exact ⟨moves.size, congrArg Array.size moves.values⟩
  | replaceUses blocks values => exact ⟨blocks.size, congrArg Array.size values⟩
  | clearLevels => exact ⟨Region.clearLevels_sameBlocks.size, rfl⟩

theorem Region.exists_attach {block : Option NodeId} {n : NodeId}
    (place : List NodeId → Option (List NodeId))
    (block_known : ∀ p, block = some p → p.index < r.nodes.size) (known : n.index < r.nodes.size) :
    ∃ state, r.attach block n place = some state := by
  obtain ⟨node, hn⟩ := node?_eq_some known
  have held : ∃ ns, r.block? block = some ns := by
    cases block with
    | none => exact ⟨r.body, rfl⟩
    | some p =>
      obtain ⟨owner, hp⟩ := node?_eq_some (block_known p rfl)
      exact ⟨owner.kind.body, by simp [block?, kind?, hp]⟩
  have holds : ∃ b, r.hasBlock? block = some b := by
    cases block with
    | none => exact ⟨true, rfl⟩
    | some p =>
      obtain ⟨owner, hp⟩ := node?_eq_some (block_known p rfl)
      exact ⟨owner.kind.isLoop, by simp [hasBlock?, kind?, hp]⟩
  obtain ⟨ns, hns⟩ := held
  obtain ⟨b, hb⟩ := holds
  unfold attach
  simp only [hns, hb, hn, bind, Option.bind]
  split
  next => exact ⟨_, rfl⟩
  next => exact ⟨_, rfl⟩

theorem Region.Tidy.block_known (tidy : r.Tidy) (n : NodeId) :
    ∀ p, r.parent? n = some p → p.index < r.nodes.size := by
  intro p inside
  exact child_known (tidy.held n p inside)

theorem Region.Tidy.exists_block (tidy : r.Tidy) (n : NodeId) :
    ∃ ns, r.block? (r.parent? n) = some ns := by
  cases inside : r.parent? n with
  | none => exact ⟨r.body, rfl⟩
  | some p =>
    obtain ⟨ns, hns, -⟩ := child_iff.mp (tidy.held n p inside)
    exact ⟨ns, hns⟩

theorem Region.Tidy.exists_insertBefore (tidy : r.Tidy) {anchor n : NodeId}
    (anchor_known : anchor.index < r.nodes.size) (known : n.index < r.nodes.size) :
    ∃ state, r.insertBefore anchor n = some state := by
  obtain ⟨node, hn⟩ := node?_eq_some anchor_known
  obtain ⟨ns, hns⟩ := tidy.exists_block anchor
  have parent : r.parent? anchor = node.parent := by simp [parent?, hn]
  rw [parent] at hns
  unfold insertBefore
  simp only [hn, hns, bind, Option.bind]
  split
  next => exact exists_attach _ (parent ▸ tidy.block_known anchor) known
  next => exact ⟨_, rfl⟩

theorem Region.Tidy.exists_moveBefore (tidy : r.Tidy) {n anchor : NodeId}
    (known : n.index < r.nodes.size) (anchor_known : anchor.index < r.nodes.size) :
    ∃ state, r.moveBefore n anchor = some state := by
  obtain ⟨node, hn⟩ := node?_eq_some known
  obtain ⟨target, ha⟩ := node?_eq_some anchor_known
  obtain ⟨ns, hns⟩ := tidy.exists_block n
  have parent : r.parent? n = node.parent := by simp [parent?, hn]
  rw [parent] at hns
  unfold moveBefore
  simp only [hn, ha, hns, bind, Option.bind]
  split
  next => exact ⟨_, rfl⟩
  split
  next => exact ⟨_, rfl⟩
  split
  next => exact ⟨_, rfl⟩
  next => exact ⟨_, rfl⟩

theorem Region.exists_replaceUses (old new : ValueId) {scope : NodeId}
    (known : scope.index < r.nodes.size) : ∃ state, r.replaceUses old new scope = some state := by
  obtain ⟨node, hn⟩ := node?_eq_some known
  unfold replaceUses
  simp only [hn, bind, Option.bind]
  exact ⟨_, rfl⟩

/-- Only a node with nothing in it leaves the blocks in order when it is created. What stood in it
would name another parent. -/
theorem Region.Tidy.addNode_iff (tidy : r.Tidy) (kind : NodeKind) (operands : List ValueId)
    (results : List (Option String × ValueType)) (span : Span) :
    (r.addNode kind operands results span).2.Tidy ↔ kind.body = [] := by
  refine ⟨fun tidy' => ?_, fun empty => tidy.gains (addNode_gains empty operands results span)⟩
  obtain ⟨-, block, parent⟩ := r.addNode_blocks kind operands results span
  apply List.eq_nil_iff_forall_not_mem.mpr
  intro n hn
  have own := (block (some ⟨r.nodes.size⟩)).trans (if_pos rfl)
  have inside := (parent n).symm.trans (tidy'.named _ _ own n hn)
  exact absurd (tidy.block_known n _ inside) (lt_irrefl _)

/-- A call that names only nodes that are there has an answer. -/
theorem Call.exists_answer (tidy : r.Tidy) (known : c.Known r) :
    ∃ answer s, c.perform r = some (answer, s) := by
  cases c with
  | addArg | addNode | addLoop | clearLevels => exact ⟨_, _, rfl⟩
  | append parent n =>
    obtain ⟨state, called⟩ := Region.exists_attach (fun ns => some (ns ++ [n])) known.1 known.2
    have called : r.append parent n = some state := called
    exact ⟨.done state.2, state.1, by rw [perform, called]; rfl⟩
  | insertAt parent index n =>
    obtain ⟨state, called⟩ := Region.exists_attach (fun ns =>
      if index ≤ ns.length then some (ns.insertIdx index n) else none) known.1 known.2
    have called : r.insertAt parent index n = some state := called
    exact ⟨.done state.2, state.1, by rw [perform, called]; rfl⟩
  | insertBefore anchor n =>
    obtain ⟨state, called⟩ := tidy.exists_insertBefore known.1 known.2
    exact ⟨.done state.2, state.1, by rw [perform, called]; rfl⟩
  | moveBefore n anchor =>
    obtain ⟨state, called⟩ := tidy.exists_moveBefore known.1 known.2
    exact ⟨.done state.2, state.1, by rw [perform, called]; rfl⟩
  | replaceUses old new scope =>
    obtain ⟨state, called⟩ := Region.exists_replaceUses old new known
    exact ⟨.count state.2, state.1, by rw [perform, called]; rfl⟩

end Perform

section Supply

/-- Draws identifiers for some new nodes. -/
def IdSupply.drawNodes (ids : IdSupply) : Nat → List NodeId × IdSupply
  | 0 => ([], ids)
  | k + 1 =>
    let (n, ids) := ids.nextNode
    let (ns, ids) := ids.drawNodes k
    (n :: ns, ids)

/-- Draws identifiers for some new values. -/
def IdSupply.drawValues (ids : IdSupply) : Nat → List ValueId × IdSupply
  | 0 => ([], ids)
  | k + 1 =>
    let (v, ids) := ids.nextValue
    let (vs, ids) := ids.drawValues k
    (v :: vs, ids)

theorem IdSupply.drawNodes_eq (ids : IdSupply) (k : Nat) : ids.drawNodes k =
    ((List.range' ids.nodes k).map NodeId.mk, { ids with nodes := ids.nodes + k }) := by
  induction k generalizing ids with
  | zero => rfl
  | succ k ih =>
    simp only [drawNodes, nextNode, ih, List.range'_succ]
    simp [Nat.add_assoc, Nat.add_comm 1]

theorem IdSupply.drawValues_eq (ids : IdSupply) (k : Nat) : ids.drawValues k =
    ((List.range' ids.values k).map ValueId.mk, { ids with values := ids.values + k }) := by
  induction k generalizing ids with
  | zero => rfl
  | succ k ih =>
    simp only [drawValues, nextValue, ih, List.range'_succ]
    simp [Nat.add_assoc, Nat.add_comm 1]

/-- The identifiers that come next where all are places. -/
def Region.supply (r : Region) : IdSupply :=
  ⟨r.nodes.size, r.values.size⟩

theorem Region.supply_eq {r s : Region} (nodes : s.nodes.size = r.nodes.size)
    (value : s.value? = r.value?) : s.supply = r.supply := by
  have past (i : Nat) : s.values.size ≤ i ↔ r.values.size ≤ i := by
    rw [← Array.getElem?_eq_none_iff, ← Array.getElem?_eq_none_iff]
    change s.value? ⟨i⟩ = none ↔ r.value? ⟨i⟩ = none
    rw [value]
  have low := (past s.values.size).mp le_rfl
  have high := (past r.values.size).mpr le_rfl
  rw [supply, supply, nodes, Nat.le_antisymm high low]

end Supply

/-- A region with a supply of identifiers of its own, and the identifiers that were drawn for its
nodes and values, in the order in which these are held. -/
structure Numbered where
  region : Region
  ids : IdSupply
  nodes : List NodeId
  values : List ValueId

namespace Numbered

/-- A region without nodes and values, before any identifier has been drawn. -/
def new (name : String) (span : Span) : Numbered :=
  ⟨Region.empty name span, ⟨0, 0⟩, [], []⟩

/-- A call has led to the region `s`. Identifiers are drawn for all that it creates. -/
def after (w : Numbered) (c : Call) (s : Region) : Numbered :=
  let (ns, ids) := w.ids.drawNodes c.newNodes
  let (vs, ids) := ids.drawValues c.newValues
  ⟨s, ids, w.nodes ++ ns, w.values ++ vs⟩

/-- A sequence of calls leads on from a region. Each of them is answered and does what is asked of
the caller. -/
inductive Leads : Numbered → List Call → Numbered → Prop
  | done (w : Numbered) : Leads w [] w
  | call {w w' : Numbered} {c : Call} {calls : List Call} {answer : Answer} {s : Region}
      (allowed : c.Allowed w.region) (answered : c.perform w.region = some (answer, s))
      (rest : Leads (w.after c s) calls w') : Leads w (c :: calls) w'

/-- What calls build that create only nodes with nothing in them. Levels, attributes and the mark of
the region may be set in between. -/
inductive Built : Numbered → Prop
  | new (name : String) (span : Span) : Built (new name span)
  | call {w : Numbered} {c : Call} {answer : Answer} {s : Region} (built : Built w)
      (allowed : c.Allowed w.region) (hollow : c.Hollow)
      (answered : c.perform w.region = some (answer, s)) : Built (w.after c s)
  | label {w : Numbered} {s : Region} (built : Built w) (same : w.region.SameNodes s)
      (body : s.body = w.region.body) : Built { w with region := s }

/-- Identifiers are the places at which nodes and values are held. -/
structure Numbers (w : Numbered) : Prop where
  ids : w.ids = ⟨w.region.nodes.size, w.region.values.size⟩
  nodes : w.nodes = (List.range w.region.nodes.size).map NodeId.mk
  values : w.values = (List.range w.region.values.size).map ValueId.mk

variable {w w' : Numbered} {c : Call} {calls : List Call} {answer : Answer} {s : Region}

theorem Built.leads (built : w.Built) (leads : w.Leads calls w') (hollow : ∀ c ∈ calls, c.Hollow) :
    w'.Built := by
  induction leads with
  | done => exact built
  | call allowed answered _ ih =>
    exact ih (built.call allowed (hollow _ List.mem_cons_self) answered)
      fun c hc => hollow c (List.mem_cons_of_mem _ hc)

theorem Numbers.after (numbers : w.Numbers) (h : c.perform w.region = some (answer, s)) :
    (w.after c s).Numbers := by
  obtain ⟨ids, nodes, values⟩ := numbers
  obtain ⟨moreNodes, moreValues⟩ := (Call.effect h).sizes
  have range : ∀ a b, List.range a ++ List.range' a b = List.range (a + b) := by
    intro a b
    have joined := @List.range'_append_1 0 a b
    rwa [Nat.zero_add, ← List.range_eq_range', ← List.range_eq_range'] at joined
  constructor
  · simp [Numbered.after, IdSupply.drawNodes_eq, IdSupply.drawValues_eq, ids, moreNodes, moreValues]
  · simp only [Numbered.after, IdSupply.drawNodes_eq, IdSupply.drawValues_eq, ids, nodes]
    rw [← List.map_append, moreNodes, range]
  · simp only [Numbered.after, IdSupply.drawNodes_eq, IdSupply.drawValues_eq, ids, values]
    rw [← List.map_append, moreValues, range]

theorem Numbers.label (numbers : w.Numbers) (same : w.region.SameNodes s) :
    ({ w with region := s } : Numbered).Numbers := by
  have values : s.values.size = w.region.values.size :=
    congrArg IdSupply.values (Region.supply_eq same.size same.value)
  constructor <;> simp [numbers.ids, numbers.nodes, numbers.values, same.size, values]

theorem Built.numbers (built : w.Built) : w.Numbers := by
  induction built with
  | new name span => exact ⟨rfl, rfl, rfl⟩
  | call _ _ _ answered numbers => exact numbers.after answered
  | label _ same _ numbers => exact numbers.label same

theorem tidy_new (name : String) (span : Span) : (new name span).region.Tidy := by
  have block : ∀ q ns, (Region.empty name span).block? q = some ns → ns = [] := by
    intro q ns h
    cases q with
    | none => exact (Option.some.inj h).symm
    | some p => simp [Region.block?, Region.kind?, Region.node?, Region.empty] at h
  have child : ∀ p c, ¬ (Region.empty name span).Child p c := by
    intro p c hc
    obtain ⟨ns, hns, hc⟩ := Region.child_iff.mp hc
    simp [block _ ns hns] at hc
  refine ⟨⟨fun q ns h n hn => ?_, fun q ns h => ?_, fun q ns h n hn => ?_,
    fun p c hc => absurd hc (child p c)⟩, fun n p h => ?_⟩
  · simp [block q ns h] at hn
  · rw [block q ns h]
    exact List.nodup_nil
  · simp [block q ns h] at hn
  · simp [Numbered.new, Region.parent?, Region.node?, Region.empty] at h

theorem Built.tidy (built : w.Built) : w.region.Tidy := by
  induction built with
  | new name span => exact tidy_new name span
  | call _ allowed hollow answered tidy => exact tidy.step ((Call.effect answered).step allowed hollow)
  | label _ same body tidy => exact tidy.sameBlocks (same.sameBlocks body)

/-- A call that creates a node or a value answers with the identifier that was drawn for it. -/
theorem Numbers.answer_drawn (numbers : w.Numbers) (h : c.perform w.region = some (answer, s)) :
    (∀ n, answer = .node n → (w.after c s).nodes = w.nodes ++ [n]) ∧
      ∀ v, answer = .value v → (w.after c s).values = w.values ++ [v] := by
  simp only [Numbered.after, IdSupply.drawNodes_eq, IdSupply.drawValues_eq, numbers.ids]
  cases Call.effect h with
  | addArg name type =>
    refine ⟨nofun, fun v made => ?_⟩
    cases made
    rfl
  | addNode | addLoop =>
    refine ⟨fun n made => ?_, nofun⟩
    cases made
    rfl
  | append | insertAt | insertBefore | moveNowhere | moveBefore | replaceUses | clearLevels =>
    exact ⟨nofun, nofun⟩

/-- Whatever calls lead to a region, if they create only nodes with nothing in them, its blocks form a
forest in which nodes know where they stand, identifiers are places, searching for the outermost node
around another one comes to an end, and walking the body visits once each node whose outermost one is
in the body. A call that says that nothing was done changes nothing, a move only changes the place of
the node that is moved, and a node created with something in it would spoil the forest. -/
theorem Leads.structured {name : String} {span : Span} (leads : (new name span).Leads calls w)
    (hollow : ∀ c ∈ calls, c.Hollow) :
    w.region.Tidy ∧ w.Numbers ∧
    (∀ (c : Call) answer s, c.perform w.region = some (answer, s) →
      (∀ n, answer = .node n → (w.after c s).nodes = w.nodes ++ [n]) ∧
        ∀ v, answer = .value v → (w.after c s).values = w.values ++ [v]) ∧
    (∀ n, n.index < w.region.nodes.size → w.region.Climbs n (w.region.topLevel n)) ∧
    (∀ n, n.index < w.region.nodes.size →
      w.region.walk n = n :: (w.region.bodyOf n).flatMap w.region.walk) ∧
    (w.region.attached.Nodup ∧
      (∀ n, n ∈ w.region.attached ↔ ∃ t ∈ w.region.body, w.region.Within t n) ∧
      ∀ n, n.index < w.region.nodes.size →
        (n ∈ w.region.attached ↔ w.region.topLevel n ∈ w.region.body)) ∧
    (∀ c : Call, c.Known w.region → ∃ answer s, c.perform w.region = some (answer, s)) ∧
    (∀ (c : Call) (s : Region), c.perform w.region = some (.done false, s) → s = w.region) ∧
    (∀ n anchor, w.region.moveInPlace n anchor = w.region.moveBefore n anchor) ∧
    (∀ n anchor s, n ≠ anchor → w.region.moveBefore n anchor = some (s, true) →
      w.region.Moves n anchor s) ∧
    ∀ kind operands results span,
      (w.region.addNode kind operands results span).2.Tidy ↔ kind.body = [] := by
  have built := (Built.new name span).leads leads hollow
  have tidy := built.tidy
  refine ⟨tidy, built.numbers, fun c answer s h => built.numbers.answer_drawn h,
    fun n known => tidy.climbs_topLevel known, fun n known => tidy.walk_eq known,
    ⟨tidy.nodup_attached, fun n => tidy.mem_attached, fun n known => tidy.mem_attached_iff known⟩,
    fun c known => Call.exists_answer tidy known, fun c s h => (Call.effect h).unchanged,
    fun n anchor => w.region.moveInPlace_eq n anchor, fun n anchor s ne h => ?_, tidy.addNode_iff⟩
  rcases Region.moveBefore_effect ne h with ⟨no, -⟩ | ⟨-, moves⟩
  · cases no
  · exact moves

/-- A call has been made, if there is an answer to it. -/
def next (w : Numbered) (c : Call) : Numbered :=
  match c.perform w.region with
  | some (_, s) => w.after c s
  | none => w

theorem Built.next (built : w.Built) (allowed : c.Allowed w.region) (hollow : c.Hollow) :
    (w.next c).Built := by
  unfold Numbered.next
  split
  next answered => exact built.call allowed hollow answered
  next => exact built

theorem Leads.next (allowed : c.Allowed w.region) (answered : (c.perform w.region).isSome = true)
    (rest : (w.next c).Leads calls w') : w.Leads (c :: calls) w' := by
  obtain ⟨⟨answer, s⟩, h⟩ := Option.isSome_iff_exists.mp answered
  rw [Numbered.next, h] at rest
  exact .call allowed h rest

/-- What some calls make of a region without nodes. -/
def made (calls : List Call) : Numbered :=
  calls.foldl next (new "f" default)

/-- A loop that is younger than the nodes in it, which are put into it in one order and brought into
another. -/
def youngerLoop : List Call :=
  [.addNode (.compute "x") [] [] default, .addLoop none 0 4 default, .append none ⟨1⟩,
    .append (some ⟨1⟩) ⟨0⟩, .addNode (.compute "y") [] [] default, .insertBefore ⟨0⟩ ⟨2⟩,
    .moveBefore ⟨0⟩ ⟨2⟩]

theorem Leads.structured_youngerLoop :
    (new "f" default).Leads youngerLoop (made youngerLoop) ∧ (∀ c ∈ youngerLoop, c.Hollow) ∧
    (made youngerLoop).region.attached = [⟨1⟩, ⟨0⟩, ⟨2⟩] ∧ (made youngerLoop).region.Tidy ∧
    (made youngerLoop).region.Climbs ⟨2⟩ ⟨1⟩ := by
  have leads : (new "f" default).Leads youngerLoop (made youngerLoop) := by
    refine .next trivial rfl <| .next trivial rfl <| .next ?_ rfl <| .next ?_ rfl <|
      .next trivial rfl <| .next ?_ rfl <| .next trivial rfl <| .done _
    · exact (Region.free_of_nowhere (by decide) (by decide)).takes (by decide) (by decide)
    · exact (Region.free_of_nowhere (by decide) (by decide)).takes (by decide) (by decide)
    · exact (Region.free_of_nowhere (by decide) (by decide)).takes (by decide) (by decide)
  have hollow : ∀ c ∈ youngerLoop, c.Hollow := by
    simp [youngerLoop, Call.Hollow, NodeKind.body]
  have structured := Leads.structured leads hollow
  exact ⟨leads, hollow, by decide, structured.1, structured.2.2.2.1 ⟨2⟩ (by decide)⟩

/-- A loop that is created around a node of the body and put behind it. -/
def loopAround : List Call :=
  [.addArg "i" (.scalar "index"), .addNode (.compute "x") [] [] default, .append none ⟨0⟩,
    .addNode (.loop ⟨0⟩ 0 4 [⟨0⟩]) [] [] default, .append none ⟨1⟩]

/-- A loop that is in no block itself when a node is put into it. -/
def filledAside : List Call :=
  [.addArg "a" (.scalar "i1"), .addLoop (some "i") 0 4 default,
    .addNode (.compute "x") [⟨0⟩] [] default, .append (some ⟨0⟩) ⟨1⟩]

/-- A node may come to stand in two blocks, so that walking the body visits it twice, where a loop is
created around it. And a node that stands in a block may not be visited at all. -/
theorem Leads.unstructured :
    ((new "f" default).Leads loopAround (made loopAround) ∧
      (made loopAround).region.block? none = some [⟨0⟩, ⟨1⟩] ∧
      (made loopAround).region.block? (some ⟨1⟩) = some [⟨0⟩] ∧
      (made loopAround).region.parent? ⟨0⟩ = none ∧
      (made loopAround).region.attached = [⟨0⟩, ⟨1⟩, ⟨0⟩] ∧ ¬ (made loopAround).region.Tidy) ∧
    (new "f" default).Leads filledAside (made filledAside) ∧
      (made filledAside).region.block? (some ⟨0⟩) = some [⟨1⟩] ∧
      (made filledAside).region.parent? ⟨1⟩ = some ⟨0⟩ ∧
      (made filledAside).region.attached = [] := by
  have inner : (made loopAround).region.block? (some ⟨1⟩) = some [⟨0⟩] := by decide
  have top : (made loopAround).region.parent? ⟨0⟩ = none := by decide
  refine ⟨⟨.next trivial rfl <| .next trivial rfl <| .next ?_ rfl <| .next trivial rfl <|
    .next ?_ rfl <| .done _, by decide, inner, top, by decide, fun tidy => ?_⟩,
    .next trivial rfl <| .next trivial rfl <| .next trivial rfl <| .next ?_ rfl <| .done _,
    by decide, by decide, by decide⟩
  · exact (Region.free_of_nowhere (by decide) (by decide)).takes (by decide) (by decide)
  · exact ⟨Region.free_of_nowhere (by decide) (by decide), nofun⟩
  · have named := tidy.named _ _ inner ⟨0⟩ List.mem_cons_self
    rw [top] at named
    cases named
  · exact (Region.free_of_nowhere (by decide) (by decide)).takes (by decide) (by decide)

end Numbered

end Staging
