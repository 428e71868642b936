import Staging.Proofs.Growth
import Staging.Proofs.Links

namespace Staging

section Insert

variable {r : Region} {n anchor : NodeId} {node : Node} {before behind : List NodeId}

theorem Region.insertAt_body (hb : r.body = before ++ behind) (hn : r.node? n = some node)
    (hp : node.parent = none) : r.insertAt none before.length n =
      some ({ r with body := before ++ n :: behind }, true) := by
  have parent : ({ r with body := before ++ n :: behind } : Region).setParent n none =
      { r with body := before ++ n :: behind } := by
    refine @modifyNode_self { r with body := before ++ n :: behind } n node _ hn ?_
    rw [← hp]
  simp [insertAt, attach, block?, hasBlock?, hb, hn, insertIdx_append_length, setBlock, parent]

theorem Region.insertBefore_body (hb : r.body = before ++ anchor :: behind)
    (first : anchor ∉ before) (known : anchor.index < r.nodes.size)
    (top : r.parent? anchor = none) (hn : r.node? n = some node) (hp : node.parent = none) :
    r.insertBefore anchor n = some ({ r with body := before ++ n :: anchor :: behind }, true) := by
  obtain ⟨target, ht⟩ := node?_eq_some known
  have parent : target.parent = none := by simpa [parent?, ht] using top
  have place : r.body.idxOf? anchor = some before.length := by
    rw [hb]
    exact idxOf?_append_cons first
  simp only [insertBefore, ht, parent, block?, bind, Option.bind, place]
  exact insertAt_body hb hn hp

end Insert

/-- The node of a copy or of a buffer, before it is placed. -/
def unplaced (kind : NodeKind) (operands results : List ValueId) (span : Span) : Node :=
  ⟨kind, operands, results, none, none, [], span⟩

theorem Region.addNode_single {r : Region} (kind : NodeKind) (operands : List ValueId)
    (name : String) (type : ValueType) (span : Span) :
    r.addNode kind operands [(some name, type)] span = (⟨r.nodes.size⟩,
      r.extendWith (unplaced kind operands [⟨r.values.size⟩] span)
        [⟨name, type, .result ⟨r.nodes.size⟩ 0⟩]) :=
  r.addNode_named kind operands [(name, type)] span

theorem Forwarding.addBuffer_eq {s : Forwarding} {before behind : List NodeId}
    (hb : s.region.body = before ++ behind) (hs : s.slot = before.length) (type : ValueType)
    (span : Span) : ∃ name done, s.addBuffer type span = some (⟨s.region.values.size⟩,
      ⟨{ s.region.extendWith (unplaced (.alloc false) [] [⟨s.region.values.size⟩] span)
          [⟨name, type, .result ⟨s.region.nodes.size⟩ 0⟩] with
          body := before ++ ⟨s.region.nodes.size⟩ :: behind }, s.slot + 1, done⟩) := by
  obtain ⟨r, slot, done⟩ := s
  simp only at hb hs
  subst hs
  refine ⟨r.freshName forwardStem, { done with allocs := done.allocs + 1 }, ?_⟩
  have insert := @Region.insertAt_body (r.extendWith (unplaced (.alloc false) [] [⟨r.values.size⟩] span)
      [⟨r.freshName forwardStem, type, .result ⟨r.nodes.size⟩ 0⟩]) ⟨r.nodes.size⟩ _ before behind hb
    (r.node?_extendWith_self _ _) rfl
  simp only [addBuffer, Region.addNode_single, insert, bind, Option.bind]
  simp [Region.results, unplaced, Region.node?, Region.extendWith]

theorem Region.HasLink.of_nodes {r : Region} {l : Link} {name : String} {type : ValueType}
    {span : Span} (copied : r.node? l.copy = some (unplaced .copy
      (if l.buffer.isSome then [l.source, l.target] else [l.source])
      (if l.buffer.isSome then [] else [l.target]) span))
    (buffered : ∀ b, l.buffer = some b → r.node? b = some (unplaced (.alloc false) [] [l.target] span))
    (filled : l.buffer.isSome = type.isMemref)
    (named : r.value? l.target = some ⟨name, type, .result (l.buffer.getD l.copy) 0⟩) :
    r.HasLink type l := by
  refine ⟨by simp [Region.kind?, copied, unplaced], by simp [Region.operands, copied, unplaced],
    by simp [Region.results, copied, unplaced], by simp [Region.parent?, copied, unplaced],
    fun b hb => ?_, filled, ⟨name, named⟩⟩
  simp [Region.kind?, Region.operands, Region.results, Region.parent?, buffered b hb, unplaced]

theorem Region.Extends.hasLink {r s : Region} (h : r.Extends s) {type : ValueType} {l : Link}
    (link : r.HasLink type l) (known : ∀ n ∈ l.nodes, n.index < r.nodes.size)
    (target : l.target.index < r.values.size) : s.HasLink type l := by
  have copy := known l.copy (by simp [Link.nodes])
  refine ⟨?_, ?_, ?_, ?_, ?_, link.filled, ?_⟩
  · rw [h.kind? copy, link.kind]
  · rw [h.operands copy, link.operands]
  · rw [h.results copy, link.results]
  · rw [h.parent? copy, link.parent]
  · intro n hn
    have buffer := known n (by simp [Link.nodes, hn])
    rw [h.kind? buffer, h.operands buffer, h.results buffer, h.parent? buffer]
    exact link.buffer n hn
  · rw [h.value _ target]
    exact link.target

/-- A copy is added in front of `consumer`, and its buffer, if it has one, behind `front`. -/
structure Forwarding.Gains (s : Forwarding) (type : ValueType) (l : Link) (consumer : NodeId)
    (front before behind : List NodeId) (s' : Forwarding) : Prop where
  ext : s.region.Extends s'.region
  nodes : l.nodes = (List.range' s.region.nodes.size l.nodes.length).map NodeId.mk
  nodeCount : s'.region.nodes.size = s.region.nodes.size + l.nodes.length
  target : l.target = ⟨s.region.values.size⟩
  valueCount : s'.region.values.size = s.region.values.size + 1
  link : s'.region.HasLink type l
  levels : s'.region.level? l.copy = some l.level ∧
    ∀ n, l.buffer = some n → s'.region.level? n = none
  body : s'.region.body = front ++ l.buffer.toList ++ (before ++ l.copy :: consumer :: behind)
  slot : s'.slot = s.slot + l.buffer.toList.length

section Gains

variable {s t : Forwarding} {chain : CopyChain} {front before behind : List NodeId} {l : Link}
  {type : ValueType} {node : Node}

/-- Placing a copy completes what is gained by creating it. -/
theorem Forwarding.place_gains (ext : s.region.Extends t.region)
    (nodes : l.nodes = (List.range' s.region.nodes.size l.nodes.length).map NodeId.mk)
    (nodeCount : t.region.nodes.size = s.region.nodes.size + l.nodes.length)
    (target : l.target = ⟨s.region.values.size⟩)
    (valueCount : t.region.values.size = s.region.values.size + 1)
    (link : t.region.HasLink type l) (levels : ∀ n, l.buffer = some n → t.region.level? n = none)
    (body : t.region.body = front ++ l.buffer.toList ++ (before ++ chain.consumer :: behind))
    (slot : t.slot = s.slot + l.buffer.toList.length)
    (first : chain.consumer ∉ front ++ before)
    (known : chain.consumer.index < s.region.nodes.size)
    (top : s.region.parent? chain.consumer = none) :
    ∃ s', t.place chain.consumer l.copy l.level = some s' ∧
      s.Gains type l chain.consumer front before behind s' := by
  have new : ∀ n ∈ l.nodes, s.region.nodes.size ≤ n.index := by
    intro n hn
    rw [nodes] at hn
    obtain ⟨i, hi, rfl⟩ := List.mem_map.mp hn
    exact (List.mem_range'_1.mp hi).1
  have old : ∀ n : NodeId, n.index < s.region.nodes.size → n ≠ l.copy := by
    rintro n hn rfl
    have := new l.copy (by simp [Link.nodes])
    omega
  have leveled := t.region.setLevel_eq l.copy (some l.level)
  have same : t.region.SameNodes (t.region.setLevel l.copy (some l.level)) := by
    rw [leveled]
    exact t.region.sameNodes_withLevels _
  obtain ⟨node, hc⟩ : ∃ node, (t.region.setLevel l.copy (some l.level)).node? l.copy = some node := by
    obtain ⟨_, hk, _⟩ := Option.map_eq_some_iff.mp (link.sameNodes same).kind
    exact ⟨_, hk⟩
  have hp : node.parent = none := by simpa [Region.parent?, hc] using (link.sameNodes same).parent
  have notBuffer : chain.consumer ∉ l.buffer.toList := by
    intro hb
    have := new chain.consumer (List.mem_append_left _ hb)
    omega
  have insert := @Region.insertBefore_body (t.region.setLevel l.copy (some l.level)) l.copy
    chain.consumer node (front ++ l.buffer.toList ++ before) behind
    (by simpa [Region.setLevel, Region.modifyNode] using body)
    (by
      simp only [List.mem_append, not_or] at first ⊢
      exact ⟨⟨first.1, notBuffer⟩, first.2⟩)
    (by
      rw [same.size, nodeCount]
      omega)
    (by rw [same.parent, ext.parent? known, top]) hc hp
  have step : ∃ done, t.place chain.consumer l.copy l.level =
      some ⟨{ t.region.setLevel l.copy (some l.level) with
        body := front ++ l.buffer.toList ++ before ++ l.copy :: chain.consumer :: behind },
        t.slot, done⟩ := ⟨_, by simp only [place, insert, bind, Option.bind]; rfl⟩
  obtain ⟨done, hplace⟩ := step
  refine ⟨_, hplace, ⟨ext.args, fun n hn => ?_, fun v hv => ext.value v hv⟩, nodes, ?_, target,
    valueCount, ?_, ⟨?_, fun n hn => ?_⟩, ?_, slot⟩
  · have keep : (t.region.setLevel l.copy (some l.level)).node? n = t.region.node? n := by
      rw [Region.node?_setLevel, if_neg (old n hn)]
    exact keep.trans (ext.node n hn)
  · exact same.size.trans nodeCount
  · exact link.sameNodes ⟨same.size, same.args, same.kind, same.operands, same.results,
      same.parent, same.value⟩
  · have level : (t.region.setLevel l.copy (some l.level)).level? l.copy = some l.level := by
      obtain ⟨node, hn, _⟩ := Option.map_eq_some_iff.mp link.kind
      simp [Region.level?, Region.node?_setLevel, hn]
    exact level
  · have ne : n ≠ l.copy := by
      rintro rfl
      have nodup : l.nodes.Nodup := by
        rw [nodes]
        exact List.Nodup.map (fun a b hab => congrArg NodeId.index hab) List.nodup_range'
      simp [Link.nodes, hn] at nodup
    have keep : (t.region.setLevel l.copy (some l.level)).level? n = t.region.level? n := by
      simp [Region.level?, Region.node?_setLevel, ne]
    exact keep.trans (levels n hn)
  · simp

/-- A copy into a buffer of its own. -/
theorem Forwarding.addCopy_buffered
    (hb : s.region.body = front ++ (before ++ chain.consumer :: behind))
    (hs : s.slot = front.length) (first : chain.consumer ∉ front ++ before)
    (known : chain.consumer.index < s.region.nodes.size)
    (top : s.region.parent? chain.consumer = none) (needs : chain.needsAlloc = type.isMemref)
    (alloc : chain.needsAlloc = true)
    (span : Span) (current : ValueId) (level : Nat) :
    ∃ s' l, addCopy chain type span (s, current) level = some (s', l.target) ∧ l.level = level ∧
      l.source = current ∧ s.Gains type l chain.consumer front before behind s' := by
  obtain ⟨name, counts, hbuf⟩ := addBuffer_eq hb hs type span
  let target : ValueId := ⟨s.region.values.size⟩
  let buffer := unplaced (.alloc false) [] [target] span
  let copy := unplaced .copy [current, target] [] span
  let value : Value := ⟨name, type, .result ⟨s.region.nodes.size⟩ 0⟩
  let held : Region := { s.region.extendWith buffer [value] with
    body := front ++ ⟨s.region.nodes.size⟩ :: (before ++ chain.consumer :: behind) }
  let r := held.extendWith copy []
  have size : held.nodes.size = s.region.nodes.size + 1 := by simp [held]
  have values : held.values.size = s.region.values.size + 1 := by simp [held]
  have older := s.region.extendWith_extends buffer [value]
  have newer := held.extendWith_extends copy []
  have ext : s.region.Extends r :=
    ⟨rfl, fun n hn => (newer.node n (by omega)).trans (older.node n hn),
      fun v hv => (newer.value v (by omega)).trans (older.value v hv)⟩
  have copied : r.node? ⟨s.region.nodes.size + 1⟩ = some copy :=
    size ▸ held.node?_extendWith_self copy []
  have buffered : r.node? ⟨s.region.nodes.size⟩ = some buffer :=
    (newer.node _ (by simp [size])).trans (s.region.node?_extendWith_self buffer [value])
  have made : held.addNode .copy [current, target] [] span = (⟨s.region.nodes.size + 1⟩, r) := by
    rw [← size]
    exact held.addNode_named .copy [current, target] [] span
  have named : r.value? target = some value := by
    refine (newer.value _ (by simp [values, target])).trans ?_
    change (s.region.extendWith buffer [value]).value? _ = _
    simp [Region.value?_extendWith, target]
  obtain ⟨s', hplace, gains⟩ := @place_gains s ⟨r, s.slot + 1, counts⟩ chain front before behind
    ⟨⟨s.region.nodes.size + 1⟩, some ⟨s.region.nodes.size⟩, current, target, level⟩ type ext
    rfl (by simp [r, size, Link.nodes]) rfl (by simp [r, values])
    (.of_nodes copied (by rintro _ ⟨⟩; exact buffered) (by simp [← needs, alloc]) named)
    (by simp [Region.level?, buffered, buffer, unplaced]) (by simp [r, held, Region.extendWith]) rfl
    first known top
  refine ⟨s', _, ?_, rfl, rfl, gains⟩
  unfold addCopy
  simp only [alloc, hbuf, if_true, bind, Option.bind]
  rw [show Region.addNode _ _ _ _ _ = _ from made]
  simp only [hplace]
  rfl

/-- A copy that yields a value. -/
theorem Forwarding.addCopy_plain
    (hb : s.region.body = front ++ (before ++ chain.consumer :: behind))
    (first : chain.consumer ∉ front ++ before)
    (known : chain.consumer.index < s.region.nodes.size)
    (top : s.region.parent? chain.consumer = none) (needs : chain.needsAlloc = type.isMemref)
    (alloc : chain.needsAlloc = false)
    (span : Span) (current : ValueId) (level : Nat) :
    ∃ s' l, addCopy chain type span (s, current) level = some (s', l.target) ∧ l.level = level ∧
      l.source = current ∧ s.Gains type l chain.consumer front before behind s' := by
  let target : ValueId := ⟨s.region.values.size⟩
  let copy := unplaced .copy [current] [target] span
  let value : Value := ⟨s.region.freshName forwardStem, type, .result ⟨s.region.nodes.size⟩ 0⟩
  let r := s.region.extendWith copy [value]
  have copied : r.node? ⟨s.region.nodes.size⟩ = some copy :=
    s.region.node?_extendWith_self copy [value]
  have named : r.value? target = some value := by
    simp [r, Region.value?_extendWith, target]
  obtain ⟨s', hplace, gains⟩ := @place_gains s ⟨r, s.slot, s.done⟩ chain front before behind
    ⟨⟨s.region.nodes.size⟩, none, current, target, level⟩ type
    (s.region.extendWith_extends copy [value]) rfl (by simp [r, Link.nodes]) rfl (by simp [r])
    (.of_nodes copied nofun (by simp [← needs, alloc]) named) (by simp)
    (by simp [r, Region.extendWith, hb]) rfl first known top
  refine ⟨s', _, ?_, rfl, rfl, gains⟩
  have result : (r.results ⟨s.region.nodes.size⟩).head? = some target := by
    simp [Region.results, copied, copy, unplaced]
  unfold addCopy
  simp only [alloc, Bool.false_eq_true, if_false, bind, Option.bind, Region.addNode_single]
  rw [show (Region.results _ _).head? = _ from result]
  simp only
  rw [show ({ region := r, slot := s.slot, done := s.done } : Forwarding).place chain.consumer
    ⟨s.region.nodes.size⟩ level = some s' from hplace]
  rfl

theorem Forwarding.addCopy_gains
    (hb : s.region.body = front ++ (before ++ chain.consumer :: behind))
    (hs : s.slot = front.length) (first : chain.consumer ∉ front ++ before)
    (known : chain.consumer.index < s.region.nodes.size)
    (top : s.region.parent? chain.consumer = none) (needs : chain.needsAlloc = type.isMemref)
    (span : Span) (current : ValueId) (level : Nat) :
    ∃ s' l, addCopy chain type span (s, current) level = some (s', l.target) ∧ l.level = level ∧
      l.source = current ∧ s.Gains type l chain.consumer front before behind s' := by
  cases alloc : chain.needsAlloc with
  | true => exact addCopy_buffered hb hs first known top needs alloc span current level
  | false => exact addCopy_plain hb first known top needs alloc span current level

end Gains

end Staging
