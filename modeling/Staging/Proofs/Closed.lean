import Staging.Graphviz
import Staging.Proofs.Passes

namespace Staging

/-- All that can be come by from the body of a region is there: the nodes, the loops around them
and the nodes inside them, the values that they use and define, and the nodes that define what they
use. Nodes have the results that their kind says they have. -/
structure Region.Closed (r : Region) : Prop where
  args : ∀ v ∈ r.args, v.index < r.values.size
  body : ∀ n ∈ r.body, n ∈ r.attached
  attached : ∀ n ∈ r.attached, n.index < r.nodes.size
  parent : ∀ n ∈ r.attached, ∀ p, r.parent? n = some p → p ∈ r.attached
  inside : ∀ n ∈ r.attached, ∀ c ∈ r.bodyOf n, c ∈ r.attached
  operands : ∀ n ∈ r.attached, ∀ v ∈ r.operands n, v.index < r.values.size
  results : ∀ n ∈ r.attached, ∀ v ∈ r.results n, v.index < r.values.size
  ivs : ∀ n ∈ r.attached, ∀ v ∈ r.ivs n, v.index < r.values.size
  definitions : ∀ n ∈ r.attached, ∀ v ∈ r.operands n, ∀ m,
    (r.definition? v).bind Definition.node? = some m → m ∈ r.attached
  fits : ∀ n ∈ r.attached, ∀ node, r.node? n = some node →
    node.kind.Fits node.operands.length node.results.length

/-- The ends of the edges are there, and so is what they carry. -/
def DepGraph.Known (g : DepGraph) (r : Region) : Prop :=
  ∀ producer edge, (producer, edge) ∈ g.toList → producer.index < r.nodes.size ∧
    edge.consumer.index < r.nodes.size ∧ edge.carrier.id.index < r.values.size

/-- Nodes with levels are there. There is a level below each, but no more levels than nodes. -/
def Levels.Known (levels : Levels) (r : Region) : Prop :=
  ∀ n level, levels.get? n = some level → n.index < r.nodes.size ∧ 1 ≤ level ∧
    level ≤ r.nodes.size

/-- What is planned for is there, and no edge that skips stages goes up. -/
structure Bypasses.Known (b : Bypasses) (r : Region) : Prop where
  edges : ∀ e ∈ b.edges, e.producer.index < r.nodes.size ∧ e.consumer.index < r.nodes.size ∧
    e.carrier.id.index < r.values.size ∧ e.span?.isSome = true
  chains : ∀ chain ∈ b.chains, chain.producer.index < r.nodes.size ∧
    chain.consumer.index < r.nodes.size ∧ chain.carrier.id.index < r.values.size

section Closed

variable {r : Region}

/-- A node that defines an operand is met on a walk of the body. -/
theorem Region.WellFormed.definition_attached (wf : r.WellFormed) {t n m : NodeId} {v : ValueId}
    (ht : t ∈ r.body) (hn : r.Within t n) (hv : v ∈ r.operands n)
    (h : (r.definition? v).bind Definition.node? = some m) : ∃ t ∈ r.body, r.Within t m := by
  have of_result {k : NodeId} (hk : v ∈ r.results k) : k = m := by
    obtain ⟨i, hi⟩ := wf.sound.result_defined hk
    rw [hi] at h
    exact Option.some.inj h
  rcases wf.sound.mention_cases ht ⟨n, hn, hv⟩ with arg | ⟨y, before, result⟩ | ⟨k, hk, ⟨-, result⟩ | iv⟩
  · obtain ⟨i, hi⟩ := wf.sound.arg_defined arg
    rw [hi] at h
    cases h
  · exact ⟨y, before.mem_left, of_result result ▸ Within.refl r y⟩
  · exact ⟨t, ht, of_result result ▸ hk⟩
  · have hi := wf.ivDefined k v iv
    rw [hi] at h
    exact ⟨t, ht, Option.some.inj h ▸ hk⟩

theorem Region.WellFormed.closed (wf : r.WellFormed) : r.Closed := by
  have walked {n : NodeId} : n ∈ r.attached ↔ ∃ t ∈ r.body, r.Within t n :=
    wf.toNested.forest.mem_attached
  constructor
  case args =>
    intro v hv
    obtain ⟨i, hi⟩ := wf.sound.arg_defined hv
    exact known_of_definition? hi
  case body => exact fun n hn => walked.mpr ⟨n, hn, Within.refl r n⟩
  case attached =>
    intro n hn
    obtain ⟨t, ht, within⟩ := walked.mp hn
    exact wf.known (wf.bodyKnown t ht) within
  case parent =>
    intro n hn p hp
    obtain ⟨t, ht, within⟩ := walked.mp hn
    rcases Relation.ReflTransGen.cases_tail within with rfl | ⟨q, hq, child⟩
    · rw [wf.bodyParent n ht] at hp
      cases hp
    · rw [wf.childParent q n child] at hp
      exact walked.mpr ⟨t, ht, Option.some.inj hp ▸ hq⟩
  case inside =>
    intro n hn c hc
    obtain ⟨t, ht, within⟩ := walked.mp hn
    exact walked.mpr ⟨t, ht, within.tail hc⟩
  case operands =>
    intro n hn v hv
    obtain ⟨t, ht, within⟩ := walked.mp hn
    exact wf.sound.known_of_mentions ht ⟨n, within, hv⟩
  case results => exact fun n _ v hv => wf.result_known hv
  case ivs => exact fun n _ v hv => known_of_definition? (wf.ivDefined n v hv)
  case definitions =>
    intro n hn v hv m hm
    obtain ⟨t, ht, within⟩ := walked.mp hn
    exact walked.mpr (wf.definition_attached ht within hv hm)
  case fits => exact fun n _ node hnode => wf.fits n node hnode

end Closed

section Known

variable {r s : Region} {o : Options} {levels : Levels}

theorem Region.WellFormed.deps_known (wf : r.WellFormed) : r.deps.Known r := by
  intro producer edge h
  have feeds := wf.mem_deps.mp h
  exact ⟨wf.bodyKnown _ feeds.mem_left, wf.bodyKnown _ feeds.mem_right,
    wf.sound.known_of_mentions feeds.mem_right feeds.mentions⟩

/-- Every level is followed by all lower ones, so that there are as many nodes. -/
theorem Region.WellFormed.levels_bounded (wf : r.WellFormed) (h : r.levels r.deps = .ok levels) :
    levels.Known r := by
  obtain ⟨schedule, -⟩ := levels_spec wf.ordered h
  intro n level hl
  have hn : n ∈ r.body := ((schedule.leveled n).mp (by simp [hl])).1
  have count : level ≤ r.body.length := by
    refine le_length_of_descends hn hl fun lower pos below => ?_
    obtain ⟨x, before, hx⟩ := schedule.descends_to wf.bodyNodup hl pos below
    exact ⟨x, before.mem_right, hx⟩
  have fit := length_le_of_nodup wf.bodyNodup wf.bodyKnown
  exact ⟨wf.bodyKnown n hn, schedule.positive n level hl, by omega⟩

theorem Region.WellFormed.bypasses_known (wf : r.WellFormed) (hl : r.levels r.deps = .ok levels)
    {b : Bypasses} (hb : r.bypasses r.deps levels o = .ok b) : b.Known r := by
  have sound := Plan.sound wf hl hb
  have edge {e : Bypass} (he : e ∈ b.edges) : e.producer.index < r.nodes.size ∧
      e.consumer.index < r.nodes.size ∧ e.carrier.id.index < r.values.size ∧ e.lower ≤ e.upper := by
    obtain ⟨feeds, -, -, falls⟩ := (sound.skips e).mp he
    exact ⟨wf.bodyKnown _ feeds.mem_left, wf.bodyKnown _ feeds.mem_right,
      wf.sound.known_of_mentions feeds.mem_right feeds.mentions, falls.le⟩
  constructor
  · intro e he
    obtain ⟨producer, consumer, carrier, falls⟩ := edge he
    exact ⟨producer, consumer, carrier, by simp [Bypass.span?, falls]⟩
  · intro chain hc
    have planned : chain ∈ if o.insertCopy then b.edges.map r.chainOf else [] := sound.chains ▸ hc
    split at planned
    next =>
      obtain ⟨e, he, rfl⟩ := List.mem_map.mp planned
      obtain ⟨producer, consumer, carrier, -⟩ := edge he
      exact ⟨producer, consumer, carrier⟩
    next => cases planned

end Known

section Grown

variable {r s : Region} (nodes : r.nodes.size ≤ s.nodes.size)
  (values : r.values.size ≤ s.values.size)

include nodes

theorem Levels.Known.grow {levels : Levels} (h : levels.Known r) : levels.Known s := by
  intro n level hl
  obtain ⟨known, pos, low⟩ := h n level hl
  exact ⟨known.trans_le nodes, pos, low.trans nodes⟩

include values

theorem DepGraph.Known.grow {g : DepGraph} (h : g.Known r) : g.Known s := by
  intro producer edge he
  obtain ⟨first, second, carrier⟩ := h producer edge he
  exact ⟨first.trans_le nodes, second.trans_le nodes, carrier.trans_le values⟩

theorem Bypasses.Known.grow {b : Bypasses} (h : b.Known r) : b.Known s := by
  constructor
  · intro e he
    obtain ⟨producer, consumer, carrier, falls⟩ := h.edges e he
    exact ⟨producer.trans_le nodes, consumer.trans_le nodes, carrier.trans_le values, falls⟩
  · intro chain hc
    obtain ⟨producer, consumer, carrier⟩ := h.chains chain hc
    exact ⟨producer.trans_le nodes, consumer.trans_le nodes, carrier.trans_le values⟩

end Grown

section Drawn

variable {r : Region}

theorem Region.dataflowNodes_known (wf : r.WellFormed) :
    ∀ n ∈ r.dataflowNodes, n.index < r.nodes.size :=
  fun n hn => wf.bodyKnown n (List.mem_filter.mp hn).1

/-- A graph can be drawn if its edges are among what the region knows. -/
theorem Region.WellFormed.dot_isSome (wf : r.WellFormed) {g : DepGraph} (known : g.Known r)
    (levels : Option Levels) : (r.dot g levels).isSome = true := by
  have node : ∀ n ∈ r.dataflowNodes, (r.dotNode levels n).isSome = true := by
    intro n hn
    have here := dataflowNodes_known wf n hn
    obtain ⟨node, hnode⟩ := node?_eq_some here
    obtain ⟨name, hname⟩ := Option.isSome_iff_exists.mp (wf.toCoherent.describe_isSome here)
    simp [dotNode, dotLabel, kind?, hnode, hname]
  have edge : ∀ e ∈ g.toList, (r.dotEdge levels e.1 e.2).isSome = true := by
    rintro ⟨producer, edge⟩ he
    obtain ⟨-, -, carrier⟩ := known producer edge he
    obtain ⟨name, hname⟩ := Option.isSome_iff_exists.mp (valueText_isSome carrier)
    simp [dotEdge, hname]
  obtain ⟨nodes, hnodes⟩ := Option.isSome_iff_exists.mp (mapM_isSome node)
  obtain ⟨edges, hedges⟩ := Option.isSome_iff_exists.mp (mapM_isSome edge)
  simp [dot, hnodes, hedges]

end Drawn

end Staging
