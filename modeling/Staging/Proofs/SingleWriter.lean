import Staging.Proofs.Surviving

namespace Staging

/-- No array copy stands in the body, and what a loop of the body writes is written by no other
loop of it and is no result of a node that is scheduled. -/
structure Region.SingleWriter (r : Region) : Prop where
  noCopy : ∀ n ∈ r.body, r.copyTarget? n = none
  oneLoop : ∀ p ∈ r.body, ∀ q ∈ r.body, r.isLoop p = true → r.isLoop q = true →
    ∀ v, r.Touches p v .write → r.Touches q v .write → p = q
  noResult : ∀ p ∈ r.body, r.isLoop p = true → ∀ v, r.Touches p v .write →
    ∀ n ∈ r.body, r.isDataflow n = true → v ∉ r.results n

/-- Checks that each value has a single writer. -/
def Region.isSingleWriter (r : Region) : Bool :=
  r.body.all (fun n => r.copyTarget? n = none) &&
    (r.body.filter r.isLoop).all fun p => (r.footprint.writtenBy p).all fun v =>
      (r.body.filter r.isLoop).all (fun q => p = q || !(r.footprint.writtenBy q).contains v) &&
        r.dataflowNodes.all fun n => !(r.results n).contains v

theorem Region.Nested.isSingleWriter_iff {r : Region} (nested : r.Nested) :
    r.isSingleWriter = true ↔ r.SingleWriter := by
  simp only [isSingleWriter, dataflowNodes, Bool.and_eq_true, List.all_eq_true, List.mem_filter,
    decide_eq_true_eq, Bool.or_eq_true, Bool.not_eq_true', List.contains_eq_mem,
    decide_eq_false_iff_not, nested.mem_writtenBy, and_imp]
  constructor
  · rintro ⟨noCopy, loops⟩
    refine ⟨noCopy, fun p hp q hq loop loop' v writes writes' => ?_,
      fun p hp loop v writes n hn scheduled => ?_⟩
    · rcases (loops p hp loop v hp loop writes).1 q hq loop' with same | none
      · exact same
      · exact absurd ⟨hq, loop', writes'⟩ none
    · exact (loops p hp loop v hp loop writes).2 n hn scheduled
  · rintro ⟨noCopy, oneLoop, noResult⟩
    refine ⟨noCopy, fun p hp loop v _ _ writes => ⟨fun q hq loop' => ?_, fun n hn scheduled =>
      noResult p hp loop v writes n hn scheduled⟩⟩
    by_cases writes' : r.Touches q v .write
    · exact Or.inl (oneLoop p hp q hq loop loop' v writes writes')
    · exact Or.inr fun h => writes' h.2.2

/-- The copies of the chain that carries an edge, from the producer on. -/
def copiesOn (built : List BuiltChain) (chain : CopyChain) : List NodeId :=
  ((built.find? fun b => b.chain = chain).map fun b => b.links.map Link.copy).getD []

/-- The dependences of `out` are those of a region, where a path through inserted copies, which
no two edges share, takes the place of each edge that skips stages. In `mid`, the copies are
inserted and the levels are those of the plan; on every edge the level drops by one there. -/
structure Plan.Subdivides (r : Region) (o : Options) (plan : Plan) (via : Bypass → List NodeId)
    (mid out : Region) : Prop where
  inserted : ∀ e ∈ plan.bypasses.edges, ∀ n ∈ via e, r.Inserted out n
  apart : (plan.bypasses.edges.flatMap via).Nodup
  length : ∀ e ∈ plan.bypasses.edges, ∃ upper lower, plan.levels.get? e.producer = some upper ∧
    plan.levels.get? e.consumer = some lower ∧ (via e).length = upper - 1 - lower
  edges : ∀ p c, out.HasEdge p c ↔
    (∃ d, (p, d) ∈ r.deps.toList ∧ d.consumer = c ∧ ∀ e ∈ plan.bypasses.edges,
      ¬ (e.producer = p ∧ e.carrier = d.carrier ∧ e.consumer = c)) ∨
    ∃ e ∈ plan.bypasses.edges, [p, c] <:+: e.producer :: via e ++ [e.consumer]
  drops : ∀ p c, out.HasEdge p c → ∃ upper lower, mid.level? p = some upper ∧
    mid.level? c = some lower ∧ upper = lower + 1
  stages : ∀ p c, out.HasEdge p c → ∃ upper lower, out.level? p = some upper ∧
    out.level? c = some lower ∧ stepsDown o upper lower = true

/-- Two nodes that follow each other on a path stand at its start, inside it or at its end. -/
theorem pair_infix_path {α : Type} {a z p c : α} {m : List α} (ne : m ≠ []) :
    [p, c] <:+: a :: m ++ [z] ↔
      (p = a ∧ m.head? = some c) ∨ [p, c] <:+: m ∨ (m.getLast? = some p ∧ z = c) := by
  obtain ⟨x, m', rfl⟩ := List.exists_cons_of_ne_nil ne
  rw [List.cons_append, List.infix_cons_iff, List.cons_prefix_cons, List.infix_concat_iff,
    show [p, c] = [p] ++ [c] from rfl, List.suffix_concat_iff]
  have head : [c] <+: x :: m' ++ [z] ↔ (x :: m').head? = some c := by
    rw [List.singleton_prefix_iff_head?_eq_some]
    simp
  have last : ([p] ++ [c] = [] ∨ ∃ t, [p] ++ [c] = t ++ [z] ∧ t <:+ x :: m') ↔
      (x :: m').getLast? = some p ∧ z = c := by
    constructor
    · rintro (h | ⟨t, ht, hs⟩)
      · simp at h
      · obtain ⟨rfl, hc⟩ := List.append_inj' ht rfl
        exact ⟨List.singleton_suffix_iff_getLast?_eq_some.mp hs, by simpa using hc.symm⟩
    · rintro ⟨hl, rfl⟩
      exact Or.inr ⟨[p], rfl, List.singleton_suffix_iff_getLast?_eq_some.mpr hl⟩
  rw [head, last]
  tauto

section SingleWriter

variable {r : Region} {p q c : NodeId} {carrier carrier' : Carrier} {v : ValueId}

theorem Region.SingleWriter.no_copiesOut (sw : r.SingleWriter) {n : NodeId} (hn : n ∈ r.body) :
    r.copiesOut v n = false := by
  by_contra h
  obtain ⟨hk, target, ho⟩ := copiesOut_iff.mp (by simpa using h)
  have := sw.noCopy n hn
  rw [copyTarget?_iff.mpr ⟨hk, v, ho⟩] at this
  simp at this

theorem Region.SingleWriter.writes (sw : r.SingleWriter) (hp : p ∈ r.body)
    (h : r.Stores p v) : r.isLoop p = true ∧ r.Touches p v .write := by
  rcases h with h | target
  · exact h
  · simp [sw.noCopy p hp] at target

/-- A dependence is by way of what a loop writes, or of a result. -/
theorem Region.SingleWriter.feeds_cases (sw : r.SingleWriter) (h : r.Feeds p carrier c) :
    (carrier.isMemory = true ∧ r.isLoop p = true ∧ r.Touches p carrier.id .write) ∨
      (carrier.isMemory = false ∧ r.isLoop p = false ∧ carrier.id ∈ r.results p) := by
  cases h with
  | loop _ _ loopP _ _ touches => exact Or.inl ⟨rfl, loopP, touches⟩
  | copyOut _ _ copies later => simp [sw.no_copiesOut later.mem_right] at copies
  | copyIn target _ _ later => simp [sw.noCopy p later.mem_left] at target
  | result _ _ _ noLoop _ results => exact Or.inr ⟨rfl, noLoop, results⟩

theorem Carrier.ext_of_isMemory (h : carrier.isMemory = carrier'.isMemory)
    (hid : carrier.id = carrier'.id) : carrier = carrier' := by
  cases carrier <;> cases carrier' <;> simp_all [Carrier.isMemory, Carrier.id]

/-- What one node reads has one producer. -/
theorem Region.SingleWriter.producer_unique (sw : r.SingleWriter) (wf : r.WellFormed)
    {c' : NodeId} (h : r.Feeds p carrier c) (h' : r.Feeds q carrier' c')
    (hid : carrier.id = carrier'.id) : p = q ∧ carrier = carrier' := by
  have flow := h.isDataflow_left
  have flow' := h'.isDataflow_left
  have hp := h.mem_left
  have hq := h'.mem_left
  rcases sw.feeds_cases h with ⟨mem, loop, writes⟩ | ⟨mem, noLoop, results⟩ <;>
    rcases sw.feeds_cases h' with ⟨mem', loop', writes'⟩ | ⟨mem', noLoop', results'⟩
  · exact ⟨sw.oneLoop p hp q hq loop loop' _ writes (hid ▸ writes'),
      Carrier.ext_of_isMemory (mem.trans mem'.symm) hid⟩
  · exact absurd (hid ▸ results') (sw.noResult p hp loop _ writes q hq flow')
  · exact absurd (hid ▸ results) (sw.noResult q hq loop' _ writes' p hp flow)
  · exact ⟨wf.sound.result_unique results (hid ▸ results'),
      Carrier.ext_of_isMemory (mem.trans mem'.symm) hid⟩

end SingleWriter

section Chains

variable {r : Region} {o : Options} {plan : Plan} {built : List BuiltChain} {s : Forwarding}
  {b : BuiltChain}

/-- An edge that skips stages is known by its ends and what it carries. -/
theorem Plan.Sound.bypass_ext (h : Plan.Sound r o plan) {e e' : Bypass}
    (he : e ∈ plan.bypasses.edges) (he' : e' ∈ plan.bypasses.edges)
    (producer : e.producer = e'.producer) (carrier : e.carrier = e'.carrier)
    (consumer : e.consumer = e'.consumer) : e = e' := by
  obtain ⟨_, hu, hl, _⟩ := (h.skips e).mp he
  obtain ⟨_, hu', hl', _⟩ := (h.skips e').mp he'
  rw [producer, hu'] at hu
  rw [consumer, hl'] at hl
  cases e
  cases e'
  simp_all

theorem Region.Threaded.chains_eq (h : r.Threaded o plan built s) (copies : o.insertCopy = true) :
    built.map BuiltChain.chain = plan.bypasses.edges.map r.chainOf := by
  rw [h.chains, h.sound.chains, if_pos copies]

theorem Region.Threaded.chain_of_bypass (h : r.Threaded o plan built s)
    (copies : o.insertCopy = true) {e : Bypass} (he : e ∈ plan.bypasses.edges) :
    ∃ b ∈ built, b.chain = r.chainOf e := by
  have hm : r.chainOf e ∈ built.map BuiltChain.chain :=
    h.chains_eq copies ▸ List.mem_map.mpr ⟨e, he, rfl⟩
  exact List.mem_map.mp hm

theorem Region.Threaded.bypass_of_chain (h : r.Threaded o plan built s)
    (copies : o.insertCopy = true) (hb : b ∈ built) :
    ∃ e ∈ plan.bypasses.edges, r.chainOf e = b.chain := by
  have hm : b.chain ∈ plan.bypasses.edges.map r.chainOf :=
    h.chains_eq copies ▸ List.mem_map.mpr ⟨b, hb, rfl⟩
  exact List.mem_map.mp hm

theorem Region.Threaded.chains_nodup (h : r.Threaded o plan built s)
    (copies : o.insertCopy = true) : (built.map BuiltChain.chain).Nodup := by
  rw [h.chains_eq copies]
  refine h.sound.skipsNodup.map_on fun e he e' he' same => ?_
  obtain ⟨producer, carrier, consumer, -, -⟩ := CopyChain.mk.inj same
  exact h.sound.bypass_ext he he' producer carrier consumer

theorem Region.Threaded.copiesOn_eq (h : r.Threaded o plan built s)
    (copies : o.insertCopy = true) (hb : b ∈ built) :
    copiesOn built b.chain = b.links.map Link.copy := by
  unfold copiesOn
  cases hf : built.find? fun b' => b'.chain = b.chain with
  | none =>
    have := List.find?_eq_none.mp hf b hb
    simp at this
  | some b' =>
    have same : b'.chain = b.chain := by simpa using List.find?_some hf
    obtain rfl := List.inj_on_of_nodup_map (h.chains_nodup copies) (List.mem_of_find?_eq_some hf)
      hb same
    rfl

theorem Region.Threaded.copies_nodup (h : r.Threaded o plan built s)
    (copies : o.insertCopy = true) :
    (plan.bypasses.edges.flatMap fun e => copiesOn built (r.chainOf e)).Nodup := by
  have same : (plan.bypasses.edges.flatMap fun e => copiesOn built (r.chainOf e)) =
      built.flatMap fun b => b.links.map Link.copy := by
    have all : plan.bypasses.edges.map (fun e => copiesOn built (r.chainOf e)) =
        built.map fun b => b.links.map Link.copy := by
      calc
        _ = (plan.bypasses.edges.map r.chainOf).map (copiesOn built) := by
          rw [List.map_map]
          rfl
        _ = (built.map BuiltChain.chain).map (copiesOn built) := by rw [h.chains_eq copies]
        _ = built.map fun b => b.links.map Link.copy := by
          rw [List.map_map]
          exact List.map_congr_left fun b hb => h.copiesOn_eq copies hb
    rw [List.flatMap_def, List.flatMap_def, all]
  rw [same]
  refine h.rewritten.nodes_nodup.sublist (List.Sublist.flatMap_right built fun b _ => ?_)
  rw [List.map_eq_flatMap]
  exact List.Sublist.flatMap_right _ fun l _ => List.sublist_append_right _ _

end Chains

section Legalized

variable {r out : Region} {o : Options} {plan : Plan} {built : List BuiltChain} {s : Forwarding}
  {b : BuiltChain} {l : Link} {p : NodeId} {v : ValueId}

theorem Region.Threaded.unwired (h : r.Threaded o plan built s) (sw : r.SingleWriter)
    (hp : p ∈ r.body) (loop : r.isLoop p = true) (writes : r.Touches p v .write) :
    chainTo built p v = none := by
  cases hf : chainTo built p v with
  | none => rfl
  | some b =>
    obtain ⟨_, hb, hconsumer, rfl⟩ := rewired_of_some hf
    obtain ⟨_, _, feeds, _⟩ := h.edge hb
    have hq := feeds.mem_left
    exfalso
    rcases sw.feeds_cases feeds with ⟨_, loop', writes'⟩ | ⟨_, _, results⟩
    · have same := sw.oneLoop p hp _ hq loop loop' _ writes writes'
      exact feeds.ne h.wf.toNested (hconsumer.trans same)
    · exact sw.noResult p hp loop _ writes _ hq feeds.isDataflow_left results

/-- Each consumer has one chain for each value that is carried to it. -/
theorem Region.Threaded.first_chain (h : r.Threaded o plan built s) (sw : r.SingleWriter)
    (copies : o.insertCopy = true) (hb : b ∈ built) :
    chainTo built b.chain.consumer b.chain.carrier.id = some b := by
  cases hf : chainTo built b.chain.consumer b.chain.carrier.id with
  | none =>
    have := List.find?_eq_none.mp hf b hb
    simp [CopyChain.carries] at this
  | some b' =>
    obtain ⟨_, hb', hconsumer, hid⟩ := rewired_of_some hf
    obtain ⟨_, _, feeds, _⟩ := h.edge hb
    obtain ⟨_, _, feeds', _⟩ := h.edge hb'
    obtain ⟨hproducer, hcarrier⟩ := sw.producer_unique h.wf feeds' feeds hid
    obtain ⟨e, he, hchain⟩ := h.bypass_of_chain copies hb
    obtain ⟨e', he', hchain'⟩ := h.bypass_of_chain copies hb'
    rw [← hchain, ← hchain'] at hconsumer hproducer hcarrier
    have same := h.sound.bypass_ext he' he hproducer hcarrier hconsumer
    rw [same, hchain] at hchain'
    rw [List.inj_on_of_nodup_map (h.chains_nodup copies) hb hb' hchain']

/-- A chain is entered from its producer only. -/
theorem Region.Threaded.enters (h : r.Threaded o plan built s) (sw : r.SingleWriter)
    (hb : b ∈ built) (hp : p ∈ r.body) (offers : r.Stores p b.chain.carrier.id ∨
      r.isDataflow p = true ∧ b.chain.carrier.id ∈ r.results p) : p = b.chain.producer := by
  obtain ⟨_, _, feeds, _⟩ := h.edge hb
  have hq := feeds.mem_left
  rcases offers with stores | ⟨scheduled, results⟩ <;>
    rcases sw.feeds_cases feeds with ⟨_, loop', writes'⟩ | ⟨_, _, results'⟩
  · obtain ⟨loop, writes⟩ := sw.writes hp stores
    exact sw.oneLoop p hp _ hq loop loop' _ writes writes'
  · obtain ⟨loop, writes⟩ := sw.writes hp stores
    exact absurd results' (sw.noResult p hp loop _ writes _ hq feeds.isDataflow_left)
  · exact absurd results (sw.noResult _ hq loop' _ writes' p hp scheduled)
  · exact h.wf.sound.result_unique results results'

theorem Region.Threaded.leaves_producer (h : r.Threaded o plan built s) (sw : r.SingleWriter)
    (hb : b ∈ built) (hl : b.links.head? = some l) :
    r.Relinked plan.levels.get? built b.chain.producer l.copy := by
  obtain ⟨_, _, feeds, _⟩ := h.edge hb
  have hp := feeds.mem_left
  rcases sw.feeds_cases feeds with ⟨_, loop, writes⟩ | ⟨_, noLoop, results⟩
  · exact .stored hb hl hp (Or.inl ⟨loop, writes⟩) (h.unwired sw hp loop writes)
      (h.level_head hb hl) (Or.inl (Nat.lt_succ_self _))
  · exact .computed hb hl hp feeds.isDataflow_left noLoop results
      (feeds.shaped h.wf.toCoherent)

/-- Without array copies, only what was a dependence before can be one of two old nodes. -/
theorem Region.SingleWriter.no_awaits (sw : r.SingleWriter) {c : NodeId} (hp : p ∈ r.body)
    (hc : c ∈ r.body) : ¬ r.Awaits p v c := by
  rintro (⟨_, _, copies⟩ | ⟨target, _⟩)
  · simp [sw.no_copiesOut hc] at copies
  · simp [sw.noCopy p hp] at target

theorem BuiltChain.pair_infix_iff (b : BuiltChain) (ne : b.links ≠ []) {c : NodeId} :
    [p, c] <:+: b.chain.producer :: b.links.map Link.copy ++ [b.chain.consumer] ↔
      (p = b.chain.producer ∧ ∃ l, b.links.head? = some l ∧ l.copy = c) ∨
      (∃ k l, [k, l] <:+: b.links ∧ k.copy = p ∧ l.copy = c) ∨
      ((∃ l, b.links.getLast? = some l ∧ l.copy = p) ∧ b.chain.consumer = c) := by
  have inner : [p, c] <:+: b.links.map Link.copy ↔
      ∃ k l, [k, l] <:+: b.links ∧ k.copy = p ∧ l.copy = c := by
    rw [List.infix_map_iff]
    constructor
    · rintro ⟨pair, hpair, he⟩
      have two : pair.length = 2 := by
        have := congrArg List.length he
        simpa using this.symm
      obtain ⟨k, l, rfl⟩ := List.length_eq_two.mp two
      simp only [List.map_cons, List.map_nil, List.cons.injEq, and_true] at he
      exact ⟨k, l, hpair, he.1.symm, he.2.symm⟩
    · rintro ⟨k, l, hkl, rfl, rfl⟩
      exact ⟨[k, l], hkl, rfl⟩
  rw [pair_infix_path (by simpa using ne), inner, List.head?_map, List.getLast?_map,
    Option.map_eq_some_iff, Option.map_eq_some_iff]

/-- The path that takes the place of an edge runs along the links of its chain. -/
theorem Region.Threaded.path_iff (h : r.Threaded o plan built s) (copies : o.insertCopy = true)
    {c : NodeId} :
    (∃ e ∈ plan.bypasses.edges,
      [p, c] <:+: e.producer :: copiesOn built (r.chainOf e) ++ [e.consumer]) ↔
    ∃ b ∈ built, (p = b.chain.producer ∧ ∃ l, b.links.head? = some l ∧ l.copy = c) ∨
      (∃ k l, [k, l] <:+: b.links ∧ k.copy = p ∧ l.copy = c) ∨
      ((∃ l, b.links.getLast? = some l ∧ l.copy = p) ∧ b.chain.consumer = c) := by
  constructor
  · rintro ⟨e, he, hpath⟩
    obtain ⟨b, hb, hchain⟩ := h.chain_of_bypass copies he
    have producer : b.chain.producer = e.producer := congrArg CopyChain.producer hchain
    have consumer : b.chain.consumer = e.consumer := congrArg CopyChain.consumer hchain
    rw [← hchain, h.copiesOn_eq copies hb, ← producer, ← consumer] at hpath
    exact ⟨b, hb, (b.pair_infix_iff (h.rewritten.ready b hb).2).mp hpath⟩
  · rintro ⟨b, hb, hpath⟩
    obtain ⟨e, he, hchain⟩ := h.bypass_of_chain copies hb
    have producer : e.producer = b.chain.producer := congrArg CopyChain.producer hchain
    have consumer : e.consumer = b.chain.consumer := congrArg CopyChain.consumer hchain
    refine ⟨e, he, ?_⟩
    rw [hchain, h.copiesOn_eq copies hb, producer, consumer]
    exact (b.pair_infix_iff (h.rewritten.ready b hb).2).mpr hpath

theorem Region.Threaded.chainTo_ne_none (h : r.Threaded o plan built s)
    (copies : o.insertCopy = true) {e : Bypass} (he : e ∈ plan.bypasses.edges) :
    chainTo built e.consumer e.carrier.id ≠ none := by
  intro hf
  obtain ⟨b, hb, hchain⟩ := h.chain_of_bypass copies he
  have := List.find?_eq_none.mp hf b hb
  simp [CopyChain.carries, hchain, Region.chainOf] at this

theorem Region.Threaded.subdivided_iff (h : r.Threaded o plan built s) (sw : r.SingleWriter)
    (copies : o.insertCopy = true) {c : NodeId} :
    r.Relinked plan.levels.get? built p c ↔
      (∃ carrier, r.Feeds p carrier c ∧ ∀ e ∈ plan.bypasses.edges,
        ¬ (e.producer = p ∧ e.carrier = carrier ∧ e.consumer = c)) ∨
      ∃ e ∈ plan.bypasses.edges,
        [p, c] <:+: e.producer :: copiesOn built (r.chainOf e) ++ [e.consumer] := by
  rw [h.path_iff copies]
  constructor
  · intro relinked
    cases relinked with
    | @kept _ _ carrier feeds reads _ =>
      refine Or.inl ⟨carrier, feeds, ?_⟩
      rintro e he ⟨rfl, rfl, rfl⟩
      exact h.chainTo_ne_none copies he reads
    | overtaken awaits earlier =>
      exact absurd awaits (sw.no_awaits earlier.mem_right earlier.mem_left)
    | stored hb hl hp stores =>
      exact Or.inr ⟨_, hb, Or.inl ⟨h.enters sw hb hp (Or.inl stores), _, hl, rfl⟩⟩
    | computed hb hl hp scheduled _ results =>
      exact Or.inr ⟨_, hb,
        Or.inl ⟨h.enters sw hb hp (Or.inr ⟨scheduled, results⟩), _, hl, rfl⟩⟩
    | handed hb hkl => exact Or.inr ⟨_, hb, Or.inr (Or.inl ⟨_, _, hkl, rfl, rfl⟩)⟩
    | delivered hb hl => exact Or.inr ⟨_, hb, Or.inr (Or.inr ⟨⟨_, hl, rfl⟩, rfl⟩)⟩
  · rintro (⟨carrier, feeds, direct⟩ | ⟨b, hb, ⟨rfl, l, hl, rfl⟩ | ⟨k, l, hkl, rfl, rfl⟩ |
      ⟨⟨l, hl, rfl⟩, rfl⟩⟩)
    · refine .kept feeds ?_ fun memory => ?_
      · cases hf : chainTo built c carrier.id with
        | none => rfl
        | some b =>
          obtain ⟨_, hb, hconsumer, hid⟩ := rewired_of_some hf
          obtain ⟨_, _, feeds', _⟩ := h.edge hb
          obtain ⟨hproducer, hcarrier⟩ := sw.producer_unique h.wf feeds' feeds hid
          obtain ⟨e, he, hchain⟩ := h.bypass_of_chain copies hb
          rw [← hchain] at hproducer hcarrier hconsumer
          exact absurd ⟨hproducer, hcarrier, hconsumer⟩ (direct e he)
      · rcases sw.feeds_cases feeds with ⟨_, loop, writes⟩ | ⟨noMemory, _, _⟩
        · exact h.unwired sw feeds.mem_left loop writes
        · simp [memory] at noMemory
    · exact h.leaves_producer sw hb hl
    · exact .handed hb hkl
    · exact .delivered hb hl (h.first_chain sw copies hb)

/-- A dependence that no chain carries drops by one level. -/
theorem Region.Threaded.kept_drops (h : r.Threaded o plan built s) (copies : o.insertCopy = true)
    {c : NodeId} {carrier : Carrier} (feeds : r.Feeds p carrier c)
    (reads : chainTo built c carrier.id = none) : ∃ lower,
      plan.levels.get? p = some (lower + 1) ∧ plan.levels.get? c = some lower := by
  obtain ⟨upper, lower, hu, hl, hlt, _⟩ := h.sound.drops p carrier c feeds
  rcases Nat.lt_or_ge (lower + 1) upper with skips | steps
  · have he : (⟨p, carrier, c, upper - 1, lower⟩ : Bypass) ∈ plan.bypasses.edges := by
      refine (h.sound.skips _).mpr ⟨feeds, ?_, hl, ?_⟩
      · rw [hu]
        congr 1
        change upper = upper - 1 + 1
        omega
      · change lower < upper - 1
        omega
    exact absurd reads (h.chainTo_ne_none copies he)
  · obtain rfl : upper = lower + 1 := by omega
    exact ⟨lower, hu, hl⟩

/-- In a region with a single writer for each value, every dependence drops by one level once the
copies are there. -/
theorem Region.Threaded.single_drops (h : r.Threaded o plan built s) (sw : r.SingleWriter)
    (copies : o.insertCopy = true) {c : NodeId}
    (relinked : r.Relinked plan.levels.get? built p c) : ∃ lower,
      s.region.level? p = some (lower + 1) ∧ s.region.level? c = some lower := by
  have old : ∀ {n : NodeId}, n ∈ r.body → s.region.level? n = plan.levels.get? n := fun hn =>
    h.level_old (h.wf.bodyKnown _ hn)
  cases relinked with
  | kept feeds reads _ =>
    obtain ⟨lower, hu, hl⟩ := h.kept_drops copies feeds reads
    exact ⟨lower, (old feeds.mem_left).trans hu, (old feeds.mem_right).trans hl⟩
  | overtaken awaits earlier =>
    exact absurd awaits (sw.no_awaits earlier.mem_right earlier.mem_left)
  | @stored _ b l _ hb hl hp stores =>
    obtain rfl := h.enters sw hb hp (Or.inl stores)
    exact ⟨l.level, (old hp).trans (h.level_head hb hl),
      h.level_copy hb (List.mem_of_mem_head? hl)⟩
  | @computed _ b l hb hl hp scheduled _ results =>
    obtain rfl := h.enters sw hb hp (Or.inr ⟨scheduled, results⟩)
    exact ⟨l.level, (old hp).trans (h.level_head hb hl),
      h.level_copy hb (List.mem_of_mem_head? hl)⟩
  | @handed b k l hb hkl =>
    have before : Before b.links k l := hkl.sublist
    exact ⟨l.level, by rw [h.level_copy hb before.mem_left, h.level_next hb hkl],
      h.level_copy hb before.mem_right⟩
  | @delivered b l hb hl =>
    obtain ⟨lower, hlow, hlevel⟩ := h.level_last hb hl
    exact ⟨lower, by rw [h.level_copy hb (List.mem_of_getLast? hl), hlevel],
      (old (h.rewritten.consumers b hb)).trans hlow⟩

theorem Region.Legalized.subdivides (h : r.Legalized o plan built s out) (sw : r.SingleWriter)
    (copies : o.insertCopy = true) :
    plan.Subdivides r o (fun e => copiesOn built (r.chainOf e)) s.region out := by
  have threaded := h.threaded
  have drops := fun (p c : NodeId) (hpc : out.HasEdge p c) =>
    threaded.single_drops sw copies (h.hasEdge_iff.mp hpc)
  refine ⟨fun e he n hn => ?_, threaded.copies_nodup copies, fun e he => ?_, fun p c => ?_,
    fun p c hpc => ?_, fun p c hpc => ?_⟩
  · obtain ⟨b, hb, hchain⟩ := threaded.chain_of_bypass copies he
    rw [← hchain, threaded.copiesOn_eq copies hb] at hn
    obtain ⟨l, hl, rfl⟩ := List.mem_map.mp hn
    exact h.inserted hb hl
  · obtain ⟨b, hb, hchain⟩ := threaded.chain_of_bypass copies he
    obtain ⟨_, hu, hl, hlt⟩ := (threaded.sound.skips e).mp he
    refine ⟨e.upper + 1, e.lower, hu, hl, ?_⟩
    have levels := threaded.levels b hb
    rw [hchain, Region.chainOf_levels r hlt] at levels
    have length := congrArg List.length levels
    rw [List.length_map] at length
    simp only [← hchain, threaded.copiesOn_eq copies hb, List.length_map, length, levelsDown,
      List.length_range]
    omega
  · rw [h.hasEdge_iff, threaded.subdivided_iff sw copies]
    refine or_congr_left ⟨?_, ?_⟩
    · rintro ⟨carrier, feeds, direct⟩
      exact ⟨⟨carrier, c⟩, threaded.wf.mem_deps.mpr feeds, rfl, direct⟩
    · rintro ⟨d, hd, rfl, direct⟩
      exact ⟨d.carrier, threaded.wf.mem_deps.mp hd, direct⟩
  · obtain ⟨lower, hu, hl⟩ := drops p c hpc
    exact ⟨lower + 1, lower, hu, hl, rfl⟩
  · obtain ⟨lower, hu, hl⟩ := drops p c hpc
    obtain ⟨_, feeds⟩ := h.wellFormed.hasEdge_iff.mp hpc
    have hp := feeds.mem_left
    have hc := feeds.mem_right
    refine ⟨_, _, by rw [h.level p hp, hu]; rfl, by rw [h.level c hc, hl]; rfl, ?_⟩
    exact o.stepsDown_succ plan.bypasses.merges (threaded.positive (h.mem_body.mp hc) hl)

end Legalized

/-- Making a region with a single writer for each value legal subdivides its dependences. -/
theorem legalize_subdivides {r out : Region} {o : Options} {report : Report}
    (reachable : r.Reachable) (sw : r.SingleWriter) (copies : o.insertCopy = true)
    (h : r.legalize o = .ok (report, out)) : ∃ plan mid forwarded via, r.plan o = .ok plan ∧
      r.forward plan.levels plan.bypasses = some (mid, forwarded) ∧
      plan.Subdivides r o via mid out := by
  obtain ⟨plan, built, s, hplan, hforward, legal⟩ := reachable.wellFormed.legalize h
  exact ⟨plan, s.region, s.done, _, hplan, hforward, legal.subdivides sw copies⟩

/-- A source text in which what a loop writes is read by two others, of which one feeds the
other. -/
def sharedBufferSource : String :=
  "func @k(%s: i1, %m: memref<1xi1>, %p: memref<1xi1>) \x7b
    for %i = 0 to 4 \x7b store %s, %m
    \x7d
    for %j = 0 to 4 \x7b %v = load %m : i1
      store %v, %p
    \x7d
    for %l = 0 to 4 \x7b %w = load %m : i1
      %x = load %p : i1
    \x7d
  \x7d"

theorem legalize_subdivides_sharedBuffer : ∃ loaded r report out plan mid forwarded via,
    load sharedBufferSource = .ok loaded ∧ r ∈ loaded.regions ∧ r.SingleWriter ∧
      r.legalize ⟨true, 1⟩ = .ok (report, out) ∧ r.body.length < out.body.length ∧
      r.plan ⟨true, 1⟩ = .ok plan ∧
      r.forward plan.levels plan.bypasses = some (mid, forwarded) ∧
      plan.Subdivides r ⟨true, 1⟩ via mid out := by
  obtain ⟨loaded, hload, r, hr, report, out, hlegal, test⟩ :=
    @exists_of_anyLegalized sharedBufferSource _ (by rfl) ⟨true, 1⟩
      (fun r out => r.isSingleWriter && r.body.length < out.body.length) (by decide +kernel)
  simp only [Bool.and_eq_true, decide_eq_true_eq] at test
  have sw := (load_wellFormed hload r hr).isSingleWriter_iff.mp test.1
  obtain ⟨plan, mid, forwarded, via, hplan, hforward, subdivides⟩ :=
    legalize_subdivides (.load hload hr) sw rfl hlegal
  exact ⟨loaded, r, report, out, plan, mid, forwarded, via, hload, hr, sw, hlegal, test.2, hplan,
    hforward, subdivides⟩

end Staging
