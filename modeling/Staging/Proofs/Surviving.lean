import Staging.Proofs.Certified
import Staging.Proofs.Relinking

namespace Staging

/-- The dependences of a region lead from one node to another. -/
def Region.HasEdge (r : Region) (p c : NodeId) : Prop :=
  ∃ e, (p, e) ∈ r.deps.toList ∧ e.consumer = c

/-- A copy that a region did not have before it was made legal. -/
def Region.Inserted (r out : Region) (n : NodeId) : Prop :=
  r.nodes.size ≤ n.index ∧ out.kind? n = some .copy

/-- A path along the dependences of `out` between whose ends there are only inserted copies. -/
inductive Region.ThroughCopies (r out : Region) : NodeId → NodeId → Prop
  | edge {p c : NodeId} (h : out.HasEdge p c) : ThroughCopies r out p c
  | step {p n c : NodeId} (h : out.HasEdge p n) (inserted : r.Inserted out n)
      (rest : ThroughCopies r out n c) : ThroughCopies r out p c

/-- The first chain of a plan that carries a value to a node. -/
def Bypasses.chainTo? (b : Bypasses) (t : NodeId) (v : ValueId) : Option CopyChain :=
  b.chains.find? fun chain => chain.carries t v

/-- What keeps a dependence of `c` on `p` when a plan is carried out. -/
inductive Plan.Keeps (r : Region) (plan : Plan) (p c : NodeId) : Prop
  /-- By way of some value the two do not depend on each other through a chain, and if it is a
  buffer, the producer still writes it. -/
  | direct {carrier : Carrier} (feeds : r.Feeds p carrier c)
      (reads : plan.bypasses.chainTo? c carrier.id = none)
      (writes : carrier.isMemory = true → plan.bypasses.chainTo? p carrier.id = none)
  /-- The chain that the consumer reads starts no higher than the producer, which still writes
  what the chain carries. -/
  | stored {chain : CopyChain} {top level : Nat}
      (first : plan.bypasses.chainTo? c chain.carrier.id = some chain)
      (start : chain.levels.head? = some top) (stores : r.Stores p chain.carrier.id)
      (writes : plan.bypasses.chainTo? p chain.carrier.id = none)
      (planned : plan.levels.get? p = some level) (ahead : top ≤ level)
  /-- The chain that the consumer reads carries a result of the producer. -/
  | computed {chain : CopyChain}
      (first : plan.bypasses.chainTo? c chain.carrier.id = some chain)
      (noLoop : r.isLoop p = false) (results : chain.carrier.id ∈ r.results p)

theorem Region.Nested.hasEdge_iff {r : Region} (nested : r.Nested) {p c : NodeId} :
    r.HasEdge p c ↔ ∃ carrier, r.Feeds p carrier c := by
  constructor
  · rintro ⟨e, he, rfl⟩
    exact ⟨e.carrier, nested.mem_deps.mp he⟩
  · rintro ⟨carrier, feeds⟩
    exact ⟨⟨carrier, c⟩, nested.mem_deps.mpr feeds, rfl⟩

theorem Region.ThroughCopies.leaves {r out : Region} {p c : NodeId}
    (h : r.ThroughCopies out p c) : ∃ n, out.HasEdge p n := by
  cases h with
  | edge h => exact ⟨c, h⟩
  | step h => exact ⟨_, h⟩

section Legalized

variable {r out : Region} {o : Options} {plan : Plan} {built : List BuiltChain} {s : Forwarding}
  {b : BuiltChain} {l : Link} {p c : NodeId} {v : ValueId}

theorem Region.Threaded.chainTo_map (h : r.Threaded o plan built s) (t : NodeId) (v : ValueId) :
    (chainTo built t v).map BuiltChain.chain = plan.bypasses.chainTo? t v := by
  rw [Bypasses.chainTo?, ← h.chains, List.find?_map]
  rfl

theorem Region.Threaded.chainTo_eq_none (h : r.Threaded o plan built s) (t : NodeId)
    (v : ValueId) : chainTo built t v = none ↔ plan.bypasses.chainTo? t v = none := by
  rw [← h.chainTo_map, Option.map_eq_none_iff]

theorem Region.Threaded.start_eq (h : r.Threaded o plan built s) (hb : b ∈ built)
    (hl : b.links.head? = some l) : b.chain.levels.head? = some l.level := by
  rw [← h.levels b hb, List.head?_map, hl]
  rfl

theorem Region.Legalized.hasEdge_iff (h : r.Legalized o plan built s out) :
    out.HasEdge p c ↔ r.Relinked plan.levels.get? built p c := by
  rw [h.wellFormed.hasEdge_iff, h.feeds_iff]

theorem Region.Legalized.inserted (h : r.Legalized o plan built s out) (hb : b ∈ built)
    (hl : l ∈ b.links) : r.Inserted out l.copy := by
  obtain ⟨_, _, link⟩ := h.rewritten.hasLink hb hl
  exact ⟨(h.rewritten.copy_new hb hl).1, link.kind⟩

/-- From any copy of a chain that a consumer reads, the copies lead to it. -/
theorem Region.Legalized.through_chain (h : r.Legalized o plan built s out) (hb : b ∈ built)
    (first : chainTo built b.chain.consumer b.chain.carrier.id = some b) {links : List Link}
    (suffix : l :: links <:+ b.links) : r.ThroughCopies out l.copy b.chain.consumer := by
  induction links generalizing l with
  | nil =>
    obtain ⟨before, hlinks⟩ := suffix
    exact .edge (h.hasEdge_iff.mpr (.delivered hb (by simp [← hlinks]) first))
  | cons k links ih =>
    have pair : [l, k] <:+: b.links := by
      obtain ⟨before, hlinks⟩ := suffix
      exact ⟨before, links, by simp [← hlinks]⟩
    refine .step (h.hasEdge_iff.mpr (.handed hb pair))
      (h.inserted hb (Before.mem_right pair.sublist)) (ih ?_)
    exact (List.suffix_cons l (k :: links)).trans suffix

theorem Region.Legalized.ne_copy (h : r.Legalized o plan built s out) {n : NodeId}
    (hn : n ∈ r.body) (hb : b ∈ built) (hl : l ∈ b.links) : n ≠ l.copy := by
  rintro rfl
  have low := h.threaded.wf.bodyKnown _ hn
  have high := (h.rewritten.copy_new hb hl).1
  omega

theorem Region.Legalized.relinked_copy (h : r.Legalized o plan built s out) (hb : b ∈ built)
    (hl : l ∈ b.links) {n : NodeId} (relinked : r.Relinked plan.levels.get? built l.copy n) :
    (∃ k ∈ b.links, n = k.copy) ∨
      n = b.chain.consumer ∧ chainTo built n b.chain.carrier.id = some b := by
  generalize hx : l.copy = x at relinked
  cases relinked with
  | kept feeds => exact absurd hx.symm (h.ne_copy feeds.mem_left hb hl)
  | overtaken _ earlier => exact absurd hx.symm (h.ne_copy earlier.mem_right hb hl)
  | stored _ _ hp => exact absurd hx.symm (h.ne_copy hp hb hl)
  | computed _ _ hp => exact absurd hx.symm (h.ne_copy hp hb hl)
  | handed hb' hkl =>
    have before := hkl.sublist
    obtain ⟨rfl, rfl⟩ := h.rewritten.link_of_copy hb hb' hl (Before.mem_left before) hx
    exact Or.inl ⟨_, Before.mem_right before, rfl⟩
  | delivered hb' hlast first =>
    obtain ⟨rfl, rfl⟩ := h.rewritten.link_of_copy hb hb' hl (List.mem_of_getLast? hlast) hx
    exact Or.inr ⟨rfl, first⟩

/-- Only a consumer that reads a chain can be reached from the copies of it. -/
theorem Region.Legalized.reads_of_through (h : r.Legalized o plan built s out)
    (hc : c ∈ r.body) {n : NodeId} (through : r.ThroughCopies out n c) (hb : b ∈ built)
    (hl : l ∈ b.links) (hn : n = l.copy) :
    b.chain.consumer = c ∧ chainTo built c b.chain.carrier.id = some b := by
  induction through generalizing l with
  | edge hedge =>
    subst hn
    rcases h.relinked_copy hb hl (h.hasEdge_iff.mp hedge) with ⟨k, hk, rfl⟩ | ⟨rfl, first⟩
    · exact absurd rfl (h.ne_copy hc hb hk)
    · exact ⟨rfl, first⟩
  | step hedge inserted _ ih =>
    subst hn
    rcases h.relinked_copy hb hl (h.hasEdge_iff.mp hedge) with ⟨k, hk, rfl⟩ | ⟨rfl, _⟩
    · exact ih hc hk rfl
    · have low := h.threaded.wf.bodyKnown _ (h.rewritten.consumers b hb)
      have high := inserted.1
      omega

theorem Region.Legalized.keeps_of_throughCopies (h : r.Legalized o plan built s out)
    {carrier : Carrier} (feeds : r.Feeds p carrier c) (through : r.ThroughCopies out p c) :
    plan.Keeps r p c := by
  have hp := feeds.mem_left
  have hc := feeds.mem_right
  obtain ⟨_, _, _, _, _, hpc⟩ := h.threaded.sound.drops p carrier c feeds
  have free := h.threaded.chainTo_eq_none
  have entered : ∀ {b : BuiltChain} {l : Link} {n : NodeId}, b ∈ built →
      b.links.head? = some l → n = l.copy → r.ThroughCopies out n c →
      plan.bypasses.chainTo? c b.chain.carrier.id = some b.chain ∧ b.chain.consumer = c := by
    intro b l n hb hl hn rest
    obtain ⟨hconsumer, first⟩ := h.reads_of_through hc rest hb (List.mem_of_mem_head? hl) hn
    exact ⟨by rw [← h.threaded.chainTo_map, first]; rfl, hconsumer⟩
  cases through with
  | edge hedge =>
    cases h.hasEdge_iff.mp hedge with
    | kept feeds reads writes =>
      exact .direct feeds ((free c _).mp reads) fun hm => (free p _).mp (writes hm)
    | overtaken _ earlier => exact absurd earlier (hpc.asymm h.threaded.wf.bodyNodup)
    | stored hb hl => exact absurd rfl (h.ne_copy hc hb (List.mem_of_mem_head? hl))
    | computed hb hl => exact absurd rfl (h.ne_copy hc hb (List.mem_of_mem_head? hl))
    | handed hb hkl => exact absurd rfl (h.ne_copy hc hb (Before.mem_right hkl.sublist))
    | delivered hb hl => exact absurd rfl (h.ne_copy hp hb (List.mem_of_getLast? hl))
  | step hedge inserted rest =>
    have known : ∀ {m : NodeId}, m ∈ r.body → ¬ r.Inserted out m := by
      intro m hm hins
      have low := h.threaded.wf.bodyKnown m hm
      have high := hins.1
      omega
    cases h.hasEdge_iff.mp hedge with
    | kept feeds => exact absurd inserted (known feeds.mem_right)
    | overtaken _ earlier => exact absurd inserted (known earlier.mem_left)
    | stored hb hl _ stores writes hu ahead =>
      obtain ⟨first, rfl⟩ := entered hb hl rfl rest
      refine .stored first (h.threaded.start_eq hb hl) stores ((free p _).mp writes) hu ?_
      rcases ahead with hlt | ⟨heq, _⟩
      · exact hlt.le
      · exact heq.le
    | computed hb hl _ _ noLoop results =>
      obtain ⟨first, rfl⟩ := entered hb hl rfl rest
      exact .computed first noLoop results
    | handed hb hkl => exact absurd rfl (h.ne_copy hp hb (Before.mem_left hkl.sublist))
    | delivered hb hl => exact absurd rfl (h.ne_copy hp hb (List.mem_of_getLast? hl))

/-- From the first copy of the chain that a node reads, there is a way down the chain to it. -/
theorem Region.Legalized.through_chainTo (h : r.Legalized o plan built s out) {chain : CopyChain}
    (first : plan.bypasses.chainTo? c chain.carrier.id = some chain) :
    ∃ b ∈ built, b.chain = chain ∧ b.chain.consumer = c ∧ ∃ l, b.links.head? = some l ∧
      r.ThroughCopies out l.copy c := by
  rw [← h.threaded.chainTo_map] at first
  obtain ⟨b, hb, rfl⟩ := Option.map_eq_some_iff.mp first
  obtain ⟨_, hbuilt, rfl, _⟩ := rewired_of_some hb
  cases hlinks : b.links with
  | nil => exact absurd hlinks (h.rewritten.ready b hbuilt).2
  | cons l links =>
    have whole : l :: links <:+ b.links := by
      rw [hlinks]
    exact ⟨b, hbuilt, rfl, rfl, l, by simp [hlinks], h.through_chain hbuilt hb whole⟩

theorem Region.Legalized.throughCopies_of_keeps (h : r.Legalized o plan built s out)
    {carrier : Carrier} (feeds : r.Feeds p carrier c) (keeps : plan.Keeps r p c) :
    r.ThroughCopies out p c := by
  have free := h.threaded.chainTo_eq_none
  rcases keeps with ⟨feeds, reads, writes⟩ | ⟨first, start, stores, writes, planned, ahead⟩ |
    ⟨first, noLoop, results⟩
  · exact .edge (h.hasEdge_iff.mpr
      (.kept feeds ((free c _).mpr reads) fun hm => (free p _).mpr (writes hm)))
  · obtain ⟨_, _, _, _, _, hpc⟩ := h.threaded.sound.drops p carrier c feeds
    obtain ⟨b, hb, rfl, rfl, l, hl, rest⟩ := h.through_chainTo first
    have hlevel := (h.threaded.start_eq hb hl).symm.trans start
    cases hlevel
    refine .step (h.hasEdge_iff.mpr (.stored hb hl feeds.mem_left stores ((free p _).mpr writes)
      planned ?_)) (h.inserted hb (List.mem_of_mem_head? hl)) rest
    rcases Nat.lt_or_eq_of_le ahead with hlt | heq
    · exact Or.inl hlt
    · exact Or.inr ⟨heq, hpc⟩
  · obtain ⟨b, hb, rfl, rfl, l, hl, rest⟩ := h.through_chainTo first
    obtain ⟨_, _, carried, _⟩ := h.threaded.edge hb
    exact .step (h.hasEdge_iff.mpr (.computed hb hl feeds.mem_left feeds.isDataflow_left noLoop
      results (carried.shaped h.threaded.wf.toCoherent)))
        (h.inserted hb (List.mem_of_mem_head? hl)) rest

/-- A dependence survives just where the plan keeps it. -/
theorem Region.Legalized.throughCopies_iff (h : r.Legalized o plan built s out)
    {carrier : Carrier} (feeds : r.Feeds p carrier c) :
    r.ThroughCopies out p c ↔ plan.Keeps r p c :=
  ⟨h.keeps_of_throughCopies feeds, h.throughCopies_of_keeps feeds⟩

end Legalized

/-- Of the dependences of a region, just those survive that its plan keeps. -/
theorem legalize_survives_iff {r out : Region} {o : Options} {report : Report}
    (reachable : r.Reachable) (h : r.legalize o = .ok (report, out)) :
    ∃ plan, r.plan o = .ok plan ∧ ∀ p e, (p, e) ∈ r.deps.toList →
      (r.ThroughCopies out p e.consumer ↔ plan.Keeps r p e.consumer) := by
  have wf := reachable.wellFormed
  obtain ⟨plan, _, _, hplan, _, legal⟩ := wf.legalize h
  exact ⟨plan, hplan, fun p e he => legal.throughCopies_iff (wf.mem_deps.mp he)⟩

theorem legalize_survives_iff_forwarded : ∃ loaded r report out plan,
    load skippingSource = .ok loaded ∧ r ∈ loaded.regions ∧
      r.legalize ⟨true, 1⟩ = .ok (report, out) ∧ r.body.length < out.body.length ∧
      r.plan ⟨true, 1⟩ = .ok plan ∧ ∀ p e, (p, e) ∈ r.deps.toList →
        (r.ThroughCopies out p e.consumer ↔ plan.Keeps r p e.consumer) := by
  obtain ⟨loaded, hload, r, hr, report, out, hlegal, more⟩ :=
    @exists_of_anyLegalized skippingSource _ (by rfl) ⟨true, 1⟩
      (fun r out => r.body.length < out.body.length) (by decide +kernel)
  obtain ⟨plan, hplan, survives⟩ := legalize_survives_iff (.load hload hr) hlegal
  exact ⟨loaded, r, report, out, plan, hload, hr, hlegal, of_decide_eq_true more, hplan, survives⟩

/-- A source text in which two array copies fill the same buffer. The chain that carries what the
first one writes to the last node starts above the second one, whose target is carried to it, too. -/
def refilledSource : String :=
  "func @k(%s: memref<1xi1>, %m: memref<1xi1>) \x7b
    copy %s, %m
    %a = op \"x\"(%m) : tensor<1xi1>
    %b = op \"x\"(%a) : tensor<1xi1>
    copy %s, %m
    op \"x\"(%b, %m)
  \x7d"

/-- A dependence can be lost: the last node no longer depends on the second copy. -/
theorem legalize_loses_dependence : ∃ loaded r report out,
    load refilledSource = .ok loaded ∧ r ∈ loaded.regions ∧
      r.legalize ⟨true, 1⟩ = .ok (report, out) ∧
      (⟨3⟩, ⟨.memory ⟨1⟩, ⟨4⟩⟩) ∈ r.deps.toList ∧ ¬ r.ThroughCopies out ⟨3⟩ ⟨4⟩ := by
  obtain ⟨loaded, hload, r, hr, report, out, hlegal, test⟩ :=
    @exists_of_anyLegalized refilledSource _ (by rfl) ⟨true, 1⟩
      (fun r out => r.deps.toList.contains (⟨3⟩, ⟨.memory ⟨1⟩, ⟨4⟩⟩) &&
        out.deps.toList.all fun edge => edge.1 ≠ ⟨3⟩) (by decide +kernel)
  simp only [Bool.and_eq_true, List.contains_iff_mem, List.all_eq_true, decide_eq_true_eq] at test
  refine ⟨loaded, r, report, out, hload, hr, hlegal, test.1, fun through => ?_⟩
  obtain ⟨_, e, he, _⟩ := through.leaves
  exact test.2 _ he rfl

end Staging
