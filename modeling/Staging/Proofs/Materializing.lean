import Staging.Proofs.Altering
import Staging.Proofs.Certified

namespace Staging

/-- A copy that was put into `r` to make `s` of it writes `w`, and reads `v`. -/
def Region.CopiedFrom (r s : Region) (w v : ValueId) : Prop :=
  ∃ n, r.nodes.size ≤ n.index ∧ s.kind? n = some .copy ∧
    ((s.operands n = [v] ∧ s.results n = [w]) ∨ s.operands n = [v, w])

/-- Going back through the copies that were put into `r`, one comes from `w` to `v`, and no
further. -/
def Region.TracesTo (r s : Region) (w v : ValueId) : Prop :=
  Relation.ReflTransGen (r.CopiedFrom s) w v ∧ ∀ u, ¬ r.CopiedFrom s v u

/-- A region in which the planned chains have been built, and nothing else has been done. -/
structure Region.Materializes (r : Region) (plan : Plan) (built : List BuiltChain) (s : Region) :
    Prop where
  chains : built.map BuiltChain.chain = plan.bypasses.chains
  /-- There is a copy for each of the planned levels. -/
  levels : ∀ b ∈ built, b.links.map Link.level = b.chain.levels
  /-- The first copy reads the carrier, any other one what the copy before it writes. -/
  linked : ∀ b ∈ built, Linked b.chain.carrier.id b.links
  /-- What a copy writes has the type of the carrier. -/
  copies : ∀ b ∈ built, ∃ value, r.value? b.chain.carrier.id = some value ∧
    ∀ l ∈ b.links, s.HasLink value.type l ∧ s.level? l.copy = some l.level
  /-- Buffers stand first, and the copies for a consumer directly in front of it, in the order of
  the plan. -/
  body : s.body = newBuffers built ++ r.body.flatMap fun n => copiesFor built n ++ [n]
  /-- No nodes are new but the copies and their buffers. -/
  created : newNodes built =
    (List.range' r.nodes.size (s.nodes.size - r.nodes.size)).map NodeId.mk
  kept : ∀ n node, r.node? n = some node → ∃ new, s.node? n = some new ∧ new.kind = node.kind ∧
    new.results = node.results ∧ new.attrs = node.attrs ∧ new.span = node.span ∧
    new.parent = node.parent
  keptValues : s.args = r.args ∧ ∀ v value, r.value? v = some value → s.value? v = some value
  /-- A node reads the end of the first chain that carries a value to the node of the body that it
  is in, where there is one. -/
  operands : ∀ n ∈ r.attached,
    s.operands n = (r.operands n).map (rewired built (r.topLevel n))
  traced : ∀ n ∈ r.attached, ∀ (i : Nat) v, (r.operands n)[i]? = some v →
    ∃ w, (s.operands n)[i]? = some w ∧ r.TracesTo s w v
  /-- There is one way back. -/
  traceUnique : ∀ w u v, r.CopiedFrom s w u → r.CopiedFrom s w v → u = v

section Tracing

variable {r s : Region} {built : List BuiltChain} {v w : ValueId}

theorem endOf_cons (v : ValueId) (l : Link) (links : List Link) :
    endOf v (l :: links) = endOf l.target links := by
  cases links with
  | nil => rfl
  | cons k links => simp [endOf, List.getLast?_cons]

/-- The copies that were put into a region are those of the chains. -/
theorem Region.Rewritten.copiedFrom_iff (h : r.Rewritten built built s) :
    r.CopiedFrom s w v ↔ ∃ b ∈ built, ∃ l ∈ b.links, w = l.target ∧ v = l.source := by
  constructor
  -- A new node is a copy or its buffer, and a buffer is no copy.
  · rintro ⟨n, new, kind, writes⟩
    rcases h.new_cases new with ⟨b, hb, l, hl, rfl⟩ | ⟨b, hb, l, hl, buffer⟩ | unknown
    · obtain ⟨_, -, link⟩ := h.hasLink hb hl
      refine ⟨b, hb, l, hl, ?_⟩
      rw [link.operands, link.results] at writes
      cases hbuf : l.buffer
      all_goals
        simp [hbuf] at writes
        exact ⟨writes.2.symm, writes.1.symm⟩
    · obtain ⟨_, -, link⟩ := h.hasLink hb hl
      rw [(link.buffer n buffer).1] at kind
      cases kind
    · simp [Region.kind?, node?_eq_none unknown] at kind
  · rintro ⟨b, hb, l, hl, rfl, rfl⟩
    obtain ⟨_, -, link⟩ := h.hasLink hb hl
    refine ⟨l.copy, (h.copy_new hb hl).1, link.kind, ?_⟩
    rw [link.operands, link.results]
    cases l.buffer <;> simp

theorem Region.Rewritten.copiedFrom_unique (h : r.Rewritten built built s) {u : ValueId}
    (hu : r.CopiedFrom s w u) (hv : r.CopiedFrom s w v) : u = v := by
  obtain ⟨b, hb, l, hl, rfl, rfl⟩ := h.copiedFrom_iff.mp hu
  obtain ⟨b', hb', k, hk, same, rfl⟩ := h.copiedFrom_iff.mp hv
  rw [(h.link_of_target hb hb' hl hk same).2]

/-- What was there before is written by no new copy. -/
theorem Region.Rewritten.not_copiedFrom (h : r.Rewritten built built s)
    (known : w.index < r.values.size) : ¬ r.CopiedFrom s w v := by
  intro copied
  obtain ⟨b, hb, l, hl, rfl, -⟩ := h.copiedFrom_iff.mp copied
  have := h.target_new hb hl
  omega

/-- The end of linked copies leads back to their start. -/
theorem Region.copiedFrom_endOf {links : List Link}
    (copied : ∀ l ∈ links, r.CopiedFrom s l.target l.source) (linked : Linked v links) :
    Relation.ReflTransGen (r.CopiedFrom s) (endOf v links) v := by
  induction links generalizing v with
  | nil => exact .refl
  | cons l links ih =>
    obtain ⟨rfl, rest⟩ := linked
    rw [endOf_cons]
    exact (ih (fun k hk => copied k (List.mem_cons_of_mem l hk)) rest).tail (copied l (by simp))

theorem Region.Rewritten.traces (h : r.Rewritten built built s) (known : v.index < r.values.size)
    (t : NodeId) : r.TracesTo s (rewired built t v) v := by
  refine ⟨?_, fun u => h.not_copiedFrom known⟩
  cases hf : built.find? fun b => b.chain.carries t v with
  | none =>
    rw [rewired_of_none hf]
  | some b =>
    obtain ⟨he, hb, -, rfl⟩ := rewired_of_some hf
    rw [he]
    refine copiedFrom_endOf (fun l hl => ?_) (h.linked b hb)
    exact h.copiedFrom_iff.mpr ⟨b, hb, l, hl, rfl, rfl⟩

end Tracing

section Materializing

variable {r s : Region} {o : Options} {plan : Plan} {built : List BuiltChain}

/-- Once the chains have been built, the region is what the plan says. -/
theorem Region.Threaded.materializes {s : Forwarding} (h : r.Threaded o plan built s)
    (evolves : r.Evolves s.region) : r.Materializes plan built s.region := by
  have rew := h.rewritten
  have within : ∀ n ∈ r.attached, r.topLevel n ∈ r.body ∧ r.Within (r.topLevel n) n := by
    intro n hn
    obtain ⟨t, ht, hw⟩ := h.wf.toNested.forest.mem_attached.mp hn
    rw [h.wf.sound.topLevel_eq ht hw]
    exact ⟨ht, hw⟩
  have operands : ∀ n ∈ r.attached,
      s.region.operands n = (r.operands n).map (rewired built (r.topLevel n)) := fun n hn =>
    rew.operands _ (within n hn).1 n (within n hn).2
  constructor
  case chains => exact h.chains
  case levels => exact h.levels
  case linked => exact rew.linked
  case copies =>
    intro b hb
    obtain ⟨value, hv, links⟩ := rew.links b hb
    exact ⟨value, hv, fun l hl => ⟨links l hl, h.level_copy hb hl⟩⟩
  case body => exact h.built.body
  case created =>
    rw [rew.nodeCount, Nat.add_sub_cancel_left]
    exact rew.nodes
  case kept =>
    intro n node hn
    have known := index_lt_of_node? hn
    obtain ⟨new, hnew, attrs, span⟩ := evolves.node hn
    have kind := rew.kind n known
    have results := rew.results n known
    have parent := rew.parent n known
    simp only [Region.kind?, Region.results, Region.parent?, hn, hnew, Option.map_some,
      Option.getD_some, Option.bind_some, Option.some.injEq] at kind results parent
    exact ⟨new, hnew, kind, results, attrs, span, parent⟩
  case keptValues =>
    exact ⟨rew.args, fun v value hv => (rew.value v (index_lt_of_value? hv)).trans hv⟩
  case operands => exact operands
  case traced =>
    intro n hn i v hv
    obtain ⟨top, inside⟩ := within n hn
    have mentions : r.Mentions (r.topLevel n) v := ⟨n, inside, List.mem_of_getElem? hv⟩
    have known := h.wf.sound.known_of_mentions top mentions
    refine ⟨rewired built (r.topLevel n) v, ?_, rew.traces known _⟩
    rw [operands n hn, List.getElem?_map, hv]
    rfl
  case traceUnique => exact fun w u v => rew.copiedFrom_unique

end Materializing

/-- Forwarding builds the chains of a plan, and does nothing else. -/
theorem Region.forward_materializes {r : Region} {o : Options} {plan : Plan}
    (reachable : r.Reachable) (h : r.plan o = .ok plan) :
    ∃ s done built, r.forward plan.levels plan.bypasses = some (s, done) ∧
      r.Materializes plan built s := by
  obtain ⟨s, built, forward, threaded⟩ := reachable.wellFormed.forward h
  exact ⟨s.region, s.done, built, forward, threaded.materializes (forward_evolves forward)⟩

/-- The plan of a region, and the region with the chains of the plan. -/
def Region.planned? (r : Region) (o : Options) : Option (Plan × Region) :=
  match r.plan o with
  | .ok plan => (r.forward plan.levels plan.bypasses).map fun done => (plan, done.1)
  | .error _ => none

/-- A source text with two chains that carry the same buffer to the same consumer, which reads it
in an inner loop. -/
def sharedChainSource : String :=
  "func @k(%s: i1, %m: memref<1xi1>, %p: memref<1xi1>, %q: memref<1xi1>) \x7b
    for %h = 0 to 1 \x7b
      store %s, %m
      store %s, %p
    \x7d
    for %i = 0 to 1 \x7b
      store %s, %m
      store %s, %p
    \x7d
    for %j = 0 to 1 \x7b
      %v = load %p : i1
      store %v, %q
    \x7d
    for %k = 0 to 1 \x7b
      for %l = 0 to 1 \x7b
        %w = load %q : i1
        %x = load %m : i1
      \x7d
    \x7d
  \x7d"

/-- The inner load reads the end of the first of the two chains. -/
theorem Region.forward_materializes_shared : ∃ loaded r plan s done built,
    load sharedChainSource = .ok loaded ∧ r ∈ loaded.regions ∧ r.plan ⟨true, 1⟩ = .ok plan ∧
      plan.bypasses.chains.length = 2 ∧
      r.forward plan.levels plan.bypasses = some (s, done) ∧ r.Materializes plan built s ∧
      s.operands ⟨12⟩ = [⟨12⟩] ∧ r.TracesTo s ⟨12⟩ ⟨1⟩ := by
  obtain ⟨loaded, hload, found⟩ := @exists_of_anyLoaded sharedChainSource _ (by rfl)
    (fun regions => regions.any fun r => (r.planned? ⟨true, 1⟩).any fun planned : Plan × Region =>
      decide (planned.1.bypasses.chains.length = 2 ∧ (⟨12⟩ : NodeId) ∈ r.attached ∧
        r.operands ⟨12⟩ = [⟨1⟩] ∧ planned.2.operands ⟨12⟩ = [⟨12⟩])) (by decide +kernel)
  obtain ⟨r, hr, found⟩ := List.any_eq_true.mp found
  obtain ⟨⟨plan, s⟩, planned, found⟩ := (Option.any_eq_true _ _).mp found
  obtain ⟨two, inside, reads, rewired⟩ := of_decide_eq_true found
  unfold planned? at planned
  split at planned
  next plan' hplan =>
    obtain ⟨⟨s', done⟩, forward, same⟩ := Option.map_eq_some_iff.mp planned
    cases same
    obtain ⟨s', done', built, forward', materializes⟩ := forward_materializes (.load hload hr) hplan
    cases forward.symm.trans forward'
    obtain ⟨w, hw, traces⟩ := materializes.traced ⟨12⟩ inside 0 ⟨1⟩ (by rw [reads]; rfl)
    rw [rewired] at hw
    cases hw
    exact ⟨loaded, r, plan, _, done, built, hload, hr, hplan, two, forward, materializes, rewired,
      traces⟩
  next => cases planned

end Staging
