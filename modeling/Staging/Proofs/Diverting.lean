import Staging.Proofs.Surviving

namespace Staging

/-- The buffer that a store or an array copy writes. -/
def Region.target? (r : Region) (n : NodeId) : Option ValueId :=
  match r.kind? n, r.operands n with
  | some .store, [_, mem] => some mem
  | some .copy, [_, mem] => some mem
  | _, _ => none

theorem Region.target?_eq_some {r : Region} {n : NodeId} {mem : ValueId} :
    r.target? n = some mem ↔ (mem, .write) ∈ r.touched n := by
  unfold target? touched
  rcases r.kind? n with _ | kind
  · simp
  · cases kind <;> rcases r.operands n with _ | ⟨a, _ | ⟨b, _ | ⟨c, rest⟩⟩⟩ <;> simp [eq_comm]

/-- A chain of the plan carries a value to a node. -/
def Plan.Carries (plan : Plan) (o : Options) (t : NodeId) (v : ValueId) : Prop :=
  o.insertCopy = true ∧ ∃ e ∈ plan.bypasses.edges, e.consumer = t ∧ e.carrier.id = v

section Legalized

variable {r out : Region} {o : Options} {plan : Plan} {built : List BuiltChain} {s : Forwarding}
  {t n : NodeId} {v mem : ValueId}

theorem Region.Threaded.chainTo_ne_none_iff (h : r.Threaded o plan built s) :
    chainTo built t v ≠ none ↔ plan.Carries o t v := by
  rw [Ne, h.chainTo_eq_none, Bypasses.chainTo?, h.sound.chains, List.find?_eq_none]
  cases copies : o.insertCopy with
  | false => simp [Plan.Carries, copies]
  | true => simp [Plan.Carries, copies, CopyChain.carries_iff, chainOf]

/-- A node writes what the end of the first chain that carries its target there stands for. -/
theorem Region.Legalized.target? (h : r.Legalized o plan built s out) (ht : t ∈ r.body)
    (hn : r.Within t n) : out.target? n = (r.target? n).map (rewired built t) := by
  have touched := h.rewritten.touched h.threaded.wf.toNested ht hn
  refine Option.ext fun w => ?_
  rw [target?_eq_some, touched, Option.map_eq_some_iff, List.mem_map]
  constructor
  · rintro ⟨⟨m, kind⟩, hm, he⟩
    obtain ⟨hw, rfl⟩ := Prod.mk.inj he
    exact ⟨m, target?_eq_some.mpr hm, hw⟩
  · rintro ⟨m, hm, rfl⟩
    exact ⟨(m, .write), target?_eq_some.mp hm, rfl⟩

/-- What a buffer is rewired to is the buffer of a link. -/
theorem Region.Legalized.rewired_buffer (h : r.Legalized o plan built s out)
    (buffer : r.isMemref mem = true) (carried : chainTo built t mem ≠ none) :
    rewired built t mem ≠ mem ∧ ∃ n ∈ out.body, r.nodes.size ≤ n.index ∧
      out.kind? n = some (.alloc false) ∧ out.results n = [rewired built t mem] := by
  obtain ⟨b, hfind⟩ := Option.ne_none_iff_exists'.mp carried
  obtain ⟨heq, hb, -, rfl⟩ := rewired_of_some hfind
  obtain ⟨l, hl, -, hend⟩ := endOf_mem (v := b.chain.carrier.id) (h.rewritten.ready b hb).2
  rw [heq, hend]
  obtain ⟨value, hvalue, link⟩ := h.rewritten.hasLink hb hl
  have filled : l.buffer.isSome = true := by
    rw [link.filled]
    simpa [isMemref, hvalue] using buffer
  obtain ⟨n, hn⟩ := Option.isSome_iff_exists.mp filled
  obtain ⟨kind, -, results, -⟩ := link.buffer n hn
  refine ⟨fun same => ?_, n, ?_, (h.rewritten.buffer_new hb hl hn).1, kind, results⟩
  · have new := h.rewritten.target_new hb hl
    have old := index_lt_of_value? hvalue
    rw [same] at new
    exact absurd old (Nat.not_lt.mpr new)
  · exact h.mem_body.mpr (h.threaded.built.mem_body.mpr
      (Or.inr (mem_newNodes.mpr ⟨b, hb, l, hl, Or.inl hn⟩)))

end Legalized

/-- A run leaves a store or an array copy its target just where no chain carries the target to
the node of the body that it is in. Else it writes the new buffer at the end of a chain. -/
theorem legalize_target_iff {r out : Region} {o : Options} {report : Report}
    (reachable : r.Reachable) (h : r.legalize o = .ok (report, out)) :
    ∃ plan, r.plan o = .ok plan ∧ ∀ t ∈ r.body, ∀ n mem, r.Within t n → r.target? n = some mem →
      (out.target? n = some mem ↔ ¬ plan.Carries o t mem) ∧
      (plan.Carries o t mem → ∃ buffer target, buffer ∈ out.body ∧
        r.nodes.size ≤ buffer.index ∧ out.kind? buffer = some (.alloc false) ∧
        out.results buffer = [target] ∧ out.target? n = some target) := by
  have wf := reachable.wellFormed
  obtain ⟨plan, built, s, hplan, _, legal⟩ := wf.legalize h
  refine ⟨plan, hplan, fun t ht n mem hn hmem => ?_⟩
  have buffer : r.isMemref mem = true := wf.buffers n mem .write (Region.target?_eq_some.mp hmem)
  have target : out.target? n = some (rewired built t mem) := by
    rw [legal.target? ht hn, hmem, Option.map_some]
  rw [target, ← legal.threaded.chainTo_ne_none_iff]
  constructor
  · constructor
    · intro same carried
      exact (legal.rewired_buffer buffer carried).1 (Option.some.inj same)
    · intro free
      rw [rewired_of_none (not_not.mp free)]
  · intro carried
    obtain ⟨_, new, hnew, index, kind, results⟩ := legal.rewired_buffer buffer carried
    exact ⟨new, _, hnew, index, kind, results, rfl⟩

/-- A source text in which a store writes into an array that skips a stage on its way there. -/
def divertedSource : String :=
  "func @k(%s: memref<1xi1>, %v: i1) \x7b
    %m = op \"x\"(%s) : memref<1xi1>
    %a = op \"x\"(%m) : tensor<1xi1>
    op \"x\"(%a)
    store %v, %m
  \x7d"

theorem legalize_target_iff_diverted : ∃ loaded r report out plan,
    load divertedSource = .ok loaded ∧ r ∈ loaded.regions ∧
      r.legalize ⟨true, 1⟩ = .ok (report, out) ∧ (⟨3⟩ : NodeId) ∈ r.body ∧
      r.target? ⟨3⟩ = some ⟨2⟩ ∧ r.plan ⟨true, 1⟩ = .ok plan ∧
      ∀ t ∈ r.body, ∀ n mem, r.Within t n → r.target? n = some mem →
        (out.target? n = some mem ↔ ¬ plan.Carries ⟨true, 1⟩ t mem) ∧
        (plan.Carries ⟨true, 1⟩ t mem → ∃ buffer target, buffer ∈ out.body ∧
          r.nodes.size ≤ buffer.index ∧ out.kind? buffer = some (.alloc false) ∧
          out.results buffer = [target] ∧ out.target? n = some target) := by
  obtain ⟨loaded, hload, r, hr, report, out, hlegal, test⟩ :=
    @exists_of_anyLegalized divertedSource _ (by rfl) ⟨true, 1⟩
      (fun r _ => r.body.contains ⟨3⟩ && r.target? ⟨3⟩ = some ⟨2⟩) (by decide +kernel)
  simp only [Bool.and_eq_true, List.contains_iff_mem, decide_eq_true_eq] at test
  obtain ⟨plan, hplan, targets⟩ := legalize_target_iff (.load hload hr) hlegal
  exact ⟨loaded, r, report, out, plan, hload, hr, hlegal, test.1, test.2, hplan, targets⟩

/-- A write can be diverted: the store no longer writes into the array of the source text. -/
theorem legalize_diverts_store : ∃ loaded r report out,
    load divertedSource = .ok loaded ∧ r ∈ loaded.regions ∧
      r.legalize ⟨true, 1⟩ = .ok (report, out) ∧ (⟨3⟩ : NodeId) ∈ r.body ∧
      r.kind? ⟨3⟩ = some .store ∧ r.target? ⟨3⟩ = some ⟨2⟩ ∧ out.target? ⟨3⟩ ≠ some ⟨2⟩ := by
  obtain ⟨loaded, hload, r, hr, report, out, hlegal, test⟩ :=
    @exists_of_anyLegalized divertedSource _ (by rfl) ⟨true, 1⟩
      (fun r out => r.body.contains ⟨3⟩ && r.kind? ⟨3⟩ = some .store &&
        r.target? ⟨3⟩ = some ⟨2⟩ && out.target? ⟨3⟩ ≠ some ⟨2⟩) (by decide +kernel)
  simp only [Bool.and_eq_true, List.contains_iff_mem, decide_eq_true_eq] at test
  obtain ⟨⟨⟨inBody, store⟩, before⟩, after⟩ := test
  exact ⟨loaded, r, report, out, hload, hr, hlegal, inBody, store, before, after⟩

end Staging
