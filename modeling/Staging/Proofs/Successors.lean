import Staging.Proofs.Certified
import Staging.Proofs.Edges

namespace Staging

section Successors

variable {r : Region}

theorem Region.Nested.deps_nodup (nested : r.Nested) : r.deps.toList.Nodup := by
  rw [nested.deps_toList_eq, List.nodup_flatMap]
  constructor
  · intro n _
    exact (r.from_nodup n).map fun _ _ same => (Prod.mk.inj same).2
  · refine nested.bodyNodup.imp fun {m n} ne => ?_
    rw [Function.onFun, List.disjoint_left]
    intro edge hm hn
    obtain ⟨_, _, rfl⟩ := List.mem_map.mp hm
    obtain ⟨_, _, same⟩ := List.mem_map.mp hn
    exact ne (Prod.mk.inj same).1.symm

/-- The producers come in the order of the body. -/
theorem Region.Nested.deps_ordered (nested : r.Nested) :
    r.deps.toList.Pairwise fun a b => a.1 = b.1 ∨ Before r.body a.1 b.1 := by
  rw [nested.deps_toList_eq, List.pairwise_flatMap]
  constructor
  · intro n _
    refine List.pairwise_map.mpr (List.pairwise_of_forall fun _ _ => Or.inl rfl)
  · refine pairwise_iff_before.mpr fun m n before edge hm edge' hn => ?_
    obtain ⟨_, _, rfl⟩ := List.mem_map.mp hm
    obtain ⟨_, _, rfl⟩ := List.mem_map.mp hn
    exact Or.inr before

/-- What it takes for one node of the body to feed another, by the kinds of the two. -/
theorem Region.Nested.feeds_iff (nested : r.Nested) {p c : NodeId} {carrier : Carrier} :
    r.Feeds p carrier c ↔
      (∃ mem, carrier = .memory mem ∧ p ∈ r.body ∧ c ∈ r.body ∧ p ≠ c ∧
        r.isLoop p = true ∧ r.isLoop c = true ∧
        r.Touches p mem .write ∧ r.Touches c mem .read ∧ ¬ r.Touches c mem .write) ∨
      (∃ mem target, carrier = .memory mem ∧ Before r.body p c ∧ r.isLoop p = true ∧
        r.Touches p mem .write ∧ r.kind? c = some .copy ∧ r.operands c = [mem, target]) ∨
      (∃ mem source, carrier = .memory mem ∧ Before r.body p c ∧ r.kind? p = some .copy ∧
        r.operands p = [source, mem] ∧ r.isDataflow c = true ∧ r.Mentions c mem) ∨
      (∃ v, carrier = .value v ∧ p ∈ r.body ∧ c ∈ r.body ∧ p ≠ c ∧
        r.isDataflow p = true ∧ r.isLoop p = false ∧ v ∈ r.results p ∧ r.isShaped v = true ∧
        r.isDataflow c = true ∧ r.Mentions c v) := by
  constructor
  · intro feeds
    have ne := (feeds.ne nested).symm
    cases feeds with
    | loop hp hc loopP loopC _ writes reads keeps =>
      exact Or.inl ⟨_, rfl, hp, hc, ne, loopP, loopC, writes, reads, keeps⟩
    | copyOut loopP writes copies later =>
      obtain ⟨kind, target, operands⟩ := copiesOut_iff.mp copies
      exact Or.inr (Or.inl ⟨_, target, rfl, later, loopP, writes, kind, operands⟩)
    | copyIn target scheduled mentions later =>
      obtain ⟨kind, source, operands⟩ := copyTarget?_iff.mp target
      exact Or.inr (Or.inr (Or.inl
        ⟨_, source, rfl, later, kind, operands, scheduled, mentions⟩))
    | result hp hc scheduledP noLoop _ results shaped scheduled mentions =>
      exact Or.inr (Or.inr (Or.inr
        ⟨_, rfl, hp, hc, ne, scheduledP, noLoop, results, shaped, scheduled, mentions⟩))
  · rintro (⟨_, rfl, hp, hc, ne, loopP, loopC, writes, reads, keeps⟩ |
      ⟨_, target, rfl, later, loopP, writes, kind, operands⟩ |
      ⟨_, source, rfl, later, kind, operands, scheduled, mentions⟩ |
      ⟨_, rfl, hp, hc, ne, scheduledP, noLoop, results, shaped, scheduled, mentions⟩)
    · exact .loop hp hc loopP loopC ne.symm writes reads keeps
    · exact .copyOut loopP writes (copiesOut_iff.mpr ⟨kind, target, operands⟩) later
    · exact .copyIn (copyTarget?_iff.mpr ⟨kind, source, operands⟩) scheduled mentions later
    · exact .result hp hc scheduledP noLoop ne.symm results shaped scheduled mentions

/-- The successor graph of a region that was loaded or made legal has an edge just where a loop
writes what another loop only reads, a loop writes what a later array copy copies, an array copy
fills what a later scheduled node mentions, or a scheduled node that is no loop computes an array
that another one mentions. It has each edge once, and goes through the producers in the order of
the body. -/
theorem Region.deps_characterized (reachable : r.Reachable) :
    (∀ p carrier c, (p, ⟨carrier, c⟩) ∈ r.deps.toList ↔
      (∃ mem, carrier = .memory mem ∧ p ∈ r.body ∧ c ∈ r.body ∧ p ≠ c ∧
        r.isLoop p = true ∧ r.isLoop c = true ∧
        r.Touches p mem .write ∧ r.Touches c mem .read ∧ ¬ r.Touches c mem .write) ∨
      (∃ mem target, carrier = .memory mem ∧ Before r.body p c ∧ r.isLoop p = true ∧
        r.Touches p mem .write ∧ r.kind? c = some .copy ∧ r.operands c = [mem, target]) ∨
      (∃ mem source, carrier = .memory mem ∧ Before r.body p c ∧ r.kind? p = some .copy ∧
        r.operands p = [source, mem] ∧ r.isDataflow c = true ∧ r.Mentions c mem) ∨
      (∃ v, carrier = .value v ∧ p ∈ r.body ∧ c ∈ r.body ∧ p ≠ c ∧
        r.isDataflow p = true ∧ r.isLoop p = false ∧ v ∈ r.results p ∧ r.isShaped v = true ∧
        r.isDataflow c = true ∧ r.Mentions c v)) ∧
    (∀ p e, e ∈ r.deps.from p ↔ (p, e) ∈ r.deps.toList) ∧
    r.deps.toList.Nodup ∧
    r.deps.toList.Pairwise fun a b => a.1 = b.1 ∨ Before r.body a.1 b.1 := by
  have nested := reachable.wellFormed.toNested
  refine ⟨fun p carrier c => ?_, fun p e => ?_, nested.deps_nodup, nested.deps_ordered⟩
  · rw [nested.mem_deps, nested.feeds_iff]
  · rw [nested.mem_from, nested.mem_deps]

end Successors

/-- A source text with an edge of every kind: from a loop to a loop nest, from a loop to an array
copy, from the copy to a node that mentions its target twice, and from a result to its reader. -/
def carryingSource : String :=
  "func @k(%s: f32, %a: memref<4xf32>, %b: memref<4xf32>) \x7b
    for %i = 0 to 4 \x7b
      store %s, %a
    \x7d
    for %j = 0 to 4 \x7b
      for %k = 0 to 4 \x7b
        %x = load %a : f32
      \x7d
    \x7d
    copy %a, %b
    %t = op \"x\"(%b, %b) : tensor<4xf32>
    op \"x\"(%t)
  \x7d"

theorem Region.deps_characterized_carrying : ∃ loaded r,
    load carryingSource = .ok loaded ∧ r ∈ loaded.regions ∧
      r.deps.toList = [(⟨0⟩, ⟨.memory ⟨1⟩, ⟨2⟩⟩), (⟨0⟩, ⟨.memory ⟨1⟩, ⟨5⟩⟩),
        (⟨5⟩, ⟨.memory ⟨2⟩, ⟨6⟩⟩), (⟨6⟩, ⟨.value ⟨7⟩, ⟨7⟩⟩)] ∧
      r.Touches ⟨0⟩ ⟨1⟩ .write ∧ r.Touches ⟨2⟩ ⟨1⟩ .read ∧ ¬ r.Touches ⟨2⟩ ⟨1⟩ .write ∧
      r.deps.toList.Nodup ∧
      r.deps.toList.Pairwise fun a b => a.1 = b.1 ∨ Before r.body a.1 b.1 := by
  obtain ⟨loaded, hload, found⟩ := @exists_of_anyLoaded carryingSource _ (by rfl)
    (fun regions => regions.any fun r => decide (r.deps.toList =
      [(⟨0⟩, ⟨.memory ⟨1⟩, ⟨2⟩⟩), (⟨0⟩, ⟨.memory ⟨1⟩, ⟨5⟩⟩),
        (⟨5⟩, ⟨.memory ⟨2⟩, ⟨6⟩⟩), (⟨6⟩, ⟨.value ⟨7⟩, ⟨7⟩⟩)] ∧
      r.kind? ⟨0⟩ ≠ some .copy ∧ r.kind? ⟨2⟩ ≠ some .copy)) (by decide +kernel)
  obtain ⟨r, hr, found⟩ := List.any_eq_true.mp found
  obtain ⟨edges, noCopy, noCopy'⟩ := of_decide_eq_true found
  obtain ⟨exact, _, once, ordered⟩ := deps_characterized (.load hload hr)
  have first : (⟨0⟩, ⟨.memory ⟨1⟩, ⟨2⟩⟩) ∈ r.deps.toList := by
    rw [edges]
    decide
  refine ⟨loaded, r, hload, hr, edges, ?_⟩
  rcases (exact _ _ _).mp first with ⟨_, same, _, _, _, _, _, writes, reads, keeps⟩ |
    ⟨_, _, _, _, _, _, kind, _⟩ | ⟨_, _, _, _, kind, _⟩ | ⟨_, same, _⟩
  · cases same
    exact ⟨writes, reads, keeps, once, ordered⟩
  · exact absurd kind noCopy'
  · exact absurd kind noCopy
  · cases same

end Staging
