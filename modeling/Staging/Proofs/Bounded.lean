import Staging.Proofs.Repeating
import Staging.Proofs.Rereading

namespace Staging

/-- Folding levels into stages does not make them larger. -/
theorem Options.stageOf_le (o : Options) (merges : List (Nat × Nat)) {level : Nat}
    (pos : 1 ≤ level) : o.stageOf merges level ≤ level := by
  induction level, pos using Nat.le_induction with
  | base => exact (o.stageOf_one merges).le
  | succ level pos ih =>
    rcases o.stageOf_succ merges pos with ⟨same, -⟩ | next <;> omega

/-- Nodes that are not in the body keep their levels. -/
theorem Region.Coherent.level?_staged {r : Region} (coherent : r.Coherent)
    (merges : List (Nat × Nat)) {o : Options} {n : NodeId} (outside : n ∉ r.body) :
    (r.staged merges o).level? n = r.level? n := by
  unfold staged
  split
  · rw [restage_eq coherent.bodyKnown coherent.bodyNodup]
    have marked (q : Region) : ({ q with dataflow := true } : Region).level? n = q.level? n := rfl
    rw [marked]
    cases hn : r.node? n <;> simp [Region.level?, node?_withLevels, hn, outside]
  · rfl

section Bounded

variable {r out : Region} {o : Options} {plan : Plan} {built : List BuiltChain} {s : Forwarding}

/-- Every level is followed by all lower ones, so that there are as many nodes. -/
theorem Region.Threaded.level_le (h : r.Threaded o plan built s) {n : NodeId} {level : Nat}
    (hn : n ∈ s.region.body) (hl : s.region.level? n = some level) :
    level ≤ s.region.body.length := by
  refine le_length_of_descends hn hl fun lower pos below => ?_
  obtain ⟨x, before, hx⟩ := h.descends_to hn hl pos below
  exact ⟨x, before.mem_right, hx⟩

/-- Only nodes of the body have levels once chains are built. -/
theorem Region.Threaded.mem_of_level (h : r.Threaded o plan built s) {n : NodeId} {level : Nat}
    (hl : s.region.level? n = some level) : n ∈ s.region.body := by
  have known : n.index < s.region.nodes.size := by
    by_contra unknown
    simp [Region.level?, node?_eq_none (Nat.le_of_not_lt unknown)] at hl
  refine h.built.mem_body.mpr ?_
  rcases h.rewritten.node_cases known with old | new
  · rw [h.level_old old] at hl
    exact Or.inl ((h.sound.schedule.leveled n).mp (by simp [hl])).1
  · exact Or.inr new

/-- The levels of a region that has been made legal are at most as many as its nodes. -/
theorem Region.WellFormed.legalize_level_le (wf : r.WellFormed) {report : Report}
    (h : r.legalize o = .ok (report, out)) {n : NodeId} {level : Nat}
    (hl : out.level? n = some level) : level ≤ out.nodes.size := by
  obtain ⟨plan, _, _, hplan, _, _⟩ := wf.legalize h
  obtain ⟨s, built, out', c, _, -, hcompact, hlegal, legal⟩ := wf.legalize_of_plan hplan
  cases h.symm.trans hlegal
  have threaded := legal.threaded
  have wf' := threaded.wellFormed
  obtain ⟨reach, graded⟩ := threaded.graded
  obtain ⟨body, moved, hgather, gathered⟩ := wf'.sound.gather graded
    fun y hy z hz ly lz hly hlz hlt => threaded.descends_to hy hly (threaded.positive hz hlz) hlt
  have bound (low : n ∈ out.body) : level ≤ out.nodes.size := by
    obtain ⟨l, planned, pos, rfl⟩ := legal.level_eq_some low hl
    calc o.stageOf plan.bypasses.merges l ≤ l := o.stageOf_le _ pos
      _ ≤ s.region.body.length := threaded.level_le (legal.mem_body.mp low) planned
      _ ≤ s.region.nodes.size := length_le_of_nodup wf'.bodyNodup wf'.bodyKnown
      _ = out.nodes.size := legal.same.size.symm
  by_contra high
  have outside : n ∉ out.body := fun low => high (bound low)
  obtain ⟨c', hcompact'⟩ := compact_eq (b := plan.bypasses) (o := o) hgather
  rw [hcompact] at hcompact'
  have staged : out = ({ s.region with body := body } : Region).staged plan.bypasses.merges o :=
    congrArg Prod.fst (Option.some.inj hcompact')
  have coherent : ({ s.region with body := body } : Region).Coherent :=
    wf'.toCoherent.of_sameNodes (s.region.sameNodes_withBody body) gathered.perm
  have same : out.level? n = s.region.level? n := by
    rw [staged]
    refine coherent.level?_staged _ fun inside => outside (legal.mem_body.mpr ?_)
    exact gathered.perm.mem_iff.mp inside
  exact outside (legal.mem_body.mpr (threaded.mem_of_level (same ▸ hl)))

end Bounded

end Staging
