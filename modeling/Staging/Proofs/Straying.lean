import Staging.Proofs.Absorbing
import Staging.Proofs.SingleWriter

namespace Staging

/-- The planned levels at the ends of the dependences that come with a plan without having been
planned for. -/
inductive Plan.Strays (r : Region) (plan : Plan) : Nat → Nat → Prop
  /-- A node that writes a buffer overtakes one that uses it. -/
  | overtaken {w c : NodeId} {mem : ValueId} {upper lower : Nat} (awaits : r.Awaits w mem c)
      (earlier : Before r.body c w) (hu : plan.levels.get? w = some upper)
      (hl : plan.levels.get? c = some lower) (hlt : lower < upper)
      (reads : plan.bypasses.chainTo? c mem = none)
      (writes : plan.bypasses.chainTo? w mem = none) : Strays r plan upper lower
  /-- The first copy of a chain stands behind a node that writes what the chain carries. -/
  | stored {w : NodeId} {chain : CopyChain} {upper top : Nat} (hc : chain ∈ plan.bypasses.chains)
      (start : chain.levels.head? = some top) (hw : w ∈ r.body)
      (stores : r.Stores w chain.carrier.id)
      (writes : plan.bypasses.chainTo? w chain.carrier.id = none)
      (hu : plan.levels.get? w = some upper)
      (ahead : top < upper ∨ top = upper ∧ Before r.body w chain.consumer) :
      Strays r plan upper top
  /-- The first copy of a chain reads the result of a node. -/
  | computed {w : NodeId} {chain : CopyChain} {upper top : Nat}
      (hc : chain ∈ plan.bypasses.chains) (start : chain.levels.head? = some top)
      (hw : w ∈ r.body) (scheduled : r.isDataflow w = true) (noLoop : r.isLoop w = false)
      (results : chain.carrier.id ∈ r.results w) (hu : plan.levels.get? w = some upper) :
      Strays r plan upper top

section Legalized

variable {r out : Region} {o : Options} {plan : Plan} {built : List BuiltChain} {s : Forwarding}
  {p c : NodeId} {upper lower : Nat}

/-- A chain of the plan was built, from a copy at its highest level on. -/
theorem Region.Threaded.exists_built (h : r.Threaded o plan built s) {chain : CopyChain}
    {top : Nat} (hc : chain ∈ plan.bypasses.chains) (start : chain.levels.head? = some top) :
    ∃ b ∈ built, b.chain = chain ∧ ∃ l, b.links.head? = some l ∧ l.level = top := by
  rw [← h.chains] at hc
  obtain ⟨b, hb, rfl⟩ := List.mem_map.mp hc
  rw [← h.levels b hb, List.head?_map, Option.map_eq_some_iff] at start
  exact ⟨b, hb, rfl, start⟩

/-- What strays is a dependence once the copies are there. -/
theorem Region.Threaded.relinked_of_strays (h : r.Threaded o plan built s)
    (stray : plan.Strays r upper lower) : ∃ p c, r.Relinked plan.levels.get? built p c ∧
      s.region.level? p = some upper ∧ s.region.level? c = some lower := by
  cases stray with
  | @overtaken w c mem _ _ awaits earlier hu hl hlt reads writes =>
    refine ⟨w, c, .overtaken awaits earlier hu hl hlt ((h.chainTo_eq_none _ _).mpr reads)
      ((h.chainTo_eq_none _ _).mpr writes), ?_, ?_⟩
    · rw [h.level_old (h.wf.bodyKnown w earlier.mem_right), hu]
    · rw [h.level_old (h.wf.bodyKnown c earlier.mem_left), hl]
  | @stored w _ _ _ hc start hw stores writes hu ahead =>
    obtain ⟨b, hb, rfl, l, hl, rfl⟩ := h.exists_built hc start
    refine ⟨w, l.copy, .stored hb hl hw stores ((h.chainTo_eq_none _ _).mpr writes) hu ahead, ?_,
      h.level_copy hb (List.mem_of_mem_head? hl)⟩
    rw [h.level_old (h.wf.bodyKnown w hw), hu]
  | @computed w _ _ _ hc start hw scheduled noLoop results hu =>
    obtain ⟨b, hb, rfl, l, hl, rfl⟩ := h.exists_built hc start
    obtain ⟨_, _, feeds, _⟩ := h.edge hb
    refine ⟨w, l.copy, .computed hb hl hw scheduled noLoop results (feeds.shaped h.wf.toCoherent),
      ?_, h.level_copy hb (List.mem_of_mem_head? hl)⟩
    rw [h.level_old (h.wf.bodyKnown w hw), hu]

/-- A dependence goes down by one stage at most unless it strays. -/
theorem Region.Threaded.stepsDown_or_strays (h : r.Threaded o plan built s)
    (relinked : r.Relinked plan.levels.get? built p c) : ∃ upper lower,
      s.region.level? p = some upper ∧ s.region.level? c = some lower ∧
        (stepsDown o (o.stageOf plan.bypasses.merges upper)
          (o.stageOf plan.bypasses.merges lower) = true ∨ plan.Strays r upper lower) := by
  have old : ∀ {n : NodeId}, n ∈ r.body → s.region.level? n = plan.levels.get? n := fun hn =>
    h.level_old (h.wf.bodyKnown _ hn)
  have down : ∀ {level : Nat}, 1 ≤ level → stepsDown o (o.stageOf plan.bypasses.merges (level + 1))
      (o.stageOf plan.bypasses.merges level) = true := fun pos => o.stepsDown_succ _ pos
  cases relinked with
  | kept feeds reads _ =>
    rw [old feeds.mem_left, old feeds.mem_right]
    cases mode : o.insertCopy with
    | true =>
      obtain ⟨lower, hu, hl⟩ := h.kept_drops mode feeds reads
      exact ⟨_, lower, hu, hl, Or.inl (down (h.sound.schedule.positive _ _ hl))⟩
    | false =>
      obtain ⟨upper, lower, hu, hl, absorbed⟩ := h.sound.edge_absorbed mode feeds
      refine ⟨upper, lower, hu, hl, Or.inl ?_⟩
      rcases absorbed with same | step <;>
        simp [stepsDown, Options.renumbers_of_merging mode, *]
  | overtaken awaits earlier hu hl hlt reads writes =>
    exact ⟨_, _, (old earlier.mem_right).trans hu, (old earlier.mem_left).trans hl,
      Or.inr (.overtaken awaits earlier hu hl hlt ((h.chainTo_eq_none _ _).mp reads)
        ((h.chainTo_eq_none _ _).mp writes))⟩
  | @stored _ b l _ hb hl hp stores writes hu ahead =>
    have hc : b.chain ∈ plan.bypasses.chains := h.chains ▸ List.mem_map_of_mem hb
    exact ⟨_, _, (old hp).trans hu, h.level_copy hb (List.mem_of_mem_head? hl),
      Or.inr (.stored hc (h.start_eq hb hl) hp stores ((h.chainTo_eq_none _ _).mp writes) hu
        ahead)⟩
  | @computed _ b l hb hl hp scheduled noLoop results _ =>
    have hc : b.chain ∈ plan.bypasses.chains := h.chains ▸ List.mem_map_of_mem hb
    obtain ⟨upper, hu⟩ := Option.isSome_iff_exists.mp
      ((h.sound.schedule.leveled p).mpr ⟨hp, scheduled⟩)
    exact ⟨_, _, (old hp).trans hu, h.level_copy hb (List.mem_of_mem_head? hl),
      Or.inr (.computed hc (h.start_eq hb hl) hp scheduled noLoop results hu)⟩
  | @handed b k l hb hkl =>
    have before : Before b.links k l := hkl.sublist
    obtain ⟨lower, _, _, _, above, _⟩ := h.link_level hb before.mem_right
    refine ⟨_, _, h.level_copy hb before.mem_left, h.level_copy hb before.mem_right, Or.inl ?_⟩
    rw [h.level_next hb hkl]
    exact down (by omega)
  | @delivered b l hb hl =>
    obtain ⟨lower, hlow, hlevel⟩ := h.level_last hb hl
    refine ⟨_, lower, h.level_copy hb (List.mem_of_getLast? hl),
      (old (h.rewritten.consumers b hb)).trans hlow, Or.inl ?_⟩
    rw [hlevel]
    exact down (h.sound.schedule.positive _ _ hlow)

theorem Region.noSkippedStage_iff (r : Region) (o : Options) :
    r.noSkippedStage o = true ↔ ∀ p c, r.HasEdge p c → ∃ upper lower, r.level? p = some upper ∧
      r.level? c = some lower ∧ stepsDown o upper lower = true := by
  unfold noSkippedStage
  rw [List.all_eq_true]
  constructor
  · rintro all p _ ⟨e, he, rfl⟩
    have edge := all (p, e) he
    cases hu : r.level? p <;> cases hl : r.level? e.consumer <;> simp_all
  · rintro all ⟨p, e⟩ he
    obtain ⟨upper, lower, hu, hl, step⟩ := all p e.consumer ⟨e, he, rfl⟩
    simp [hu, hl, step]

/-- The certificate of a region that was made legal holds just where all that strays goes down by
one stage at most. -/
theorem Region.Legalized.holds_iff (h : r.Legalized o plan built s out) :
    (out.certify o).holds = true ↔ ∀ upper lower, plan.Strays r upper lower →
      stepsDown o (o.stageOf plan.bypasses.merges upper)
        (o.stageOf plan.bypasses.merges lower) = true := by
  have rest : (out.certify o).holds = out.noSkippedStage o := by
    have grouped : (out.certify o).grouped = true := h.grouped
    have contiguous : (out.certify o).contiguous = true := h.contiguous
    have defined : (out.certify o).defsBeforeUses = true := h.wellFormed.defsBeforeUses
    have marked : (out.certify o).marked = true := h.marked
    simp only [Certificate.holds, Certificate.obligations, List.all_cons, List.all_nil,
      h.allLeveled, contiguous, grouped, defined, marked, Bool.true_and, Bool.and_true]
    rfl
  have stage : ∀ {n : NodeId} {level : Nat}, n ∈ out.body → s.region.level? n = some level →
      out.level? n = some (o.stageOf plan.bypasses.merges level) := by
    intro n level hn hl
    rw [h.level n hn, hl, Option.map_some]
  rw [rest, noSkippedStage_iff]
  constructor
  · intro all upper lower stray
    obtain ⟨p, c, relinked, hu, hl⟩ := h.threaded.relinked_of_strays stray
    have edge := h.hasEdge_iff.mpr relinked
    obtain ⟨_, feeds⟩ := h.wellFormed.hasEdge_iff.mp edge
    obtain ⟨upper', lower', hu', hl', step⟩ := all p c edge
    rw [stage feeds.mem_left hu] at hu'
    rw [stage feeds.mem_right hl] at hl'
    cases hu'
    cases hl'
    exact step
  · intro all p c edge
    obtain ⟨_, feeds⟩ := h.wellFormed.hasEdge_iff.mp edge
    obtain ⟨upper, lower, hu, hl, step⟩ := h.threaded.stepsDown_or_strays (h.hasEdge_iff.mp edge)
    exact ⟨_, _, stage feeds.mem_left hu, stage feeds.mem_right hl, step.elim id (all upper lower)⟩

end Legalized

end Staging
