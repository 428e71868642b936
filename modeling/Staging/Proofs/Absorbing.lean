import Staging.Proofs.Certified

namespace Staging

theorem Options.monotone_stageOf (o : Options) (merges : List (Nat × Nat)) :
    Monotone (o.stageOf merges) := by
  intro lower upper h
  rcases Nat.eq_zero_or_pos lower with rfl | pos
  · have lowest : o.stageOf merges 0 = 0 := by
      unfold stageOf
      split <;> rfl
    rw [lowest]
    exact Nat.zero_le _
  · exact o.stageOf_mono merges pos h

theorem Options.renumbers_of_merging {o : Options} (merging : o.insertCopy = false) :
    o.renumbers = true := by
  simp [renumbers, merging]

section Merging

variable {r out : Region} {o : Options} {plan : Plan} {built : List BuiltChain} {s : Forwarding}

/-- The levels that a skipped edge spans, down to the consumer, end up in one stage. -/
theorem Plan.Sound.span_merged (h : Plan.Sound r o plan) (merging : o.insertCopy = false)
    {e : Bypass} (he : e ∈ plan.bypasses.edges) {level : Nat} (low : e.lower ≤ level)
    (high : level ≤ e.upper) :
    o.stageOf plan.bypasses.merges level = o.stageOf plan.bypasses.merges e.lower := by
  obtain ⟨_, _, hlower, _⟩ := (h.skips e).mp he
  have merges : plan.bypasses.merges =
      plan.bypasses.edges.foldl (fun found e => addMerge e.lower e.upper found) [] := by
    simpa [merging] using h.merges
  obtain ⟨top, covered, hle⟩ := lookup_foldl_addMerge Bypass.lower Bypass.upper _ he
  rw [← merges] at covered
  exact Options.stageOf_merged (Options.renumbers_of_merging merging) covered
    (h.schedule.positive _ _ hlower) low (high.trans hle)

/-- On every edge, the consumer ends up in the stage of the producer or in the one below. -/
theorem Plan.Sound.edge_absorbed (h : Plan.Sound r o plan) (merging : o.insertCopy = false)
    {p c : NodeId} {carrier : Carrier} (feeds : r.Feeds p carrier c) :
    ∃ upper lower, plan.levels.get? p = some upper ∧ plan.levels.get? c = some lower ∧
      (o.stageOf plan.bypasses.merges upper = o.stageOf plan.bypasses.merges lower ∨
        o.stageOf plan.bypasses.merges upper = o.stageOf plan.bypasses.merges lower + 1) := by
  obtain ⟨upper, lower, hu, hl, hlt, _⟩ := h.drops p carrier c feeds
  refine ⟨upper, lower, hu, hl, ?_⟩
  obtain ⟨below, rfl⟩ : ∃ below, upper = below + 1 := ⟨upper - 1, by omega⟩
  have pos : 1 ≤ below := (h.schedule.positive _ _ hl).trans (Nat.le_of_lt_succ hlt)
  -- The level below the producer shares its stage with the consumer, be it skipped or not.
  have same : o.stageOf plan.bypasses.merges below = o.stageOf plan.bypasses.merges lower := by
    rcases Nat.eq_or_lt_of_le (Nat.le_of_lt_succ hlt) with rfl | skips
    · rfl
    · have he : (⟨p, carrier, c, below, lower⟩ : Bypass) ∈ plan.bypasses.edges :=
        (h.skips _).mpr ⟨feeds, hu, hl, skips⟩
      exact h.span_merged merging he skips.le le_rfl
  rw [← same]
  exact (o.stageOf_succ plan.bypasses.merges pos).imp_left And.left

theorem Region.Threaded.built_eq_nil (h : r.Threaded o plan built s)
    (merging : o.insertCopy = false) : built = [] := by
  have chains := h.chains
  rw [h.sound.chains, merging] at chains
  simpa using chains

theorem Region.Legalized.level_merged (h : r.Legalized o plan built s out)
    (merging : o.insertCopy = false) {n : NodeId} (hn : n ∈ out.body) :
    out.level? n = (plan.levels.get? n).map (o.stageOf plan.bypasses.merges) := by
  have old : n ∈ r.body := by
    refine (h.threaded.built.mem_body.mp (h.mem_body.mp hn)).resolve_right ?_
    simp [h.threaded.built_eq_nil merging, newNodes]
  rw [h.level n hn, h.threaded.level_old (h.threaded.wf.bodyKnown n old)]

end Merging

/-- A run that merges absorbs every edge that skips stages: the stage of a node is a monotone
function of its planned level, no edge goes down by more than one stage, and the levels that a
skipped edge spans make up one stage or a part of one. -/
theorem legalize_absorbs {r out : Region} {o : Options} {report : Report}
    (reachable : r.Reachable) (merging : o.insertCopy = false)
    (h : r.legalize o = .ok (report, out)) : ∃ plan, ∃ stage : Nat → Nat,
      r.plan o = .ok plan ∧ Monotone stage ∧
      (∀ n ∈ out.body, out.level? n = (plan.levels.get? n).map stage) ∧
      (∀ p e, (p, e) ∈ r.deps.toList → ∃ upper lower, out.level? p = some upper ∧
        out.level? e.consumer = some lower ∧ (upper = lower ∨ upper = lower + 1)) ∧
      ∀ e ∈ plan.bypasses.edges, ∀ level, e.lower ≤ level → level ≤ e.upper →
        stage level = stage e.lower := by
  have wf := reachable.wellFormed
  obtain ⟨plan, built, s, hplan, _, legal⟩ := wf.legalize h
  have sound := legal.threaded.sound
  refine ⟨plan, o.stageOf plan.bypasses.merges, hplan, o.monotone_stageOf _,
    fun n hn => legal.level_merged merging hn, fun p e he => ?_,
    fun e he level low high => sound.span_merged merging he low high⟩
  have feeds := wf.mem_deps.mp he
  obtain ⟨upper, lower, hu, hl, step⟩ := sound.edge_absorbed merging feeds
  have stays : ∀ n ∈ r.body, n ∈ out.body := fun n hn =>
    legal.mem_body.mpr (legal.threaded.built.mem_body.mpr (Or.inl hn))
  refine ⟨_, _, ?_, ?_, step⟩
  · simp [legal.level_merged merging (stays p feeds.mem_left), hu]
  · simp [legal.level_merged merging (stays _ feeds.mem_right), hl]

/-- A source text with two edges that skip stages, one from within the stages that the other one
skips. -/
def overlappingSource : String :=
  "func @k(%s: tensor<1xi1>) \x7b
    %a = op \"x\"(%s) : tensor<1xi1>
    %b = op \"x\"(%a) : tensor<1xi1>
    %c = op \"x\"(%b) : tensor<1xi1>
    %d = op \"x\"(%a, %c) : tensor<1xi1>
    %e = op \"x\"(%d) : tensor<1xi1>
    op \"x\"(%c, %e)
  \x7d"

theorem legalize_absorbs_overlapping : ∃ loaded r report out, ∃ plan, ∃ stage : Nat → Nat,
    load overlappingSource = .ok loaded ∧ r ∈ loaded.regions ∧
      r.legalize ⟨false, 1⟩ = .ok (report, out) ∧ out.bodyLevels = [2, 1, 1, 1, 1, 1] ∧
      r.plan ⟨false, 1⟩ = .ok plan ∧ Monotone stage ∧
      (∀ n ∈ out.body, out.level? n = (plan.levels.get? n).map stage) ∧
      (∀ p e, (p, e) ∈ r.deps.toList → ∃ upper lower, out.level? p = some upper ∧
        out.level? e.consumer = some lower ∧ (upper = lower ∨ upper = lower + 1)) ∧
      ∀ e ∈ plan.bypasses.edges, ∀ level, e.lower ≤ level → level ≤ e.upper →
        stage level = stage e.lower := by
  obtain ⟨loaded, hload, r, hr, report, out, hlegal, levels⟩ :=
    @exists_of_anyLegalized overlappingSource _ (by rfl) ⟨false, 1⟩
      (fun _ out => out.bodyLevels = [2, 1, 1, 1, 1, 1]) (by decide +kernel)
  obtain ⟨plan, stage, hplan, absorbs⟩ := legalize_absorbs (.load hload hr) rfl hlegal
  exact ⟨loaded, r, report, out, plan, stage, hload, hr, hlegal, of_decide_eq_true levels, hplan,
    absorbs⟩

end Staging
