import Staging.Proofs.StageMap

namespace Staging

/-- How many of the levels from 1 to `top` are in a stage. -/
def levelsIn (s : Nat → Nat) (top stage : Nat) : Nat :=
  ((Finset.Icc 1 top).filter fun level => s level = stage).card

/-- An assignment of stages to the levels from 1 to `top` that folds consecutive levels: no stage
is left out, only the last one takes in less than `gran` levels, and levels that are merged share
a stage as far as they exist. -/
structure Folds (top : Nat) (merges : List (Nat × Nat)) (gran : Nat) (s : Nat → Nat) : Prop where
  first : 1 ≤ top → s 1 = 1
  step : ∀ level, 1 ≤ level → level < top → s (level + 1) = s level ∨ s (level + 1) = s level + 1
  full : ∀ level, 1 ≤ level → level ≤ top → s level < s top → gran ≤ levelsIn s top (s level)
  merged : ∀ level upper, merges.lookup level = some upper → 1 ≤ level → level ≤ top →
    ∀ l, level ≤ l → l ≤ min upper top → s l = s level

/-- The stage of a level among `top` levels, 0 for a level that is not one of them. -/
def stageAt (top : Nat) (merges : List (Nat × Nat)) (gran level : Nat) : Nat :=
  (stageMap top merges gran).getD level 0

theorem stageAt_succ {top below gran : Nat} (merges : List (Nat × Nat)) (pos : 1 ≤ gran)
    (h : below < top) : stageAt top merges gran (below + 1) = (walkTo merges gran below).stage := by
  have entry : (stageMap top merges gran)[below + 1]? =
      some ((stageMap (below + 1) merges gran).getLastD 0) := stageMap_getElem? merges gran h
  rw [stageMap_last, Nat.max_eq_left pos] at entry
  rw [stageAt, List.getD_eq_getElem?_getD, entry, Option.getD_some]

section Counts

variable {s : Nat → Nat}

theorem levelsIn_succ (s : Nat → Nat) (top stage : Nat) :
    levelsIn s (top + 1) stage = levelsIn s top stage + if s (top + 1) = stage then 1 else 0 := by
  have new : top + 1 ∉ (Finset.Icc 1 top).filter fun level => s level = stage := by simp
  have levels : Finset.Icc 1 (top + 1) = insert (top + 1) (Finset.Icc 1 top) := by
    ext level
    simp only [Finset.mem_insert, Finset.mem_Icc]
    omega
  rw [levelsIn, levels, Finset.filter_insert]
  split
  next => rw [Finset.card_insert_of_notMem new, levelsIn]
  next => rfl

theorem levelsIn_mono (s : Nat → Nat) {lower upper : Nat} (h : lower ≤ upper) (stage : Nat) :
    levelsIn s lower stage ≤ levelsIn s upper stage := by
  apply Finset.card_le_card
  apply Finset.filter_subset_filter
  exact Finset.Icc_subset_Icc_right h

/-- A stage that only takes in levels from `first` on and below `last` takes in no more than there
are between them. -/
theorem levelsIn_le {top stage first last : Nat}
    (within : ∀ level, 1 ≤ level → level ≤ top → s level = stage → first ≤ level ∧ level < last) :
    levelsIn s top stage ≤ last - first := by
  rw [← Nat.card_Ico]
  apply Finset.card_le_card
  intro level h
  obtain ⟨range, here⟩ := Finset.mem_filter.mp h
  obtain ⟨low, high⟩ := Finset.mem_Icc.mp range
  exact Finset.mem_Ico.mpr (within level low high here)

end Counts

section Walk

variable {merges : List (Nat × Nat)} {gran : Nat}

/-- Either the countdown goes on, or a merge of the level takes over. -/
theorem StageWalk.left_cases (w : StageWalk) (merges : List (Nat × Nat)) (level : Nat) :
    w.left merges level = w.countdown - 1 ∨
      ∃ upper, merges.lookup level = some upper ∧ w.left merges level = upper - level := by
  unfold left
  split
  next upper h =>
    rcases Nat.le_total (upper - level) (w.countdown - 1) with less | more
    · exact Or.inl (Nat.max_eq_left less)
    · exact Or.inr ⟨upper, h, Nat.max_eq_right more⟩
  next => exact Or.inl rfl

/-- The walk never comes to a level with nothing left for its stage. -/
theorem walkTo_countdown (merges : List (Nat × Nat)) (pos : 1 ≤ gran) (below : Nat) :
    1 ≤ (walkTo merges gran below).countdown := by
  cases below with
  | zero => exact pos
  | succ below =>
    rw [walkTo, StageWalk.next]
    split
    next => exact pos
    next more => exact Nat.one_le_iff_ne_zero.mpr more

/-- What is left for a stage is owed to its own length, or to a merge with a level that the walk
has passed. -/
theorem walkTo_debt (merges : List (Nat × Nat)) (gran below : Nat) :
    (walkTo merges gran below).countdown ≤ gran ∨
    ∃ level upper, merges.lookup level = some upper ∧ 1 ≤ level ∧ level ≤ below ∧
      upper = below + (walkTo merges gran below).countdown := by
  induction below with
  | zero => exact Or.inl le_rfl
  | succ below ih =>
    rw [walkTo, StageWalk.next]
    split
    next => exact Or.inl le_rfl
    next more =>
      dsimp only
      rcases (walkTo merges gran below).left_cases merges (below + 1) with
        goes | ⟨upper, h, takes⟩
      · rcases ih with short | ⟨level, upper, h, low, high, owed⟩
        · exact Or.inl (by omega)
        · exact Or.inr ⟨level, upper, h, low, by omega, by omega⟩
      · exact Or.inr ⟨below + 1, upper, h, by omega, le_rfl, by omega⟩

/-- Stages that the walk has left took in at least `gran` levels, and what the present one has
taken in makes up `gran` levels together with what is left for it. -/
theorem walkTo_full {s : Nat → Nat} {top below : Nat} (pos : 1 ≤ gran) (h : below ≤ top)
    (walks : ∀ below, below < top → s (below + 1) = (walkTo merges gran below).stage) :
    gran ≤ levelsIn s below (walkTo merges gran below).stage +
        (walkTo merges gran below).countdown ∧
      ∀ level, 1 ≤ level → level ≤ below → s level < (walkTo merges gran below).stage →
        gran ≤ levelsIn s below (s level) := by
  induction below with
  | zero =>
    refine ⟨Nat.le_add_left _ _, fun level low high => ?_⟩
    omega
  | succ below ih =>
    obtain ⟨present, past⟩ := ih (by omega)
    have here := walks below h
    have ahead := walkTo_countdown merges pos below
    have enough : (walkTo merges gran below).countdown - 1 ≤
        (walkTo merges gran below).left merges (below + 1) := StageWalk.le_left
    have grown : levelsIn s (below + 1) (walkTo merges gran below).stage =
        levelsIn s below (walkTo merges gran below).stage + 1 := by
      rw [levelsIn_succ, if_pos here]
    have earlier : ∀ level, 1 ≤ level → level ≤ below + 1 →
        s level < (walkTo merges gran below).stage → gran ≤ levelsIn s (below + 1) (s level) := by
      intro level low high less
      have ne : level ≠ below + 1 := by
        intro same
        rw [same] at less
        omega
      exact (past level low (by omega) less).trans (levelsIn_mono s (Nat.le_succ below) _)
    rw [walkTo, StageWalk.next]
    split
    next last =>
      refine ⟨Nat.le_add_left _ _, fun level low high less => ?_⟩
      dsimp only at less
      by_cases same : s level = (walkTo merges gran below).stage
      · rw [same]
        omega
      · exact earlier level low high (by omega)
    next more =>
      dsimp only
      exact ⟨by omega, earlier⟩

end Walk

section Folds

variable {top gran : Nat} {merges : List (Nat × Nat)} {s : Nat → Nat}

/-- The stage map is a legal way of folding the levels. -/
theorem folds_stageAt (top : Nat) (merges : List (Nat × Nat)) (pos : 1 ≤ gran) :
    Folds top merges gran (stageAt top merges gran) where
  first some := by
    rw [stageAt_succ merges pos some]
    rfl
  step level low high := by
    obtain ⟨below, rfl⟩ : ∃ below, level = below + 1 := ⟨level - 1, by omega⟩
    rw [stageAt_succ merges pos high, stageAt_succ merges pos (by omega)]
    exact walkTo_succ_stage merges gran below
  full level low high less := by
    obtain ⟨below, rfl⟩ : ∃ below, top = below + 1 := ⟨top - 1, by omega⟩
    have walks := fun b (h : b < below + 1) => stageAt_succ merges pos h
    have past := (walkTo_full pos (Nat.le_succ below) walks).2
    rw [stageAt_succ merges pos (Nat.lt_succ_self below)] at less
    have inside : level ≤ below := by
      by_contra above
      have last : level = below + 1 := by omega
      rw [last, stageAt_succ merges pos (Nat.lt_succ_self below)] at less
      omega
    exact (past level low inside less).trans (levelsIn_mono _ (Nat.le_succ below) _)
  merged level upper h low high l from_ upto := by
    obtain ⟨below, rfl⟩ : ∃ below, level = below + 1 := ⟨level - 1, by omega⟩
    obtain ⟨k, rfl⟩ : ∃ k, l = below + k + 1 := ⟨l - (below + 1), by omega⟩
    rw [stageAt_succ merges pos (by omega), stageAt_succ merges pos high]
    exact (walkTo_merged h k (by omega)).1

theorem Folds.mono (folds : Folds top merges gran s) {lower upper : Nat} (low : 1 ≤ lower)
    (h : lower ≤ upper) (high : upper ≤ top) : s lower ≤ s upper := by
  induction upper, h using Nat.le_induction with
  | base => exact le_rfl
  | succ upper le ih =>
    have below := ih (by omega)
    have next := folds.step upper (by omega) (by omega)
    omega

/-- From its first level on, a stage goes on for `gran` levels, as long as there are any. -/
theorem Folds.goes_on (folds : Folds top merges gran s) {level l : Nat} (low : 1 ≤ level)
    (starts : ∀ k, 1 ≤ k → k < level → s k < s level) (above : level ≤ l) (near : l < level + gran)
    (high : l ≤ top) : s l = s level := by
  have le := folds.mono low above high
  by_contra ne
  have last := folds.mono (low.trans above) high le_rfl
  have room := folds.full level low (above.trans high) (by omega)
  have short : levelsIn s top (s level) ≤ l - level := by
    apply levelsIn_le
    intro k hk hkt same
    constructor
    · by_contra before
      have := starts k hk (by omega)
      omega
    · by_contra behind
      have := folds.mono (low.trans above) (by omega : l ≤ k) hkt
      omega
  omega

/-- No legal way of folding the levels is ahead of the walk, and one that is in the same stage as
the walk cannot leave it before the walk does. -/
theorem Folds.behind_walk (folds : Folds top merges gran s) (pos : 1 ≤ gran) {below : Nat}
    (h : below < top) : s (below + 1) ≤ (walkTo merges gran below).stage ∧
      (s (below + 1) = (walkTo merges gran below).stage →
        ∀ l, below + 1 ≤ l → l ≤ below + (walkTo merges gran below).countdown → l ≤ top →
          s l = s (below + 1)) := by
  induction below with
  | zero =>
    refine ⟨(folds.first h).le, fun _ l above near high => ?_⟩
    apply folds.goes_on le_rfl _ above _ high
    · intro k low less
      omega
    · have start : (walkTo merges gran 0).countdown = gran := rfl
      omega
  | succ below ih =>
    obtain ⟨le, tied⟩ := ih (by omega)
    have ahead := walkTo_countdown merges pos below
    have step := folds.step (below + 1) (by omega) h
    -- Where the stage changes at this level, the walk owes it no more than `gran` levels.
    have fresh : s (below + 1) < s (below + 1 + 1) → ∀ l, below + 1 + 1 ≤ l →
        l < below + 1 + 1 + gran → l ≤ top → s l = s (below + 1 + 1) := by
      intro less l above near high
      apply folds.goes_on (by omega) _ above near high
      intro k low before
      have := folds.mono low (by omega : k ≤ below + 1) (by omega)
      omega
    have same : s (below + 1) = (walkTo merges gran below).stage → ∀ l, below + 1 ≤ l →
        l ≤ below + 1 + (walkTo merges gran below).left merges (below + 1) → l ≤ top →
          s l = s (below + 1) := by
      intro here l above near high
      rcases (walkTo merges gran below).left_cases merges (below + 1) with
        goes | ⟨upper, entry, takes⟩
      · exact tied here l above (by omega) high
      · rcases Nat.lt_or_ge below upper with inside | outside
        · exact folds.merged (below + 1) upper entry (by omega) (by omega) l above (by omega)
        · have only : l = below + 1 := by omega
          rw [only]
    have debt := walkTo_debt merges gran (below + 1)
    rw [walkTo, StageWalk.next] at debt ⊢
    split at debt
    next last =>
      rw [if_pos last]
      dsimp only
      refine ⟨by omega, fun here l above near high => ?_⟩
      exact fresh (by omega) l above (by omega) high
    next more =>
      rw [if_neg more]
      dsimp only at debt ⊢
      by_cases here : s (below + 1) = (walkTo merges gran below).stage
      · have next := same here (below + 1 + 1) (by omega) (by omega) (by omega)
        refine ⟨by omega, fun _ l above near high => ?_⟩
        rw [next]
        exact same here l (by omega) near high
      · refine ⟨by omega, fun late l above near high => ?_⟩
        rcases debt with short | ⟨level, upper, entry, low, passed, owed⟩
        · exact fresh (by omega) l above (by omega) high
        · -- A merge that still reaches on would have kept the two levels in one stage.
          have merged := folds.merged level upper entry low (by omega)
          have one := merged (below + 1) (by omega) (by omega)
          have two := merged (below + 1 + 1) (by omega) (by omega)
          omega

/-- The stage map folds the levels into the finest partition there is, and the walk that makes it
has always something left for its stage. Without merges, stages take in `gran` levels each. -/
theorem stageMap_finest (pos : 1 ≤ gran) (top : Nat) (merges : List (Nat × Nat)) :
    Folds top merges gran (stageAt top merges gran) ∧
    (∀ s, Folds top merges gran s → ∀ level, 1 ≤ level → level ≤ top →
      s level ≤ stageAt top merges gran level) ∧
    (∀ below, below < top → stageAt top merges gran (below + 1) = (walkTo merges gran below).stage ∧
      1 ≤ (walkTo merges gran below).countdown) ∧
    (merges = [] → (stageMap top merges gran).getLastD 0 = top ⌈/⌉ gran) := by
  refine ⟨folds_stageAt top merges pos, fun s folds level low high => ?_, fun below h => ?_, ?_⟩
  · obtain ⟨below, rfl⟩ : ∃ below, level = below + 1 := ⟨level - 1, by omega⟩
    rw [stageAt_succ merges pos high]
    exact (folds.behind_walk pos high).1
  · exact ⟨stageAt_succ merges pos h, walkTo_countdown merges pos below⟩
  · rintro rfl
    exact stageMap_last_nil pos top

theorem stageMap_finest_overlapping :
    stageMap 7 [(1, 4), (2, 3), (5, 2), (6, 9)] 2 = [0, 1, 1, 1, 1, 2, 2, 2] ∧
      ∀ s, Folds 7 [(1, 4), (2, 3), (5, 2), (6, 9)] 2 s → s 7 ≤ 2 := by
  refine ⟨by decide, fun s folds => ?_⟩
  have finest := stageMap_finest (by decide : 1 ≤ 2) 7 [(1, 4), (2, 3), (5, 2), (6, 9)]
  exact finest.2.1 s folds 7 (by decide) (by decide)

end Folds

end Staging
