import Mathlib
import Staging.Stages

namespace Staging

/-- The walk up the levels when it comes to level `below + 1`. -/
def walkTo (merges : List (Nat × Nat)) (gran : Nat) : Nat → StageWalk
  | 0 => ⟨1, gran⟩
  | below + 1 => (walkTo merges gran below).next merges gran (below + 1)

/-- The stage that a planned level is folded into. -/
def Options.stageOf (o : Options) (merges : List (Nat × Nat)) (level : Nat) : Nat :=
  if o.renumbers then (stageMap level merges o.minGran).getLastD 0 else level

theorem stagesFrom_walkTo (merges : List (Nat × Nat)) (gran count below : Nat) :
    stagesFrom merges gran count (below + 1) (walkTo merges gran below) =
      (List.range count).map fun i => (walkTo merges gran (below + i)).stage := by
  induction count generalizing below with
  | zero => rfl
  | succ count ih =>
    rw [stagesFrom, List.range_succ_eq_map, List.map_cons, List.map_map]
    have next := ih (below + 1)
    rw [walkTo] at next
    rw [next]
    congr 1
    exact List.map_congr_left fun i _ => by
      simp only [Function.comp_apply]
      congr 2
      omega

theorem stageMap_eq (top : Nat) (merges : List (Nat × Nat)) (gran : Nat) :
    stageMap top merges gran =
      0 :: (List.range top).map fun i => (walkTo merges (max gran 1) i).stage := by
  have h := stagesFrom_walkTo merges (max gran 1) top 0
  simp only [walkTo, Nat.zero_add] at h
  simp only [stageMap, h]

/-- The stage of a level does not depend on how many levels there are above it. -/
theorem stageMap_getElem? {top level : Nat} (merges : List (Nat × Nat)) (gran : Nat)
    (h : level ≤ top) : (stageMap top merges gran)[level]? =
      some ((stageMap level merges gran).getLastD 0) := by
  rw [stageMap_eq, stageMap_eq]
  cases level with
  | zero => rfl
  | succ below =>
    have hlt : below < top := by omega
    simp [List.getLastD, List.range_succ, hlt]

theorem stageMap_last (below : Nat) (merges : List (Nat × Nat)) (gran : Nat) :
    (stageMap (below + 1) merges gran).getLastD 0 =
      (walkTo merges (max gran 1) below).stage := by
  rw [stageMap_eq]
  simp [List.getLastD, List.range_succ]

theorem walkTo_succ_stage (merges : List (Nat × Nat)) (gran below : Nat) :
    (walkTo merges gran (below + 1)).stage = (walkTo merges gran below).stage ∨
      (walkTo merges gran (below + 1)).stage = (walkTo merges gran below).stage + 1 := by
  rw [walkTo, StageWalk.next]
  split
  next => exact Or.inr rfl
  next => exact Or.inl rfl

theorem StageWalk.le_left {w : StageWalk} {merges : List (Nat × Nat)} {level : Nat} :
    w.countdown - 1 ≤ w.left merges level := by
  unfold left
  split
  next => exact Nat.le_max_left _ _
  next => exact le_rfl

/-- From a level with a merge on, the walk stays in one stage up to the level merged with it. -/
theorem walkTo_merged {merges : List (Nat × Nat)} {gran below upper : Nat}
    (h : merges.lookup (below + 1) = some upper) (k : Nat) (hk : below + 1 + k ≤ upper) :
    (walkTo merges gran (below + k)).stage = (walkTo merges gran below).stage ∧
      upper - (below + 1 + k) ≤ (walkTo merges gran (below + k)).left merges (below + k + 1) := by
  induction k with
  | zero =>
    refine ⟨rfl, ?_⟩
    simp only [Nat.add_zero, StageWalk.left, h]
    exact Nat.le_max_right _ _
  | succ k ih =>
    obtain ⟨same, enough⟩ := ih (by omega)
    have stays : (walkTo merges gran (below + k)).left merges (below + k + 1) ≠ 0 := by omega
    have next : walkTo merges gran (below + (k + 1)) =
        ⟨(walkTo merges gran (below + k)).stage,
          (walkTo merges gran (below + k)).left merges (below + k + 1)⟩ := by
      rw [← Nat.add_assoc, walkTo, StageWalk.next, if_neg stays]
    refine ⟨by rw [next]; exact same, ?_⟩
    refine le_trans ?_ StageWalk.le_left
    rw [next]
    simp only
    omega

/-- Where nothing is merged, stages take `gran` levels each. -/
theorem walkTo_nil {gran : Nat} (pos : 1 ≤ gran) (below : Nat) :
    walkTo [] gran below = ⟨below / gran + 1, gran - below % gran⟩ := by
  induction below with
  | zero => simp [walkTo]
  | succ below ih =>
    have left : (walkTo [] gran below).left [] (below + 1) = gran - below % gran - 1 := by
      simp [StageWalk.left, ih]
    have small := Nat.mod_lt below pos
    rw [walkTo, StageWalk.next, left, ih]
    split
    next last =>
      have next : below + 1 = gran * (below / gran + 1) := by
        have := Nat.div_add_mod below gran
        rw [Nat.mul_add]
        omega
      rw [next, Nat.mul_div_cancel_left _ pos, Nat.mul_mod_right]
      simp
    next more =>
      have inside : below + 1 = below % gran + 1 + gran * (below / gran) := by
        have := Nat.div_add_mod below gran
        omega
      have high : below % gran + 1 < gran := by omega
      have stage : (below + 1) / gran = below / gran := by
        rw [inside, Nat.add_mul_div_left _ _ pos, Nat.div_eq_of_lt high, Nat.zero_add]
      have place : (below + 1) % gran = below % gran + 1 := by
        rw [inside, Nat.add_mul_mod_self_left, Nat.mod_eq_of_lt high]
      rw [stage, place, Nat.sub_add_eq]

theorem stageMap_last_nil {gran : Nat} (pos : 1 ≤ gran) (top : Nat) :
    (stageMap top [] gran).getLastD 0 = top ⌈/⌉ gran := by
  cases top with
  | zero => simp [stageMap, stagesFrom]
  | succ below =>
    rw [stageMap_last, Nat.max_eq_left pos, walkTo_nil pos, Nat.ceilDiv_eq_add_pred_div,
      Nat.add_right_comm, Nat.add_sub_cancel, Nat.add_div_right _ pos]

theorem Options.stageOf_succ (o : Options) (merges : List (Nat × Nat)) {level : Nat}
    (pos : 1 ≤ level) : o.stageOf merges (level + 1) = o.stageOf merges level ∧ o.renumbers = true ∨
      o.stageOf merges (level + 1) = o.stageOf merges level + 1 := by
  obtain ⟨below, rfl⟩ : ∃ below, level = below + 1 := ⟨level - 1, by omega⟩
  unfold stageOf
  by_cases hr : o.renumbers = true
  · simp only [hr, if_true, and_true]
    rw [stageMap_last, stageMap_last]
    exact walkTo_succ_stage merges _ below
  · simp [hr]

theorem Options.stageOf_mono (o : Options) (merges : List (Nat × Nat)) {lower upper : Nat}
    (pos : 1 ≤ lower) (h : lower ≤ upper) :
    o.stageOf merges lower ≤ o.stageOf merges upper := by
  induction upper, h using Nat.le_induction with
  | base => exact le_rfl
  | succ upper hle ih =>
    rcases o.stageOf_succ merges (pos.trans hle) with ⟨he, _⟩ | he <;> omega

theorem Options.stageOf_one (o : Options) (merges : List (Nat × Nat)) :
    o.stageOf merges 1 = 1 := by
  unfold stageOf
  split
  next => rw [show 1 = 0 + 1 from rfl, stageMap_last]; rfl
  next => rfl

theorem Options.one_le_stageOf (o : Options) (merges : List (Nat × Nat)) {level : Nat}
    (pos : 1 ≤ level) : 1 ≤ o.stageOf merges level :=
  (o.stageOf_one merges) ▸ o.stageOf_mono merges le_rfl pos

/-- Every stage up to that of a level is the stage of some level up to it. -/
theorem Options.exists_stageOf_eq (o : Options) (merges : List (Nat × Nat)) {level stage : Nat}
    (pos : 1 ≤ level) (low : 1 ≤ stage) (h : stage ≤ o.stageOf merges level) :
    ∃ l, 1 ≤ l ∧ l ≤ level ∧ o.stageOf merges l = stage := by
  induction level, pos using Nat.le_induction with
  | base =>
    rw [o.stageOf_one] at h
    exact ⟨1, le_rfl, le_rfl, by rw [o.stageOf_one]; omega⟩
  | succ level pos ih =>
    by_cases hs : stage ≤ o.stageOf merges level
    · obtain ⟨l, hl, hle, he⟩ := ih hs
      exact ⟨l, hl, by omega, he⟩
    · rcases o.stageOf_succ merges pos with ⟨he, _⟩ | he
      · omega
      · exact ⟨level + 1, by omega, le_rfl, by omega⟩

/-- Levels that are merged end up in one stage. -/
theorem Options.stageOf_merged {o : Options} {merges : List (Nat × Nat)} {lower upper t : Nat}
    (renumbers : o.renumbers = true) (h : merges.lookup lower = some t) (pos : 1 ≤ lower)
    (hle : lower ≤ upper) (hu : upper ≤ t) : o.stageOf merges upper = o.stageOf merges lower := by
  obtain ⟨below, rfl⟩ : ∃ below, lower = below + 1 := ⟨lower - 1, by omega⟩
  obtain ⟨k, rfl⟩ : ∃ k, upper = below + 1 + k := ⟨upper - (below + 1), by omega⟩
  have same : (walkTo merges (max o.minGran 1) (below + k)).stage =
      (walkTo merges (max o.minGran 1) below).stage := (walkTo_merged h k hu).1
  unfold stageOf
  rw [if_pos renumbers, if_pos renumbers, stageMap_last,
    show below + 1 + k = below + k + 1 by omega, stageMap_last, same]

end Staging
