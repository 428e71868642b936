import Mathlib
import Staging.Block

namespace Staging

/-- `a` stands before `b` in a list. -/
def Before {α : Type} (l : List α) (a b : α) : Prop :=
  [a, b].Sublist l

instance {α : Type} [DecidableEq α] (l : List α) (a b : α) : Decidable (Before l a b) :=
  inferInstanceAs (Decidable ([a, b].Sublist l))

section Before

variable {α : Type} {l x y : List α} {a b c : α}

theorem Before.mem_left (h : Before l a b) : a ∈ l :=
  h.subset (by simp)

theorem Before.mem_right (h : Before l a b) : b ∈ l :=
  h.subset (by simp)

theorem Before.sublist (h : Before x a b) (sub : x.Sublist y) : Before y a b :=
  List.Sublist.trans h sub

theorem before_nil : ¬ Before ([] : List α) a b := by
  intro h
  simpa using h.mem_left

theorem before_cons : Before (c :: l) a b ↔ (c = a ∧ b ∈ l) ∨ Before l a b := by
  constructor
  · intro h
    rcases List.cons_sublist_cons'.mp h with low | ⟨rfl, rest⟩
    · exact Or.inr low
    · exact Or.inl ⟨rfl, List.singleton_sublist.mp rest⟩
  · rintro (⟨rfl, hb⟩ | h)
    · exact List.Sublist.cons_cons c (List.singleton_sublist.mpr hb)
    · exact List.Sublist.cons c h

theorem before_append :
    Before (x ++ y) a b ↔ Before x a b ∨ (a ∈ x ∧ b ∈ y) ∨ Before y a b := by
  induction x with
  | nil => simp [before_nil]
  | cons d x ih =>
    rw [List.cons_append, before_cons, ih, before_cons]
    simp only [List.mem_append, List.mem_cons]
    constructor
    · rintro (⟨rfl, hb | hb⟩ | h | ⟨ha, hb⟩ | h)
      · exact Or.inl (Or.inl ⟨rfl, hb⟩)
      · exact Or.inr (Or.inl ⟨Or.inl rfl, hb⟩)
      · exact Or.inl (Or.inr h)
      · exact Or.inr (Or.inl ⟨Or.inr ha, hb⟩)
      · exact Or.inr (Or.inr h)
    · rintro ((⟨rfl, hb⟩ | h) | ⟨rfl | ha, hb⟩ | h)
      · exact Or.inl ⟨rfl, Or.inl hb⟩
      · exact Or.inr (Or.inl h)
      · exact Or.inl ⟨rfl, Or.inr hb⟩
      · exact Or.inr (Or.inr (Or.inl ⟨ha, hb⟩))
      · exact Or.inr (Or.inr (Or.inr h))

theorem pairwise_iff_before {R : α → α → Prop} :
    l.Pairwise R ↔ ∀ a b, Before l a b → R a b := by
  rw [List.pairwise_iff_forall_sublist]
  exact ⟨fun h _ _ => h, fun h _ _ => h _ _⟩

theorem Before.ne (nodup : l.Nodup) (h : Before l a b) : a ≠ b :=
  pairwise_iff_before.mp nodup a b h

theorem before_total (ha : a ∈ l) (hb : b ∈ l) (ne : a ≠ b) : Before l a b ∨ Before l b a := by
  induction l with
  | nil => simp at ha
  | cons c l ih =>
    simp only [before_cons]
    rcases List.mem_cons.mp ha with rfl | ha'
    · exact Or.inl (Or.inl ⟨rfl, (List.mem_cons.mp hb).resolve_left ne.symm⟩)
    · rcases List.mem_cons.mp hb with rfl | hb'
      · exact Or.inr (Or.inl ⟨rfl, ha'⟩)
      · exact (ih ha' hb').imp Or.inr Or.inr

theorem Before.asymm (nodup : l.Nodup) (h : Before l a b) : ¬ Before l b a := by
  induction l with
  | nil => exact before_nil
  | cons c l ih =>
    obtain ⟨hc, hl⟩ := List.nodup_cons.mp nodup
    rcases before_cons.mp h with ⟨rfl, hb⟩ | h'
    · intro back
      rcases before_cons.mp back with ⟨rfl, _⟩ | back
      · exact hc hb
      · exact hc back.mem_right
    · intro back
      rcases before_cons.mp back with ⟨rfl, _⟩ | back
      · exact hc h'.mem_right
      · exact ih hl h' back

theorem Before.trans (nodup : l.Nodup) (h : Before l a b) (h' : Before l b c) :
    Before l a c := by
  induction l with
  | nil => exact absurd h before_nil
  | cons d l ih =>
    obtain ⟨hd, hl⟩ := List.nodup_cons.mp nodup
    rcases before_cons.mp h' with ⟨rfl, _⟩ | low
    · rcases before_cons.mp h with ⟨rfl, hb⟩ | h
      · exact absurd hb hd
      · exact absurd h.mem_right hd
    · rcases before_cons.mp h with ⟨rfl, _⟩ | h
      · exact before_cons.mpr (Or.inl ⟨rfl, low.mem_right⟩)
      · exact before_cons.mpr (Or.inr (ih hl h low))

theorem before_iff_append : Before l a b ↔ ∃ x y, l = x ++ a :: y ∧ b ∈ y := by
  constructor
  · intro h
    induction l with
    | nil => exact absurd h before_nil
    | cons c l ih =>
      rcases before_cons.mp h with ⟨rfl, hb⟩ | h
      · exact ⟨[], l, rfl, hb⟩
      · obtain ⟨x, y, rfl, hb⟩ := ih h
        exact ⟨c :: x, y, rfl, hb⟩
  · rintro ⟨x, y, rfl, hb⟩
    exact before_append.mpr (Or.inr (Or.inr (before_cons.mpr (Or.inl ⟨rfl, hb⟩))))

theorem Before.mem_behind {earlier behind : List α} (h : Before l a b) (nodup : l.Nodup)
    (hl : l = earlier ++ a :: behind) : b ∈ behind := by
  subst hl
  have new : a ∉ earlier := fun ha => (List.nodup_append.mp nodup).2.2 a ha a (by simp) rfl
  rcases before_append.mp h with h | ⟨ha, _⟩ | h
  · exact absurd h.mem_left new
  · exact absurd ha new
  · rcases before_cons.mp h with ⟨_, hb⟩ | h
    · exact hb
    · exact absurd h.mem_left (List.nodup_cons.mp (List.nodup_append.mp nodup).2.1).1

theorem Before.mem_front {earlier behind : List α} (h : Before l a b) (nodup : l.Nodup)
    (hl : l = earlier ++ b :: behind) : a ∈ earlier := by
  subst hl
  refine (List.mem_append.mp h.mem_left).resolve_right fun ha => ?_
  rcases List.mem_cons.mp ha with rfl | ha
  · exact h.ne nodup rfl
  · exact h.asymm nodup (before_iff_append.mpr ⟨earlier, behind, rfl, ha⟩)

theorem Before.of_sublist (nodup : l.Nodup) (h : Before l a b) (sub : x.Sublist l) (ha : a ∈ x)
    (hb : b ∈ x) : Before x a b := by
  rcases before_total ha hb (h.ne nodup) with h' | h'
  · exact h'
  · exact absurd (h'.sublist sub) (h.asymm nodup)

theorem before_iff_idxOf [DecidableEq α] (nodup : l.Nodup) (ha : a ∈ l) (hb : b ∈ l) :
    Before l a b ↔ l.idxOf a < l.idxOf b := by
  induction l with
  | nil => simp at ha
  | cons c l ih =>
    obtain ⟨hc, hl⟩ := List.nodup_cons.mp nodup
    rw [before_cons]
    by_cases hca : c = a
    · subst hca
      by_cases hcb : c = b
      · subst hcb
        simp only [hc, and_false, false_or, lt_self_iff_false, iff_false]
        exact fun h => hc h.mem_left
      · have hb' := (List.mem_cons.mp hb).resolve_left (Ne.symm hcb)
        simp [List.idxOf_cons_ne _ hcb, hb']
    · have ha' := (List.mem_cons.mp ha).resolve_left (Ne.symm hca)
      by_cases hcb : c = b
      · subst hcb
        simp only [hca, false_and, false_or, List.idxOf_cons_self, Nat.not_lt_zero, iff_false]
        exact fun h => hc h.mem_right
      · have hb' := (List.mem_cons.mp hb).resolve_left (Ne.symm hcb)
        simp [List.idxOf_cons_ne _ hca, List.idxOf_cons_ne _ hcb, hca, ih hl ha' hb']

end Before

end Staging
