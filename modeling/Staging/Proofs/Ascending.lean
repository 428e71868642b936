import Mathlib
import Staging.Stages

namespace Staging

/-- Entries whose keys ascend. -/
def Ascending {β : Type} (entries : List (Nat × β)) : Prop :=
  entries.Pairwise fun a b => a.1 < b.1

/-- Changes the entry of a key, or adds one where its key belongs. -/
def enter {β : Type} (key : Nat) (f : Option β → β) : List (Nat × β) → List (Nat × β)
  | [] => [(key, f none)]
  | (k, v) :: rest =>
    if key < k then (key, f none) :: (k, v) :: rest
    else if key = k then (k, f (some v)) :: rest
    else (k, v) :: enter key f rest

theorem addMerge_eq_enter (lower upper : Nat) (merges : List (Nat × Nat)) :
    addMerge lower upper merges = enter lower (fun old => max (old.getD upper) upper) merges := by
  induction merges with
  | nil => simp [addMerge, enter]
  | cons entry merges ih => simp [addMerge, enter, ih]

theorem addToGroup_eq_enter (level : Nat) (n : NodeId) (groups : List (Nat × List NodeId)) :
    addToGroup level n groups = enter level (fun old => old.getD [] ++ [n]) groups := by
  induction groups with
  | nil => simp [addToGroup, enter]
  | cons entry groups ih => simp [addToGroup, enter, ih]

section Enter

variable {β : Type} {entries : List (Nat × β)}

theorem lookup_enter (ascending : Ascending entries) (key other : Nat) (f : Option β → β) :
    (enter key f entries).lookup other =
      if other = key then some (f (entries.lookup key)) else entries.lookup other := by
  induction entries with
  | nil =>
    by_cases h : other = key
    · subst h
      simp [enter]
    · simp [enter, h, List.lookup_cons, beq_eq_false_iff_ne.mpr h]
  | cons entry entries ih =>
    obtain ⟨k, v⟩ := entry
    obtain ⟨first, rest⟩ := List.pairwise_cons.mp ascending
    have absent : key < k → entries.lookup key = none := by
      intro hlt
      rw [List.lookup_eq_none_iff]
      intro p hp
      have := first p hp
      simp only [bne_iff_ne, ne_eq]
      omega
    unfold enter
    by_cases hlt : key < k
    · rw [if_pos hlt, List.lookup_cons, List.lookup_cons, List.lookup_cons]
      by_cases h : other = key
      · subst h
        have ne : (other == k) = false := beq_eq_false_iff_ne.mpr (by omega)
        simp [ne, absent hlt]
      · simp [beq_eq_false_iff_ne.mpr h, h]
    · rw [if_neg hlt]
      by_cases heq : key = k
      · subst heq
        rw [if_pos rfl, List.lookup_cons, List.lookup_cons, List.lookup_cons]
        by_cases h : other = key
        · subst h
          simp
        · simp [beq_eq_false_iff_ne.mpr h, h]
      · rw [if_neg heq, List.lookup_cons, List.lookup_cons, List.lookup_cons, ih rest]
        by_cases h : other = key
        · subst h
          have ne : (other == k) = false := beq_eq_false_iff_ne.mpr heq
          simp [ne]
        · simp [h]

theorem mem_enter {key : Nat} {f : Option β → β} {entry : Nat × β}
    (h : entry ∈ enter key f entries) : entry.1 = key ∨ entry ∈ entries := by
  induction entries with
  | nil => exact Or.inl (by simp_all [enter])
  | cons first entries ih =>
    obtain ⟨k, v⟩ := first
    unfold enter at h
    split at h
    next =>
      rcases List.mem_cons.mp h with rfl | h
      · exact Or.inl rfl
      · exact Or.inr h
    next =>
      split at h
      next he =>
        rcases List.mem_cons.mp h with rfl | h
        · exact Or.inl he.symm
        · exact Or.inr (List.mem_cons_of_mem _ h)
      next =>
        rcases List.mem_cons.mp h with rfl | h
        · exact Or.inr (by simp)
        · exact (ih h).imp_right fun hm => List.mem_cons_of_mem _ hm

theorem enter_ascending (ascending : Ascending entries) (key : Nat) (f : Option β → β) :
    Ascending (enter key f entries) := by
  unfold Ascending at ascending ⊢
  induction entries with
  | nil => simp [enter]
  | cons entry entries ih =>
    obtain ⟨k, v⟩ := entry
    obtain ⟨first, rest⟩ := List.pairwise_cons.mp ascending
    unfold enter
    split
    next hlt =>
      refine List.pairwise_cons.mpr ⟨fun p hp => ?_, ascending⟩
      rcases List.mem_cons.mp hp with rfl | hp
      · exact hlt
      · exact Nat.lt_trans hlt (first p hp)
    next hge =>
      split
      next => exact List.pairwise_cons.mpr ⟨first, rest⟩
      next ne =>
        refine List.pairwise_cons.mpr ⟨fun p hp => ?_, ih rest⟩
        rcases mem_enter hp with he | hp
        · simp only
          omega
        · exact first p hp

theorem Ascending.mem_iff_lookup (ascending : Ascending entries) {key : Nat} {v : β} :
    (key, v) ∈ entries ↔ entries.lookup key = some v := by
  induction entries with
  | nil => simp
  | cons entry entries ih =>
    obtain ⟨k, w⟩ := entry
    obtain ⟨first, rest⟩ := List.pairwise_cons.mp ascending
    rw [List.lookup_cons, List.mem_cons, ih rest]
    by_cases h : key = k
    · subst h
      have absent : entries.lookup key ≠ some v := by
        intro hl
        have := first _ ((ih rest).mpr hl)
        omega
      simp [absent, eq_comm]
    · simp [h, beq_eq_false_iff_ne.mpr h]

end Enter

/-- Entries with ascending keys are known by what they give for each key. -/
theorem Ascending.ext {β : Type} {entries entries' : List (Nat × β)} (h : Ascending entries)
    (h' : Ascending entries') (same : ∀ key, entries.lookup key = entries'.lookup key) :
    entries = entries' := by
  have irrefl : Std.Irrefl fun a b : Nat × β => a.1 < b.1 := ⟨fun a => Nat.lt_irrefl a.1⟩
  refine List.Pairwise.eq_of_mem_iff h h' fun entry => ?_
  rw [h.mem_iff_lookup, h'.mem_iff_lookup, same]

section Merges

variable {α : Type} (lower upper : α → Nat)

theorem max?_concat (ns : List Nat) (n : Nat) :
    (ns ++ [n]).max? = some (max (ns.max?.getD n) n) := by
  cases ns with
  | nil => simp
  | cons first ns => simp only [List.cons_append, List.max?_cons', List.foldl_append,
      List.foldl_cons, List.foldl_nil, Option.getD_some]

/-- A level is merged with the highest one that was recorded for it. -/
theorem foldl_addMerge_spec (l : List α) :
    Ascending (l.foldl (fun found e => addMerge (lower e) (upper e) found) []) ∧
      ∀ key, (l.foldl (fun found e => addMerge (lower e) (upper e) found) []).lookup key =
        ((l.filter fun a => lower a = key).map upper).max? := by
  induction l using List.reverseRecOn with
  | nil => exact ⟨List.Pairwise.nil, by simp⟩
  | append_singleton l b ih =>
    obtain ⟨ascending, found⟩ := ih
    rw [List.foldl_append, List.foldl_cons, List.foldl_nil, addMerge_eq_enter]
    refine ⟨enter_ascending ascending _ _, fun key => ?_⟩
    rw [lookup_enter ascending, found, found, List.filter_append, List.map_append]
    by_cases hb : key = lower b
    · subst hb
      simp [max?_concat]
    · simp [hb, Ne.symm hb]

/-- Every merge that is recorded is covered by the entry of its lower level. -/
theorem lookup_foldl_addMerge (l : List α) {a : α} (h : a ∈ l) :
    ∃ t, (l.foldl (fun found e => addMerge (lower e) (upper e) found) []).lookup
      (lower a) = some t ∧ upper a ≤ t := by
  have covered : upper a ∈ (l.filter fun b => lower b = lower a).map upper :=
    List.mem_map_of_mem (List.mem_filter.mpr ⟨h, by simp⟩)
  obtain ⟨t, ht⟩ := Option.isSome_iff_exists.mp
    (List.isSome_max?_iff.mpr (List.ne_nil_of_mem covered))
  exact ⟨t, ((foldl_addMerge_spec lower upper l).2 _).trans ht,
    (List.max?_eq_some_iff.mp ht).2 _ covered⟩

/-- What is merged depends only on which levels are to be merged. -/
theorem foldl_addMerge_congr {l l' : List α} (same : ∀ low high,
    (∃ a ∈ l, lower a = low ∧ upper a = high) ↔ ∃ a ∈ l', lower a = low ∧ upper a = high) :
    l.foldl (fun found e => addMerge (lower e) (upper e) found) [] =
      l'.foldl (fun found e => addMerge (lower e) (upper e) found) [] := by
  obtain ⟨ascending, found⟩ := foldl_addMerge_spec lower upper l
  obtain ⟨ascending', found'⟩ := foldl_addMerge_spec lower upper l'
  refine ascending.ext ascending' fun key => ?_
  rw [found, found']
  have mem : ∀ high, high ∈ (l.filter fun a => lower a = key).map upper ↔
      high ∈ (l'.filter fun a => lower a = key).map upper := by
    simpa [and_assoc] using same key
  refine Option.ext fun high => ?_
  simp only [List.max?_eq_some_iff, mem]

end Merges

/-- The groups are the levels of the body in ascending order, each with its nodes in the order
of the body. -/
theorem Region.groups_spec (r : Region) : Ascending r.groups ∧
    ∀ level, r.groups.lookup level =
      if r.body.filter (fun n => r.level? n = some level) = [] then none
      else some (r.body.filter fun n => r.level? n = some level) := by
  unfold groups
  induction r.body using List.reverseRecOn with
  | nil => exact ⟨List.Pairwise.nil, fun level => by simp⟩
  | append_singleton ns n ih =>
    obtain ⟨ascending, found⟩ := ih
    have last : ∀ level, (ns ++ [n]).filter (fun n => r.level? n = some level) =
        ns.filter (fun n => r.level? n = some level) ++
          if r.level? n = some level then [n] else [] := by
      intro level
      by_cases h : r.level? n = some level <;> simp [h]
    rw [List.foldl_append, List.foldl_cons, List.foldl_nil]
    cases hl : r.level? n with
    | none =>
      refine ⟨ascending, fun level => ?_⟩
      rw [last, hl]
      simpa using found level
    | some l =>
      dsimp only
      rw [addToGroup_eq_enter]
      refine ⟨enter_ascending ascending _ _, fun level => ?_⟩
      rw [lookup_enter ascending, found level, found l, last, hl]
      by_cases h : level = l
      · subst h
        rw [if_pos rfl, if_pos rfl]
        split <;> simp_all
      · rw [if_neg h, if_neg fun he => h (Option.some.inj he).symm, List.append_nil]

end Staging
