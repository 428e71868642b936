import Staging.Stages
import Staging.Proofs.WellFormed

namespace Staging

theorem insertIdx_append_length {α : Type} (x y : List α) (a : α) :
    (x ++ y).insertIdx x.length a = x ++ a :: y := by
  induction x with
  | nil => simp
  | cons b x ih => simpa [List.insertIdx_succ_cons] using ih

theorem idxOf?_append_cons {α : Type} [DecidableEq α] {x y : List α} {a : α} (h : a ∉ x) :
    (x ++ a :: y).idxOf? a = some x.length := by
  rw [List.idxOf?_eq_some_iff]
  refine ⟨by simp, by simp, fun j hj => ?_⟩
  rw [List.getElem_append_left hj]
  exact fun he => h (he ▸ List.getElem_mem hj)

/-- Moving a node in front of a later one takes it past all between them. -/
theorem moveInFront_split {n anchor : NodeId} {before mid behind : List NodeId}
    (nodup : (before ++ n :: mid ++ anchor :: behind).Nodup) :
    moveInFront n anchor (before ++ n :: mid ++ anchor :: behind) =
      some (before ++ mid ++ n :: anchor :: behind) := by
  obtain ⟨front, _, apart⟩ := List.nodup_append.mp nodup
  have hn : n ∉ before := fun h =>
    (List.nodup_append.mp front).2.2 n h n (by simp) rfl
  have herase : (before ++ n :: mid ++ anchor :: behind).erase n =
      before ++ mid ++ anchor :: behind := by
    rw [List.append_assoc, List.erase_append_right _ hn]
    simp
  have hanchor : anchor ∉ before ++ mid := by
    intro h
    have hs : anchor ∈ before ++ n :: mid := by
      rcases List.mem_append.mp h with h | h
      · exact List.mem_append_left _ h
      · exact List.mem_append_right _ (List.mem_cons_of_mem _ h)
    exact apart anchor hs anchor (by simp) rfl
  unfold moveInFront
  rw [if_pos (by simp)]
  simp only [herase, idxOf?_append_cons hanchor, Option.map_some, insertIdx_append_length]

/-- In a region whose blocks are a forest, a node of the body moves within the body. -/
theorem Region.Forest.moveBefore {r : Region} (forest : r.Forest) {n anchor : NodeId}
    {before mid behind : List NodeId}
    (perm : (before ++ n :: mid ++ anchor :: behind).Perm r.body) :
    ({ r with body := before ++ n :: mid ++ anchor :: behind } : Region).moveBefore n anchor =
      some ({ r with body := before ++ mid ++ n :: anchor :: behind }, true) := by
  have nodup := perm.nodup_iff.mpr forest.bodyNodup
  have hn : n ∈ r.body := perm.mem_iff.mp (by simp)
  have ha : anchor ∈ r.body := perm.mem_iff.mp (by simp)
  have ne : n ≠ anchor := by
    rintro rfl
    exact (List.nodup_append.mp nodup).2.2 n (by simp) n (by simp) rfl
  obtain ⟨node, hnode⟩ := node?_eq_some (forest.bodyKnown hn)
  obtain ⟨target, htarget⟩ := node?_eq_some (forest.bodyKnown ha)
  have hp : node.parent = none := by simpa [parent?, hnode] using forest.bodyParent hn
  have hq : target.parent = none := by simpa [parent?, htarget] using forest.bodyParent ha
  have hmove : moveInFront n anchor (before ++ n :: (mid ++ anchor :: behind)) =
      some (before ++ (mid ++ n :: anchor :: behind)) := by
    simpa using moveInFront_split nodup
  unfold node? at hnode htarget
  simp [Region.moveBefore, ne, node?, hnode, htarget, hp, hq, block?, setBlock, hmove]

theorem filter_notMem_cons {α : Type} [DecidableEq α] {c : α} {front rest carried : List α}
    (hfront : c ∉ front) (hrest : c ∉ rest) :
    (front ++ c :: rest).filter (· ∉ c :: carried) = (front ++ rest).filter (· ∉ carried) := by
  have drop : ∀ l : List α, c ∉ l → l.filter (· ∉ c :: carried) = l.filter (· ∉ carried) := by
    intro l hl
    refine List.filter_congr fun x hx => ?_
    have ne : x ≠ c := by
      rintro rfl
      exact hl hx
    simp [ne]
  rw [List.filter_append, List.filter_cons_of_neg (by simp), drop front hfront, drop rest hrest,
    ← List.filter_append]

/-- Moving some nodes one after the other in front of a later one takes them past all others
between them, in their order. -/
theorem Region.Forest.foldlM_countMove {r : Region} (forest : r.Forest) {anchor : NodeId}
    {carried : List NodeId} {before seg done behind : List NodeId} {moved : Nat}
    (sub : carried.Sublist seg)
    (perm : (before ++ seg ++ done ++ anchor :: behind).Perm r.body) :
    carried.foldlM (countMove anchor)
        ({ r with body := before ++ seg ++ done ++ anchor :: behind }, moved) =
      some ({ r with body := before ++ seg.filter (· ∉ carried) ++ done ++ carried ++
        anchor :: behind }, moved + carried.length) := by
  induction carried generalizing seg done moved with
  | nil => simp
  | cons c carried ih =>
    obtain ⟨first, second, rfl, hc, hsub⟩ := List.cons_sublist_iff.mp sub
    obtain ⟨front, rest, rfl⟩ := List.append_of_mem hc
    have perm' : (before ++ front ++ c :: (rest ++ second ++ done) ++ anchor :: behind).Perm
        r.body := by
      simpa using perm
    have nodup := perm'.nodup_iff.mpr forest.bodyNodup
    have step := forest.moveBefore perm'
    have next : (before ++ (front ++ rest ++ second) ++ (done ++ [c]) ++ anchor :: behind).Perm
        r.body := by
      refine List.Perm.trans ?_ perm'
      have move : (rest ++ second ++ done ++ [c]).Perm (c :: (rest ++ second ++ done)) :=
        List.perm_append_singleton c _
      simpa using (move.append_left (before ++ front)).append_right (anchor :: behind)
    have tail := @ih (front ++ rest ++ second) (done ++ [c]) (moved + 1)
      (hsub.trans (List.sublist_append_right _ _)) next
    have count : countMove anchor ({ r with
        body := before ++ (front ++ c :: rest ++ second) ++ done ++ anchor :: behind }, moved) c =
        some ({ r with body := before ++ (front ++ rest ++ second) ++ (done ++ [c]) ++
          anchor :: behind }, moved + 1) := by
      have hs : before ++ (front ++ c :: rest ++ second) ++ done ++ anchor :: behind =
          before ++ front ++ c :: (rest ++ second ++ done) ++ anchor :: behind := by simp
      simp only [countMove, hs, step, bind, Option.bind, if_true]
      simp
    rw [List.foldlM_cons, count]
    simp only [bind, Option.bind]
    rw [tail]
    have hfront : c ∉ front := by
      intro h
      have hfr : c ∈ before ++ front := List.mem_append_right _ h
      rw [List.append_assoc] at nodup
      exact (List.nodup_append.mp nodup).2.2 c hfr c (by simp) rfl
    have hrest : c ∉ rest ++ second := by
      intro h
      have hcr := (List.nodup_append.mp (List.append_assoc _ _ _ ▸ nodup)).2.1
      exact (List.nodup_cons.mp hcr).1 (List.mem_append_left _ (List.mem_append_left _ h))
    have dropped : (front ++ c :: rest ++ second).filter (· ∉ c :: carried) =
        (front ++ rest ++ second).filter (· ∉ carried) := by
      simpa using @filter_notMem_cons _ _ c front (rest ++ second) carried hfront hrest
    rw [dropped]
    simp only [List.append_assoc, List.singleton_append, List.length_cons]
    congr 2
    omega

section Shift

variable {anchor x y : NodeId} {carried before seg behind : List NodeId}

theorem shift_perm (sub : carried.Sublist seg) (nodup : seg.Nodup) :
    (before ++ seg.filter (· ∉ carried) ++ carried ++ anchor :: behind).Perm
      (before ++ seg ++ anchor :: behind) := by
  have nodupFilter : (seg.filter (· ∉ carried)).Nodup := nodup.sublist List.filter_sublist
  have split : (seg.filter (· ∉ carried) ++ carried).Perm seg := by
    refine (List.perm_ext_iff_of_nodup ?_ nodup).mpr fun z => ?_
    · refine List.nodup_append.mpr ⟨nodupFilter, nodup.sublist sub, ?_⟩
      rintro z hz w hw rfl
      exact (show z ∈ seg ∧ z ∉ carried by simpa using hz).2 hw
    · have inside : z ∈ carried → z ∈ seg := fun hz => sub.subset hz
      simp only [List.mem_append, List.mem_filter, decide_not, Bool.not_eq_true',
        decide_eq_false_iff_not]
      tauto
  simpa using (split.append_left before).append_right (anchor :: behind)

/-- What is not carried stays in front of all that it was in front of. -/
theorem before_shift (h : Before (before ++ seg ++ anchor :: behind) x y) (hx : x ∉ carried) :
    Before (before ++ seg.filter (· ∉ carried) ++ carried ++ anchor :: behind) x y := by
  simp only [List.append_assoc, before_append, List.mem_append] at h ⊢
  rcases h with h | ⟨hb, hy⟩ | h | ⟨hs, hy⟩ | h
  · exact Or.inl h
  · refine Or.inr (Or.inl ⟨hb, ?_⟩)
    by_cases hc : y ∈ carried
    · exact Or.inr (Or.inl hc)
    · rcases hy with hy | hy
      · exact Or.inl (List.mem_filter.mpr ⟨hy, by simpa using hc⟩)
      · exact Or.inr (Or.inr hy)
  · have hxf : x ∈ seg.filter (· ∉ carried) :=
      List.mem_filter.mpr ⟨h.mem_left, by simpa using hx⟩
    by_cases hc : y ∈ carried
    · exact Or.inr (Or.inr (Or.inr (Or.inl ⟨hxf, Or.inl hc⟩)))
    · refine Or.inr (Or.inr (Or.inl ?_))
      have := List.Sublist.filter (· ∉ carried) h
      simpa [Before, hx, hc] using this
  · have hxf : x ∈ seg.filter (· ∉ carried) := List.mem_filter.mpr ⟨hs, by simpa using hx⟩
    exact Or.inr (Or.inr (Or.inr (Or.inl ⟨hxf, Or.inr hy⟩)))
  · exact Or.inr (Or.inr (Or.inr (Or.inr (Or.inr (Or.inr h)))))

theorem before_shift_carried (hx : x ∈ before ++ seg) (left : x ∉ carried) (hy : y ∈ carried) :
    Before (before ++ seg.filter (· ∉ carried) ++ carried ++ anchor :: behind) x y := by
  rw [List.append_assoc]
  refine before_append.mpr (Or.inr (Or.inl ⟨?_, by simp [hy]⟩))
  rcases List.mem_append.mp hx with hx | hx
  · exact List.mem_append_left _ hx
  · exact List.mem_append_right _ (List.mem_filter.mpr ⟨hx, by simpa using left⟩)

theorem before_shift_anchor (hx : x ∈ carried) :
    Before (before ++ seg.filter (· ∉ carried) ++ carried ++ anchor :: behind) x anchor := by
  rw [List.append_assoc]
  exact before_append.mpr (Or.inr (Or.inr (before_append.mpr (Or.inr (Or.inl ⟨hx, by simp⟩)))))

theorem mem_of_before_shift {more : List NodeId} (sub : (x :: more).Sublist seg)
    (nodup : (before ++ seg ++ anchor :: behind).Nodup)
    (h : Before (before ++ seg.filter (· ∉ x :: more) ++ (x :: more) ++ anchor :: behind) x y) :
    y ∈ more ∨ y = anchor ∨ y ∈ behind := by
  have nodupSeg : seg.Nodup := (List.nodup_append.mp (List.nodup_append.mp nodup).1).2.1
  have nodup' := (shift_perm sub nodupSeg).nodup_iff.mpr nodup
  have rest := h.mem_behind nodup' (by simp : _ =
    before ++ seg.filter (· ∉ x :: more) ++ x :: (more ++ anchor :: behind))
  simpa using rest

/-- Only what is carried falls behind what it was in front of. -/
theorem before_of_shift (sub : carried.Sublist seg)
    (h : Before (before ++ seg.filter (· ∉ carried) ++ carried ++ anchor :: behind) x y) :
    Before (before ++ seg ++ anchor :: behind) x y ∨ (y ∈ carried ∧ x ∉ carried ∧
      Before (before ++ seg ++ anchor :: behind) y x ∧
      Before (before ++ seg ++ anchor :: behind) x anchor) := by
  have kept : ∀ z, z ∈ seg.filter (· ∉ carried) → z ∈ seg ∧ z ∉ carried := fun z hz => by
    simpa using List.mem_filter.mp hz
  simp only [List.append_assoc, before_append, List.mem_append] at h ⊢
  rcases h with h | ⟨hb, hy⟩ | h | ⟨hs, hy⟩ | h | ⟨hc, hy⟩ | h
  · exact Or.inl (Or.inl h)
  · refine Or.inl (Or.inr (Or.inl ⟨hb, ?_⟩))
    rcases hy with hy | hy | hy
    · exact Or.inl (kept y hy).1
    · exact Or.inl (sub.subset hy)
    · exact Or.inr hy
  · exact Or.inl (Or.inr (Or.inr (Or.inl (h.sublist List.filter_sublist))))
  · obtain ⟨hx, hxc⟩ := kept x hs
    rcases hy with hy | hy
    · have ne : x ≠ y := by
        rintro rfl
        exact hxc hy
      rcases before_total hx (sub.subset hy) ne with h | h
      · exact Or.inl (Or.inr (Or.inr (Or.inl h)))
      · exact Or.inr ⟨hy, hxc, Or.inr (Or.inr (Or.inl h)),
          Or.inr (Or.inr (Or.inr (Or.inl ⟨hx, by simp⟩)))⟩
    · exact Or.inl (Or.inr (Or.inr (Or.inr (Or.inl ⟨hx, hy⟩))))
  · exact Or.inl (Or.inr (Or.inr (Or.inl (h.sublist sub))))
  · exact Or.inl (Or.inr (Or.inr (Or.inr (Or.inl ⟨sub.subset hc, hy⟩))))
  · exact Or.inl (Or.inr (Or.inr (Or.inr (Or.inr h))))

end Shift

end Staging
