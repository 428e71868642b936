import Staging.Dependence
import Staging.Proofs.Forest
import Staging.Proofs.WellFormed

namespace Staging

/-- A node or one nested in it makes an access of some kind to a buffer. -/
def Region.Touches (r : Region) (t : NodeId) (mem : ValueId) (kind : AccessKind) : Prop :=
  ∃ n, r.Within t n ∧ (mem, kind) ∈ r.touched n

/-- What a fold enters is what one of its steps enters. -/
theorem foldl_iff {α β : Type} {f : β → α → β} (P : β → Prop) (Q : α → Prop)
    (step : ∀ b a, P (f b a) ↔ P b ∨ Q a) (l : List α) (b : β) :
    P (l.foldl f b) ↔ P b ∨ ∃ a ∈ l, Q a := by
  induction l generalizing b with
  | nil => simp
  | cons a l ih =>
    simp only [List.foldl_cons, ih, step, List.exists_mem_cons_iff, or_assoc]

theorem foldl_keeps {α β : Type} {f : β → α → β} {P : β → Prop} {l : List α} {b : β}
    (start : P b) (step : ∀ b, P b → ∀ a ∈ l, P (f b a)) : P (l.foldl f b) := by
  induction l generalizing b with
  | nil => exact start
  | cons a l ih =>
    exact ih (step b start a (by simp)) fun b hb c hc => step b hb c (by simp [hc])

section Table

variable {α β : Type} [DecidableEq α]

theorem Table.get?_update (t : Table α β) (key other : α) (f : Option β → β) :
    (t.update key f).get? other = if other = key then some (f (t.get? key)) else t.get? other := by
  by_cases h : other = key
  · subst h
    simp [get?_update_self]
  · simp [get?_update_of_ne t (Ne.symm h), h]

theorem Table.get?_put (t : Table α β) (key other : α) (value : β) :
    (t.put key value).get? other = if other = key then some value else t.get? other :=
  get?_update t key other _

theorem Table.mem_get?_addNew [DecidableEq β] (t : Table α (List β)) (key other : α) (b c : β) :
    c ∈ ((t.addNew key b).get? other).getD [] ↔
      c ∈ (t.get? other).getD [] ∨ (other = key ∧ c = b) := by
  unfold addNew
  rw [get?_update]
  by_cases h : other = key
  · subst h
    by_cases hb : b ∈ (t.get? other).getD []
    · simp only [if_true, hb, Option.getD_some, true_and]
      exact ⟨Or.inl, fun hc => hc.elim id fun he => he ▸ hb⟩
    · simp [hb]
  · simp [h]

theorem Table.mem_addTo (t : Table α (List β)) (key other : α) (b c : β) :
    (∃ bs, (other, bs) ∈ t.addTo key b ∧ c ∈ bs) ↔
      (∃ bs, (other, bs) ∈ t ∧ c ∈ bs) ∨ (key = other ∧ c = b) := by
  unfold addTo
  induction t with
  | nil => simp [update, eq_comm]
  | cons entry t ih =>
    obtain ⟨k, old⟩ := entry
    by_cases hk : k = key
    · subst hk
      simp only [update, if_true, Option.getD_some, List.mem_cons, Prod.mk.injEq]
      constructor
      · rintro ⟨bs, ⟨rfl, rfl⟩ | hbs, hc⟩
        · rcases List.mem_append.mp hc with hc | hc
          · exact Or.inl ⟨old, Or.inl ⟨rfl, rfl⟩, hc⟩
          · exact Or.inr ⟨rfl, by simpa using hc⟩
        · exact Or.inl ⟨bs, Or.inr hbs, hc⟩
      · rintro (⟨bs, ⟨rfl, rfl⟩ | hbs, hc⟩ | ⟨rfl, rfl⟩)
        · exact ⟨_, Or.inl ⟨rfl, rfl⟩, by simp [hc]⟩
        · exact ⟨bs, Or.inr hbs, hc⟩
        · exact ⟨_, Or.inl ⟨rfl, rfl⟩, by simp⟩
    · simp only [update, hk, if_false, List.mem_cons, or_and_right, exists_or, ih, or_assoc]

theorem Table.get?_eq_none {t : Table α β} {key : α} (h : key ∉ t.map Prod.fst) :
    t.get? key = none := by
  induction t with
  | nil => rfl
  | cons p t ih =>
    obtain ⟨k, v⟩ := p
    simp only [List.map_cons, List.mem_cons, not_or] at h
    simp [Table.get?, Ne.symm h.1, ih h.2]

theorem Table.get?_of_mem_keys {t : Table α β} {key : α} (h : key ∈ t.map Prod.fst) :
    ∃ b, t.get? key = some b := by
  induction t with
  | nil => simp at h
  | cons p t ih =>
    obtain ⟨k, v⟩ := p
    by_cases hk : k = key
    · exact ⟨v, by simp [Table.get?, hk]⟩
    · obtain ⟨b, hb⟩ := ih ((List.mem_cons.mp h).resolve_left (Ne.symm hk))
      exact ⟨b, by simp [Table.get?, hk, hb]⟩

theorem Table.mem_of_get? {t : Table α β} {key : α} {b : β} (h : t.get? key = some b) :
    (key, b) ∈ t := by
  induction t with
  | nil => cases h
  | cons entry t ih =>
    obtain ⟨k, b'⟩ := entry
    by_cases hk : k = key
    · obtain rfl : b' = b := by simpa [get?, hk] using h
      simp [hk]
    · exact List.mem_cons_of_mem _ (ih (by simpa [get?, hk] using h))

theorem Table.get?_of_mem {t : Table α β} {key : α} {b : β}
    (nodup : (t.map Prod.fst).Nodup) (h : (key, b) ∈ t) : t.get? key = some b := by
  induction t with
  | nil => cases h
  | cons entry t ih =>
    obtain ⟨new, nodup⟩ := List.nodup_cons.mp nodup
    rcases List.mem_cons.mp h with rfl | h
    · simp [get?]
    · have ne : entry.1 ≠ key := fun he => new (he ▸ List.mem_map_of_mem h)
      simpa [get?, ne] using ih nodup h

theorem Table.keys_update (t : Table α β) (key : α) (f : Option β → β) :
    (t.update key f).map Prod.fst =
      if key ∈ t.map Prod.fst then t.map Prod.fst else t.map Prod.fst ++ [key] := by
  induction t with
  | nil => simp [update]
  | cons p t ih =>
    obtain ⟨k, v⟩ := p
    by_cases hk : k = key
    · simp [update, hk]
    · simp only [update, hk, if_false, List.map_cons, ih, List.mem_cons, Ne.symm hk, false_or]
      split <;> simp

theorem Table.keys_update_nodup {t : Table α β} (h : (t.map Prod.fst).Nodup) (key : α)
    (f : Option β → β) : ((t.update key f).map Prod.fst).Nodup := by
  rw [keys_update]
  split
  next => exact h
  next new =>
    refine List.nodup_append.mpr ⟨h, List.nodup_singleton key, ?_⟩
    rintro k hk l hl rfl
    exact new (List.mem_singleton.mp hl ▸ hk)

end Table

theorem Region.mem_accesses {r : Region} (nested : r.Nested) {t : NodeId}
    (ht : t.index < r.nodes.size) {mem : ValueId} {access : Access} :
    (∃ found, (mem, found) ∈ r.accesses t ∧ access ∈ found) ↔
      r.Within t access.node ∧ (mem, access.kind) ∈ r.touched access.node := by
  let Enters (n : NodeId) : Prop := ∃ a ∈ r.touched n, a.1 = mem ∧ access = ⟨n, a.2⟩
  have step : ∀ (found : Table ValueId (List Access)) (n : NodeId),
      (∃ bs, (mem, bs) ∈ (r.touched n).foldl (fun found touch =>
        found.addTo touch.1 ⟨n, touch.2⟩) found ∧ access ∈ bs) ↔
      (∃ bs, (mem, bs) ∈ found ∧ access ∈ bs) ∨ Enters n := by
    intro found n
    exact foldl_iff (fun found => ∃ bs, (mem, bs) ∈ found ∧ access ∈ bs)
      (fun a : ValueId × AccessKind => a.1 = mem ∧ access = ⟨n, a.2⟩)
      (fun found a => Table.mem_addTo found a.1 mem ⟨n, a.2⟩ access) _ _
  unfold accesses
  rw [foldl_iff (fun found => ∃ bs, (mem, bs) ∈ found ∧ access ∈ bs) Enters step]
  simp only [List.not_mem_nil, false_and, exists_false, false_or, Enters]
  constructor
  · rintro ⟨n, hn, ⟨mem', kind⟩, ha, rfl, rfl⟩
    exact ⟨(nested.mem_walk ht).mp hn, ha⟩
  · rintro ⟨hn, ha⟩
    exact ⟨access.node, (nested.mem_walk ht).mpr hn, (mem, access.kind), ha, rfl, rfl⟩

theorem Footprint.mem_writtenBy_addAccess (f : Footprint) (loop l : NodeId) (mem m : ValueId)
    (access : Access) : m ∈ (f.addAccess loop mem access).writtenBy l ↔
      m ∈ f.writtenBy l ∨ (access.kind = .write ∧ l = loop ∧ m = mem) := by
  unfold addAccess writtenBy
  cases access.kind with
  | read => simp
  | write => simpa using f.writes.mem_get?_addNew loop l mem m

theorem Footprint.mem_readersOf_addAccess (f : Footprint) (loop l : NodeId) (mem m : ValueId)
    (access : Access) : l ∈ (f.addAccess loop mem access).readersOf m ↔
      l ∈ f.readersOf m ∨ (access.kind = .read ∧ l = loop ∧ m = mem) := by
  unfold addAccess readersOf
  cases access.kind with
  | read => simpa [and_comm] using f.readers.mem_get?_addNew mem m loop l
  | write => simp

/-- The entries that a loop of the body makes in a footprint are its accesses. -/
theorem Region.entered_by_loop {r : Region} (nested : r.Nested) {l loop : NodeId}
    (hl : loop ∈ r.body.filter r.isLoop) {mem : ValueId} {kind : AccessKind} :
    (∃ entry ∈ r.accesses loop, ∃ access ∈ entry.2,
      access.kind = kind ∧ l = loop ∧ mem = entry.1) ↔ l = loop ∧ r.Touches loop mem kind := by
  have hb := (List.mem_filter.mp hl).1
  have known := nested.bodyKnown loop hb
  constructor
  · rintro ⟨⟨_, found⟩, hentry, access, haccess, rfl, rfl, rfl⟩
    obtain ⟨hw, ht⟩ := (mem_accesses nested known).mp ⟨found, hentry, haccess⟩
    exact ⟨rfl, access.node, hw, ht⟩
  · rintro ⟨rfl, n, hw, ht⟩
    obtain ⟨found, hentry, haccess⟩ :=
      (mem_accesses nested known).mpr (show
        r.Within l (⟨n, kind⟩ : Access).node ∧ _ from ⟨hw, ht⟩)
    exact ⟨(mem, found), hentry, ⟨n, kind⟩, haccess, rfl, rfl, rfl⟩

/-- What a footprint holds by way of accesses of one kind. -/
theorem Region.Nested.footprint_iff {r : Region} (nested : r.Nested) {l : NodeId} {mem : ValueId}
    {kind : AccessKind} (P : Footprint → Prop) (start : ¬ P .empty)
    (step : ∀ (f : Footprint) (loop : NodeId) (m : ValueId) (access : Access),
      P (f.addAccess loop m access) ↔ P f ∨ (access.kind = kind ∧ l = loop ∧ mem = m)) :
    P r.footprint ↔ l ∈ r.body ∧ r.isLoop l = true ∧ r.Touches l mem kind := by
  let Enters (loop : NodeId) (entry : ValueId × List Access) : Prop :=
    ∃ access ∈ entry.2, access.kind = kind ∧ l = loop ∧ mem = entry.1
  have stepLoop : ∀ (f : Footprint) (loop : NodeId),
      P (f.addLoop r loop) ↔ P f ∨ ∃ entry ∈ r.accesses loop, Enters loop entry := by
    intro f loop
    refine foldl_iff P (Enters loop) (fun f entry => ?_) _ f
    exact foldl_iff P (fun access => access.kind = kind ∧ l = loop ∧ mem = entry.1)
      (fun f access => step f loop entry.1 access) _ f
  unfold footprint
  rw [foldl_iff P _ stepLoop]
  constructor
  · rintro (none | ⟨loop, hl, entered⟩)
    · exact absurd none start
    · obtain ⟨rfl, ht⟩ := (entered_by_loop nested hl).mp entered
      exact ⟨(List.mem_filter.mp hl).1, (List.mem_filter.mp hl).2, ht⟩
  · rintro ⟨hb, hl, ht⟩
    have hf := List.mem_filter.mpr ⟨hb, hl⟩
    exact Or.inr ⟨l, hf, (entered_by_loop nested hf).mpr ⟨rfl, ht⟩⟩

theorem Region.Nested.mem_writtenBy {r : Region} (nested : r.Nested) {l : NodeId}
    {mem : ValueId} : mem ∈ r.footprint.writtenBy l ↔
      l ∈ r.body ∧ r.isLoop l = true ∧ r.Touches l mem .write :=
  nested.footprint_iff (fun f => mem ∈ f.writtenBy l)
    (by simp [Footprint.empty, Footprint.writtenBy, Table.get?])
    fun f loop m access => f.mem_writtenBy_addAccess loop l m mem access

theorem Region.Nested.mem_readersOf {r : Region} (nested : r.Nested) {l : NodeId}
    {mem : ValueId} : l ∈ r.footprint.readersOf mem ↔
      l ∈ r.body ∧ r.isLoop l = true ∧ r.Touches l mem .read :=
  nested.footprint_iff (fun f => l ∈ f.readersOf mem)
    (by simp [Footprint.empty, Footprint.readersOf, Table.get?])
    fun f loop m access => f.mem_readersOf_addAccess loop l m mem access

theorem mem_addUser {m n : NodeId} {users : List NodeId} :
    m ∈ addUser n users ↔ m ∈ users ∨ m = n := by
  unfold addUser
  split
  next h => exact ⟨Or.inl, fun hm => hm.elim id fun he => he ▸ List.mem_of_getLast? h⟩
  next => simp

theorem Uses.mem_usersOf_visit {r : Region} {uses : Uses} {top n m : NodeId} {v : ValueId} :
    m ∈ (uses.visit r top n).usersOf v ↔ m ∈ uses.usersOf v ∨ (v ∈ r.operands n ∧ m = n) := by
  unfold visit usersOf
  rw [foldl_iff (fun users : Table ValueId (List NodeId) => m ∈ (users.get? v).getD [])
    (fun w => w = v ∧ m = n)]
  · simp
  · intro users w
    rw [Table.get?_update]
    by_cases h : v = w
    · subst h
      simp [mem_addUser]
    · simp [h, Ne.symm h]

theorem Region.Forest.mem_usersOf {r : Region} (forest : r.Forest) {m : NodeId} {v : ValueId} :
    m ∈ r.uses.usersOf v ↔ ∃ t ∈ r.body, r.Within t m ∧ v ∈ r.operands m := by
  have step : ∀ (uses : Uses) (place : NodeId × Nat),
      m ∈ (uses.visitTop r place).usersOf v ↔ m ∈ uses.usersOf v ∨
        ∃ n ∈ r.walk place.1, v ∈ r.operands n ∧ m = n := by
    intro uses place
    exact foldl_iff (fun uses : Uses => m ∈ uses.usersOf v) (fun n => v ∈ r.operands n ∧ m = n)
      (fun _ _ => Uses.mem_usersOf_visit) _ _
  unfold Region.uses
  rw [foldl_iff (fun uses : Uses => m ∈ uses.usersOf v) _ step]
  constructor
  · rintro (none | ⟨⟨t, i⟩, hp, n, hn, hv, rfl⟩)
    · simp [Uses.empty, Uses.usersOf, Table.get?] at none
    · have ht := (List.mem_zipIdx' hp).2 ▸ List.getElem_mem _
      exact ⟨t, ht, (forest.mem_walk (forest.bodyKnown ht)).mp hn, hv⟩
  · rintro ⟨t, ht, hw, hv⟩
    obtain ⟨i, hi, he⟩ := List.mem_iff_getElem.mp ht
    refine Or.inr ⟨(t, i), ?_, m, (forest.mem_walk (forest.bodyKnown ht)).mpr hw, hv, rfl⟩
    exact List.mem_zipIdx_iff_getElem?.mpr (by simp [hi, he])

theorem Uses.tops_visit {r : Region} {uses : Uses} {top n m : NodeId} :
    (uses.visit r top n).tops.get? m = if m = n then some top else uses.tops.get? m :=
  Table.get?_put _ _ _ _

/-- A node is only entered with a node of the body that it is within. -/
theorem Region.Forest.within_of_top? {r : Region} (forest : r.Forest) {t n : NodeId}
    (h : r.uses.top? n = some t) : t ∈ r.body ∧ r.Within t n := by
  have sound : ∀ u, r.uses.tops.get? n = some u → u ∈ r.body ∧ r.Within u n := by
    refine foldl_keeps (P := fun uses : Uses => ∀ u, uses.tops.get? n = some u →
      u ∈ r.body ∧ r.Within u n) (by simp [Uses.empty, Table.get?]) ?_
    rintro uses ih ⟨top, i⟩ hp
    have htop := (List.mem_zipIdx' hp).2 ▸ List.getElem_mem _
    refine foldl_keeps (P := fun uses : Uses => ∀ u, uses.tops.get? n = some u →
      u ∈ r.body ∧ r.Within u n) ih ?_
    intro uses ih m hm u hu
    rw [Uses.tops_visit] at hu
    split at hu
    next h =>
      cases hu
      subst h
      exact ⟨htop, (forest.mem_walk (forest.bodyKnown htop)).mp hm⟩
    next => exact ih u hu
  exact sound t h

/-- Every attached node is entered with the node of the body that it is within. -/
theorem Region.Forest.top? {r : Region} (forest : r.Forest) {t n : NodeId} (ht : t ∈ r.body)
    (hn : r.Within t n) : r.uses.top? n = some t := by
  have entered : (r.uses.tops.get? n).isSome = true := by
    have step : ∀ (uses : Uses) (place : NodeId × Nat),
        ((uses.visitTop r place).tops.get? n).isSome = true ↔
          (uses.tops.get? n).isSome = true ∨ ∃ m ∈ r.walk place.1, n = m := by
      intro uses place
      refine foldl_iff (fun uses : Uses => (uses.tops.get? n).isSome = true) (fun m => n = m) ?_ _ _
      intro uses m
      rw [Uses.tops_visit]
      by_cases h : n = m <;> simp [h]
    unfold Region.uses
    rw [foldl_iff (fun uses : Uses => (uses.tops.get? n).isSome = true) _ step]
    obtain ⟨i, hi, he⟩ := List.mem_iff_getElem.mp ht
    refine Or.inr ⟨(t, i), List.mem_zipIdx_iff_getElem?.mpr (by simp [hi, he]), n, ?_, rfl⟩
    exact (forest.mem_walk (forest.bodyKnown ht)).mpr hn
  obtain ⟨u, hu⟩ := Option.isSome_iff_exists.mp entered
  obtain ⟨hub, huw⟩ := forest.within_of_top? hu
  obtain rfl := forest.top_unique ht hub hn huw
  exact hu

theorem Uses.places_visitTop {r : Region} {uses : Uses} {place : NodeId × Nat} {m : NodeId} :
    (uses.visitTop r place).places.get? m =
      if m = place.1 then some place.2 else uses.places.get? m := by
  have same : (uses.visitTop r place).places = uses.places.put place.1 place.2 :=
    foldl_keeps (P := fun found : Uses => found.places = uses.places.put place.1 place.2) rfl
      fun _ h _ _ => h
  rw [same, Table.get?_put]

theorem Region.Forest.place {r : Region} (forest : r.Forest) {t : NodeId} (ht : t ∈ r.body) :
    r.uses.places.get? t = some (r.body.idxOf t) := by
  have sound : ∀ i, r.uses.places.get? t = some i → r.body[i]? = some t := by
    refine foldl_keeps (P := fun uses : Uses => ∀ i, uses.places.get? t = some i →
      r.body[i]? = some t) (by simp [Uses.empty, Table.get?]) ?_
    intro uses ih place hp i hi
    rw [Uses.places_visitTop] at hi
    split at hi
    next h =>
      cases hi
      rw [h]
      exact List.mem_zipIdx_iff_getElem?.mp hp
    next => exact ih i hi
  have entered : (r.uses.places.get? t).isSome = true := by
    have step : ∀ (uses : Uses) (place : NodeId × Nat),
        ((uses.visitTop r place).places.get? t).isSome = true ↔
          (uses.places.get? t).isSome = true ∨ t = place.1 := by
      intro uses place
      rw [Uses.places_visitTop]
      by_cases h : t = place.1 <;> simp [h]
    unfold Region.uses
    rw [foldl_iff (fun uses : Uses => (uses.places.get? t).isSome = true) _ step]
    obtain ⟨i, hi, he⟩ := List.mem_iff_getElem.mp ht
    exact Or.inr ⟨(t, i), List.mem_zipIdx_iff_getElem?.mpr (by simp [hi, he]), rfl⟩
  obtain ⟨i, hi⟩ := Option.isSome_iff_exists.mp entered
  obtain ⟨hlt, he⟩ := List.getElem?_eq_some_iff.mp (sound i hi)
  rw [hi, ← he, forest.bodyNodup.idxOf_getElem i hlt]

theorem Region.Forest.position? {r : Region} (forest : r.Forest) {t : NodeId} (ht : t ∈ r.body) :
    r.uses.position? t = some (r.body.idxOf t) := by
  unfold Uses.position?
  rw [forest.top? ht (Within.refl r t)]
  exact forest.place ht

theorem Region.Forest.isAfter_iff {r : Region} (forest : r.Forest) {t u : NodeId}
    (ht : t ∈ r.body) (hu : u ∈ r.body) :
    isAfter (r.uses.position? u) (r.uses.position? t) = true ↔ Before r.body t u := by
  rw [forest.position? ht, forest.position? hu, before_iff_idxOf forest.bodyNodup ht hu]
  simp [isAfter]

/-- The nodes of the body that mention a value are its users at top level. -/
theorem Region.Forest.mem_topUsersOf {r : Region} (forest : r.Forest) {t : NodeId} {v : ValueId} :
    t ∈ r.uses.topUsersOf v ↔ t ∈ r.body ∧ r.Mentions t v := by
  unfold Uses.topUsersOf
  rw [List.mem_eraseDups, List.mem_filterMap]
  constructor
  · rintro ⟨n, hn, htop⟩
    obtain ⟨u, hu, hw, hv⟩ := forest.mem_usersOf.mp hn
    rw [forest.top? hu hw] at htop
    cases htop
    exact ⟨hu, n, hw, hv⟩
  · rintro ⟨ht, n, hw, hv⟩
    exact ⟨n, forest.mem_usersOf.mpr ⟨t, ht, hw, hv⟩, forest.top? ht hw⟩

end Staging
