import Staging.Proofs.Moves

namespace Staging

theorem Region.known_of_definition? {r : Region} {v : ValueId} {d : Definition}
    (h : r.definition? v = some d) : v.index < r.values.size := by
  obtain ⟨value, hv, _⟩ := Option.map_eq_some_iff.mp h
  exact index_lt_of_value? hv

theorem Region.Sound.known_of_mentions {r : Region} (sound : r.Sound) {t : NodeId}
    {v : ValueId} (ht : t ∈ r.body) (h : r.Mentions t v) : v.index < r.values.size := by
  rcases sound.mention_cases ht h with harg | ⟨y, _, hvy⟩ | ⟨n, _, ⟨_, hres⟩ | hiv⟩
  · obtain ⟨i, hi⟩ := sound.arg_defined harg
    exact known_of_definition? hi
  · obtain ⟨i, hi⟩ := sound.result_defined hvy
    exact known_of_definition? hi
  · obtain ⟨i, hi⟩ := sound.result_defined hres
    exact known_of_definition? hi
  · exact known_of_definition? (sound.ivDefined n v hiv)

/-- Whether the node around the definition of a value is among some nodes of the body. -/
def Region.comesFrom (r : Region) (carried : List NodeId) (v : ValueId) : Bool :=
  ((r.definition? v).bind Definition.node?).any fun n => carried.contains (r.topLevel n)

theorem Region.readsResult_eq {r : Region} {carried : List NodeId} {vs : List ValueId}
    (known : ∀ v ∈ vs, v.index < r.values.size) :
    r.readsResult carried vs = some (vs.any (r.comesFrom carried)) := by
  induction vs with
  | nil => rfl
  | cons v vs ih =>
    obtain ⟨value, hv⟩ := value?_eq_some (known v (by simp))
    have rest := ih fun w hw => known w (by simp [hw])
    have hc : r.comesFrom carried v =
        value.definition.node?.any fun n => carried.contains (r.topLevel n) := by
      simp [comesFrom, definition?, hv]
    simp only [readsResult, hv, bind, Option.bind, List.any_cons, hc, rest]
    split <;> simp_all

theorem mapM_eq_some_map {α β : Type} {f : α → Option β} {g : α → β} {l : List α}
    (h : ∀ a ∈ l, f a = some (g a)) : l.mapM f = some (l.map g) := by
  induction l with
  | nil => rfl
  | cons a l ih =>
    rw [List.mapM_cons, h a (by simp), ih fun b hb => h b (by simp [hb])]
    rfl

theorem Region.Sound.comesFrom_iff {r : Region} (sound : r.Sound) {x : NodeId}
    {carried : List NodeId} (hx : x ∈ r.body) (new : x ∉ carried)
    (sub : ∀ y ∈ carried, y ∈ r.body) {v : ValueId} (hv : r.Mentions x v) :
    r.comesFrom carried v = true ↔ ∃ y ∈ carried, v ∈ r.results y := by
  have result : ∀ y ∈ carried, v ∈ r.results y → r.comesFrom carried v = true := by
    intro y hy hvy
    obtain ⟨i, hi⟩ := sound.result_defined hvy
    simp [comesFrom, hi, Definition.node?, sound.topLevel_eq (sub y hy) (Within.refl r y), hy]
  refine ⟨fun h => ?_, fun ⟨y, hy, hvy⟩ => result y hy hvy⟩
  rcases sound.mention_cases hx hv with harg | ⟨y, hy, hvy⟩ | ⟨n, hn, hd⟩
  · obtain ⟨i, hi⟩ := sound.arg_defined harg
    simp [comesFrom, hi, Definition.node?] at h
  · obtain ⟨i, hi⟩ := sound.result_defined hvy
    simp only [comesFrom, hi, Option.bind_some, Definition.node?, Option.any_some,
      sound.topLevel_eq hy.mem_left (Within.refl r y), List.contains_eq_mem,
      decide_eq_true_eq] at h
    exact ⟨y, h, hvy⟩
  · have top := sound.topLevel_eq hx hn
    have : (r.definition? v).bind Definition.node? = some n := by
      rcases hd with ⟨_, hres⟩ | hiv
      · obtain ⟨i, hi⟩ := sound.result_defined hres
        simp [hi, Definition.node?]
      · simp [sound.ivDefined n v hiv, Definition.node?]
    simp [comesFrom, this, top, new] at h

/-- A node of the body depends on those nodes whose results it uses. -/
theorem Region.Sound.dependsOn {r : Region} (sound : r.Sound) {x : NodeId}
    {carried : List NodeId} (hx : x ∈ r.body) (new : x ∉ carried)
    (sub : ∀ y ∈ carried, y ∈ r.body) :
    ∃ reads, r.dependsOn carried x = some reads ∧
      (reads = true ↔ ∃ y ∈ carried, r.ReadsFrom x y) := by
  have walk : ∀ n ∈ r.walk x, r.readsResult carried (r.operands n) =
      some ((r.operands n).any (r.comesFrom carried)) := by
    intro n hn
    have hw := (sound.mem_walk (sound.bodyKnown hx)).mp hn
    exact readsResult_eq fun v hv => sound.known_of_mentions hx ⟨n, hw, hv⟩
  refine ⟨((r.walk x).map fun n => (r.operands n).any (r.comesFrom carried)).any id, ?_, ?_⟩
  · simp [Region.dependsOn, mapM_eq_some_map walk]
  · simp only [List.any_map, List.any_eq_true, Function.comp_apply, id_eq]
    constructor
    · rintro ⟨n, hn, v, hv, hc⟩
      have hm : r.Mentions x v := ⟨n, (sound.mem_walk (sound.bodyKnown hx)).mp hn, hv⟩
      obtain ⟨y, hy, hvy⟩ := (sound.comesFrom_iff hx new sub hm).mp hc
      exact ⟨y, hy, v, hm, hvy⟩
    · rintro ⟨y, hy, v, ⟨n, hn, hv⟩, hvy⟩
      refine ⟨n, (sound.mem_walk (sound.bodyKnown hx)).mpr hn, v, hv, ?_⟩
      exact (sound.comesFrom_iff hx new sub ⟨n, hn, hv⟩).mpr ⟨y, hy, hvy⟩

/-- What is carried along from a stretch of the body: nodes that are not scheduled and depend on
others that are carried; and no such node is left behind. -/
structure Region.Carries (r : Region) (carried stretch more : List NodeId) : Prop where
  sublist : more.Sublist stretch
  unleveled : ∀ x ∈ more, r.level? x = none
  closed : ∀ P : NodeId → Prop, (∀ y ∈ carried, P y) →
    (∀ x ∈ stretch, ∀ y, P y → (y ∈ carried ∨ y ∈ more) → r.ReadsFrom x y → P x) →
    ∀ x ∈ more, P x
  complete : ∀ x ∈ stretch, r.level? x = none → x ∉ more →
    ∀ y, (y ∈ carried ∨ y ∈ more ∧ Before stretch y x) → ¬ r.ReadsFrom x y

section Carries

variable {r : Region} {carried stretch more : List NodeId} {n : NodeId}

theorem Region.Carries.before_tail (h : r.Carries carried stretch more) (new : n ∉ stretch)
    {x y : NodeId} (hy : y ∈ more) (hb : Before (n :: stretch) y x) : Before stretch y x := by
  rcases before_cons.mp hb with ⟨rfl, _⟩ | hb
  · exact absurd (h.sublist.subset hy) new
  · exact hb

/-- A node that is not scheduled and depends on what is carried is carried itself. -/
theorem Region.Carries.take (h : r.Carries (carried ++ [n]) stretch more) (new : n ∉ stretch)
    (free : r.level? n = none) (depends : ∃ y ∈ carried, r.ReadsFrom n y) :
    r.Carries carried (n :: stretch) (n :: more) := by
  refine ⟨h.sublist.cons_cons n, fun x hx => ?_, fun P hP hstep => ?_,
    fun x hx hlevel hnot y hy => ?_⟩
  · rcases List.mem_cons.mp hx with rfl | hx
    · exact free
    · exact h.unleveled x hx
  · have hPn : P n := by
      obtain ⟨y, hy, hr⟩ := depends
      exact hstep n (by simp) y (hP y hy) (Or.inl hy) hr
    have rest := h.closed P (fun y hy => ?_) fun z hz y hy hmem hr => ?_
    · intro x hx
      rcases List.mem_cons.mp hx with rfl | hx
      · exact hPn
      · exact rest x hx
    · rcases List.mem_append.mp hy with hy | hy
      · exact hP y hy
      · exact (List.mem_singleton.mp hy) ▸ hPn
    · refine hstep z (List.mem_cons_of_mem _ hz) y hy ?_ hr
      simpa [or_assoc] using hmem
  · rcases List.mem_cons.mp hx with rfl | hx
    · simp at hnot
    · refine h.complete x hx hlevel (fun hm => hnot (List.mem_cons_of_mem _ hm)) y ?_
      rcases hy with hy | ⟨hy, hb⟩
      · exact Or.inl (List.mem_append_left _ hy)
      · rcases List.mem_cons.mp hy with rfl | hy
        · exact Or.inl (List.mem_append_right _ (by simp))
        · exact Or.inr ⟨hy, h.before_tail new hy hb⟩

/-- Any other node is left where it is. -/
theorem Region.Carries.leave (h : r.Carries carried stretch more) (new : n ∉ stretch)
    (stays : r.level? n = none → ∀ y ∈ carried, ¬ r.ReadsFrom n y) :
    r.Carries carried (n :: stretch) more := by
  refine ⟨h.sublist.cons n, h.unleveled, fun P hP hstep => ?_, fun x hx hlevel hnot y hy => ?_⟩
  · exact h.closed P hP fun x hx => hstep x (List.mem_cons_of_mem _ hx)
  · rcases List.mem_cons.mp hx with rfl | hx
    · rcases hy with hy | ⟨hy, hb⟩
      · exact stays hlevel y hy
      · exact absurd (h.before_tail new hy hb).mem_right new
    · exact h.complete x hx hlevel hnot y (hy.imp_right fun ⟨hy, hb⟩ =>
        ⟨hy, h.before_tail new hy hb⟩)

theorem Region.Sound.foldlM_carry (sound : r.Sound) (nodup : (carried ++ stretch).Nodup)
    (sub : ∀ x ∈ carried ++ stretch, x ∈ r.body) :
    ∃ more, stretch.foldlM r.carry carried = some (carried ++ more) ∧
      r.Carries carried stretch more := by
  induction stretch generalizing carried with
  | nil =>
    refine ⟨[], by simp, List.Sublist.slnil, by simp, by simp, by simp⟩
  | cons n stretch ih =>
    have hn : n ∉ carried := fun h => (List.nodup_append.mp nodup).2.2 n h n (by simp) rfl
    have new := (List.nodup_cons.mp (List.nodup_append.mp nodup).2.1).1
    obtain ⟨reads, hreads, hiff⟩ := sound.dependsOn (sub n (by simp)) hn
      fun y hy => sub y (List.mem_append_left _ hy)
    by_cases take : r.level? n = none ∧ reads = true
    · have step : r.carry carried n = some (carried ++ [n]) := by
        simp [carry, take.1, hreads, take.2]
      obtain ⟨more, hfold, h⟩ := @ih (carried ++ [n]) (by simpa using nodup) (by simpa using sub)
      exact ⟨n :: more, by simpa [List.foldlM_cons, step] using hfold,
        h.take new take.1 (hiff.mp take.2)⟩
    · have step : r.carry carried n = some carried := by
        unfold carry
        cases hl : r.level? n with
        | some l => simp
        | none =>
          have : reads = false := by simpa [hl] using take
          simp [hreads, this]
      have tail : (carried ++ stretch).Sublist (carried ++ n :: stretch) :=
        (List.Sublist.refl _).append (List.sublist_cons_self _ _)
      obtain ⟨more, hfold, h⟩ := ih (nodup.sublist tail) fun x hx => sub x (tail.subset hx)
      exact ⟨more, by simpa [List.foldlM_cons, step] using hfold, h.leave new fun free y hy hr =>
        take ⟨free, hiff.mpr ⟨y, hy, hr⟩⟩⟩

end Carries

theorem Region.walkWithin_congr {r s : Region} (h : ∀ n, s.bodyOf n = r.bodyOf n) (depth : Nat)
    (n : NodeId) : s.walkWithin depth n = r.walkWithin depth n := by
  induction depth generalizing n with
  | zero => rfl
  | succ depth ih =>
    simp only [walkWithin, h]
    exact congrArg _ (List.flatMap_congr fun c _ => ih c)

theorem Region.topWithin_congr {r s : Region} (h : ∀ n, s.parent? n = r.parent? n) (depth : Nat)
    (n : NodeId) : s.topWithin depth n = r.topWithin depth n := by
  induction depth generalizing n with
  | zero => rfl
  | succ depth ih =>
    have hn := h n
    unfold parent? at hn
    simp only [topWithin, hn]
    split
    next => exact ih _
    next => rfl

section Congr

variable {r s : Region}

theorem Region.walk_congr (nodes : s.nodes = r.nodes) : s.walk = r.walk := by
  funext n
  unfold walk
  rw [nodes]
  exact walkWithin_congr (fun n => by simp only [bodyOf, kind?, node?, nodes]) _ n

theorem Region.topLevel_congr (nodes : s.nodes = r.nodes) : s.topLevel = r.topLevel := by
  funext n
  unfold topLevel
  rw [nodes]
  exact topWithin_congr (fun n => by simp only [parent?, node?, nodes]) _ n

/-- What a node carries along depends on the nodes and values alone, not on the order of the body. -/
theorem Region.carry_congr (nodes : s.nodes = r.nodes) (values : s.values = r.values) :
    s.carry = r.carry := by
  have reads : ∀ carried vs, s.readsResult carried vs = r.readsResult carried vs := by
    intro carried vs
    induction vs with
    | nil => rfl
    | cons v vs ih => simp only [readsResult, ih, topLevel_congr nodes, value?, values]
  funext carried n
  simp only [carry, dependsOn, walk_congr nodes, reads, level?, operands, node?, nodes]
  rfl

end Congr

theorem Region.carriedBefore_split {r : Region} {n anchor : NodeId}
    {before mid behind : List NodeId} (nodup : (before ++ n :: mid ++ anchor :: behind).Nodup) :
    ({ r with body := before ++ n :: mid ++ anchor :: behind } : Region).carriedBefore n anchor =
      mid.foldlM r.carry [n] := by
  obtain ⟨front, _, apart⟩ := List.nodup_append.mp nodup
  have hn : n ∉ before := fun h => (List.nodup_append.mp front).2.2 n h n (by simp) rfl
  have ha : anchor ∉ before ++ n :: mid := fun h => apart anchor h anchor (by simp) rfl
  have first : (before ++ n :: mid ++ anchor :: behind).idxOf? n = some before.length := by
    rw [List.append_assoc]
    exact idxOf?_append_cons hn
  have last : (before ++ n :: mid ++ anchor :: behind).idxOf? anchor =
      some (before ++ n :: mid).length := idxOf?_append_cons ha
  have stretch : ((before ++ n :: mid ++ anchor :: behind).take (before ++ n :: mid).length).drop
      (before.length + 1) = mid := by
    rw [List.take_left]
    rw [show before ++ n :: mid = (before ++ [n]) ++ mid by simp,
      show before.length + 1 = (before ++ [n]).length by simp, List.drop_left]
  unfold carriedBefore position?
  simp only [first, last]
  rw [stretch]
  exact congrArg (fun carry => mid.foldlM carry [n]) (carry_congr rfl rfl)

end Staging
