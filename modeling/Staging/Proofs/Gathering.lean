import Staging.Proofs.Ascending
import Staging.Proofs.Carrying

namespace Staging

/-- A measure that is the level of a node where it has one, and never rises from a node to those
that read from it. -/
structure Region.Graded (r : Region) (reach : NodeId → Nat) : Prop where
  level : ∀ n ∈ r.body, ∀ l, r.level? n = some l → reach n = l
  mono : ∀ x ∈ r.body, ∀ y ∈ r.body, r.ReadsFrom x y → reach x ≤ reach y

/-- An order of the body in which all levels below some level have been brought together. -/
structure Region.GatheredBelow (r : Region) (level : Nat) (body : List NodeId) : Prop where
  perm : body.Perm r.body
  ordered : ∀ x y, Before body x y → ¬ r.ReadsFrom x y
  sorted : ∀ x y lx ly, Before body x y → r.level? x = some lx → r.level? y = some ly →
    lx < level → ly ≤ lx
  descends : ∀ y z ly lz, y ∈ body → z ∈ body → r.level? y = some ly → r.level? z = some lz →
    level ≤ lz → lz < ly → ∃ x, Before body y x ∧ r.level? x = some lz
  stable : ∀ x y l, r.level? x = some l → r.level? y = some l → Before r.body x y →
    Before body x y

/-- An order of the body while some level is being brought together in front of `anchor`, when
the nodes `done` have been moved and the nodes `todo` have not. -/
structure Region.GatheringAt (r : Region) (level : Nat) (anchor : NodeId)
    (done todo body : List NodeId) : Prop where
  perm : body.Perm r.body
  members : ∀ x ∈ done ++ todo, r.level? x = some level ∧ Before body x anchor
  all : ∀ x ∈ body, r.level? x = some level → x = anchor ∨ x ∈ done ++ todo
  inOrder : (done ++ todo ++ [anchor]).Sublist r.body
  ordered : ∀ x y, Before body x y → r.ReadsFrom x y → x ∈ todo ∧ Before body y anchor
  sorted : ∀ x y lx ly, Before body x y → r.level? x = some lx → r.level? y = some ly →
    lx < level → ly ≤ lx
  descends : ∀ y z ly lz, y ∈ body → z ∈ body → r.level? y = some ly → r.level? z = some lz →
    level ≤ lz → lz < ly → ∃ x, Before body y x ∧ r.level? x = some lz
  settled : ∀ x ∈ done, ∀ y ly, Before body x y → r.level? y = some ly → ly ≤ level
  doneOrder : ∀ x y, Before done x y → Before body x y
  stable : ∀ x y l, l ≠ level → r.level? x = some l → r.level? y = some l →
    Before r.body x y → Before body x y

/-- What moving `m` with the nodes `more` in front of `anchor` does to the order of a body. -/
structure Region.Shifted (r : Region) (m anchor : NodeId) (more body body' : List NodeId) :
    Prop where
  perm : body'.Perm r.body
  unleveled : ∀ x ∈ more, r.level? x = none
  after : ∀ x ∈ more, Before body m x
  closed : ∀ P : NodeId → Prop, P m → (∀ x y, P y → y = m ∨ y ∈ more →
    Before body m x → r.ReadsFrom x y → P x) → ∀ x ∈ more, P x
  complete : ∀ x, Before body m x → Before body x anchor → r.level? x = none → x ∉ more →
    ∀ y, (y = m ∨ y ∈ more ∧ Before body y x) → ¬ r.ReadsFrom x y
  keeps : ∀ x y, Before body x y → x ∉ m :: more → Before body' x y
  only : ∀ x y, Before body' x y → Before body x y ∨ (y ∈ m :: more ∧ x ∉ m :: more ∧
    Before body y x ∧ Before body x anchor)
  landing : ∀ x, Before body x anchor → x ∉ m :: more → Before body' x m
  behind : ∀ y, Before body' m y → y ∈ more ∨ y = anchor ∨ Before body anchor y
  front : ∀ x ∈ m :: more, Before body' x anchor

/-- Moving a node in front of the anchor takes along what is carried from the stretch between. -/
theorem Region.Sound.gatherMember_split {r : Region} (sound : r.Sound) {m anchor : NodeId}
    {before mid behind : List NodeId} (perm : (before ++ m :: mid ++ anchor :: behind).Perm r.body)
    (moved : Nat) : ∃ more, r.Carries [m] mid more ∧
      gatherMember anchor ({ r with body := before ++ m :: mid ++ anchor :: behind }, moved) m =
        some ({ r with body := before ++ (m :: mid).filter (· ∉ m :: more) ++ (m :: more) ++
          anchor :: behind }, moved + (m :: more).length) := by
  have nodup := perm.nodup_iff.mpr sound.bodyNodup
  have nodupSeg := (List.nodup_append.mp (List.nodup_append.mp nodup).1).2.1
  obtain ⟨more, hcarry, carries⟩ := sound.foldlM_carry (show ([m] ++ mid).Nodup from nodupSeg)
    fun x hx => perm.mem_iff.mp (List.mem_append_left _ (List.mem_append_right _ hx))
  have fold := @Region.Forest.foldlM_countMove r sound.toForest anchor (m :: more) before (m :: mid)
    [] behind moved (carries.sublist.cons_cons m) (by simpa using perm)
  simp only [List.append_nil] at fold
  refine ⟨more, carries, ?_⟩
  unfold Staging.gatherMember
  simp only [carriedBefore_split nodup, hcarry, bind, Option.bind]
  exact fold

theorem Region.Sound.gatherMember {r : Region} (sound : r.Sound) {m anchor : NodeId}
    {body : List NodeId} (perm : body.Perm r.body) (h : Before body m anchor) (moved : Nat) :
    ∃ more body', gatherMember anchor ({ r with body := body }, moved) m =
        some ({ r with body := body' }, moved + (m :: more).length) ∧
      r.Shifted m anchor more body body' := by
  obtain ⟨before, tail, rfl, ha⟩ := before_iff_append.mp h
  obtain ⟨mid, behind, rfl⟩ := List.append_of_mem ha
  have shape : before ++ m :: (mid ++ anchor :: behind) =
      before ++ m :: mid ++ anchor :: behind := by simp
  rw [shape] at perm ⊢
  have nodup := perm.nodup_iff.mpr sound.bodyNodup
  have nodupSeg := (List.nodup_append.mp (List.nodup_append.mp nodup).1).2.1
  obtain ⟨more, carries, step⟩ := sound.gatherMember_split perm moved
  have sub : (m :: more).Sublist (m :: mid) := carries.sublist.cons_cons m
  have shifted := @shift_perm anchor (m :: more) before (m :: mid) behind sub nodupSeg
  have midSub : mid.Sublist (before ++ m :: mid ++ anchor :: behind) := by
    rw [List.append_assoc]
    exact ((List.sublist_append_left mid _).cons m).trans (List.sublist_append_right before _)
  have afterAnchor : ∀ x ∈ behind, Before (before ++ m :: mid ++ anchor :: behind) anchor x :=
    fun x hx => before_iff_append.mpr ⟨_, behind, rfl, hx⟩
  have afterM : ∀ x ∈ mid, Before (before ++ m :: mid ++ anchor :: behind) m x :=
    fun x hx => before_iff_append.mpr ⟨before, mid ++ anchor :: behind, by simp, by simp [hx]⟩
  have inMid : ∀ x, Before (before ++ m :: mid ++ anchor :: behind) m x →
      Before (before ++ m :: mid ++ anchor :: behind) x anchor → x ∈ mid := by
    intro x hm hx
    have front : Before (before ++ m :: mid) m x :=
      hm.of_sublist nodup (List.sublist_append_left _ _) (by simp) (hx.mem_front nodup rfl)
    exact front.mem_behind (nodup.sublist (List.sublist_append_left _ _)) rfl
  -- The rest is read off the order of the parts before and after the move.
  refine ⟨more, _, step, shifted.trans perm, carries.unleveled,
    fun x hx => afterM x (carries.sublist.subset hx), ?_, ?_, ?_, ?_, ?_, ?_, ?_⟩
  · intro P hm hstep
    refine carries.closed P (fun y hy => (List.mem_singleton.mp hy) ▸ hm) ?_
    intro x hx y hy hmem hr
    exact hstep x y hy (hmem.imp_left List.mem_singleton.mp) (afterM x hx) hr
  · intro x hm hx hlevel hnot y hy
    have hmid := inMid x hm hx
    refine carries.complete x hmid hlevel hnot y ?_
    rcases hy with rfl | ⟨hy, hb⟩
    · exact Or.inl (by simp)
    · exact Or.inr ⟨hy, hb.of_sublist nodup midSub (carries.sublist.subset hy) hmid⟩
  · exact fun x y hb hx => before_shift hb hx
  · exact fun x y hb => before_of_shift sub hb
  · exact fun x hx hnot => before_shift_carried (hx.mem_front nodup rfl) hnot (by simp)
  · exact fun y hy => (mem_of_before_shift sub nodup hy).imp_right (Or.imp_right (afterAnchor y))
  · exact fun x hx => before_shift_anchor hx

section Group

variable {r : Region} {reach : NodeId → Nat} {level : Nat} {m anchor : NodeId}
  {done todo more body body' : List NodeId}

theorem Region.GatheringAt.nodup (h : r.GatheringAt level anchor done todo body)
    (sound : r.Sound) : body.Nodup :=
  h.perm.nodup_iff.mpr sound.bodyNodup

/-- Behind the last node of a level there is no node of a higher one. -/
theorem Region.GatheringAt.anchor_settled (h : r.GatheringAt level anchor done todo body)
    (sound : r.Sound) (ha : r.level? anchor = some level) {y : NodeId} {ly : Nat}
    (hy : Before body anchor y) (hl : r.level? y = some ly) : ly ≤ level := by
  by_contra high
  obtain ⟨x, hx, hlx⟩ := h.descends y anchor ly level hy.mem_right hy.mem_left hl ha le_rfl
    (by omega)
  have behind := hy.trans (h.nodup sound) hx
  rcases h.all x hx.mem_right hlx with rfl | hmem
  · exact behind.ne (h.nodup sound) rfl
  · exact behind.asymm (h.nodup sound) (h.members x hmem).2

/-- What is carried along with a node stood behind it from the start. -/
theorem Region.Shifted.after_start (s : r.Shifted m anchor more body body') (sound : r.Sound)
    (perm : body.Perm r.body) (hm : m ∈ r.body) {y : NodeId} (hy : y = m ∨ y ∈ more) :
    y = m ∨ Before r.body m y := by
  rcases hy with rfl | hy
  · exact Or.inl rfl
  · refine s.closed (fun z => z = m ∨ Before r.body m z) (Or.inl rfl) ?_ y hy
    intro x z hz hzm hb hr
    have hx := perm.mem_iff.mp hb.mem_right
    rcases hz with rfl | hz
    · exact Or.inr (sound.before_of_readsFrom hx hm hr)
    · exact Or.inr (hz.trans sound.bodyNodup (sound.before_of_readsFrom hx hz.mem_right hr))

theorem Region.Shifted.reach_le (s : r.Shifted m anchor more body body') (graded : r.Graded reach)
    (perm : body.Perm r.body) (hm : m ∈ r.body) (hl : r.level? m = some level) {y : NodeId}
    (hy : y = m ∨ y ∈ more) : reach y ≤ level := by
  have top : reach m ≤ level := (graded.level m hm level hl).le
  rcases hy with rfl | hy
  · exact top
  · refine s.closed (fun z => reach z ≤ level) top (fun x z hz hzm hx hr => ?_) y hy
    have hz' : z ∈ r.body := by
      rcases hzm with rfl | hzm
      · exact hm
      · exact perm.mem_iff.mp (s.after z hzm).mem_right
    exact (graded.mono x (perm.mem_iff.mp hx.mem_right) z hz' hr).trans hz

/-- Once a member of a level is moved, it is no longer behind what reads from it, unless that is
a member that will be moved later. -/
theorem Region.GatheringAt.ordered_step (h : r.GatheringAt level anchor done (m :: todo) body)
    (sound : r.Sound) (graded : r.Graded reach) (ha : r.level? anchor = some level)
    (s : r.Shifted m anchor more body body') {x y : NodeId} (hb : Before body' x y)
    (hr : r.ReadsFrom x y) : x ∈ todo ∧ Before body' y anchor := by
  have nodup := h.nodup sound
  have hm := h.members m (by simp)
  have hmBody := h.perm.mem_iff.mp hm.2.mem_left
  have hxb : x ∈ r.body := s.perm.mem_iff.mp hb.mem_left
  have hyb : y ∈ r.body := s.perm.mem_iff.mp hb.mem_right
  have start := sound.before_of_readsFrom hxb hyb hr
  -- Either `x` stood in front of `y` before, or `y` was carried past `x` to the anchor.
  rcases s.only x y hb with old | ⟨hy, hx, hyx, hxa⟩
  · obtain ⟨hx, hya⟩ := h.ordered x y old hr
    have hya' : Before body' y anchor := by
      by_cases hy : y ∈ m :: more
      · exact s.front y hy
      · exact s.keeps y anchor hya hy
    refine ⟨(List.mem_cons.mp hx).resolve_left ?_, hya'⟩
    rintro rfl
    rcases s.behind y hb with hy | rfl | hy
    · rcases s.after_start sound h.perm hmBody (Or.inr hy) with rfl | hy
      · exact start.ne sound.bodyNodup rfl
      · exact start.asymm sound.bodyNodup hy
    · exact hya.ne nodup rfl
    · exact hya.asymm nodup hy
  · refine ⟨?_, s.front y hy⟩
    have hy' := List.mem_cons.mp hy
    have hmx : Before body m x := by
      rcases hy' with rfl | hy'
      · exact hyx
      · exact (s.after y hy').trans nodup hyx
    cases hl : r.level? x with
    | none =>
      refine absurd hr (s.complete x hmx hxa hl (fun hmem => hx (List.mem_cons_of_mem _ hmem)) y ?_)
      exact hy'.imp_right fun hy' => ⟨hy', hyx⟩
    | some lx =>
      have hle : lx ≤ level := by
        rw [← graded.level x hxb lx hl]
        exact (graded.mono x hxb y hyb hr).trans (s.reach_le graded h.perm hmBody hm.1 hy')
      -- A scheduled node passed on the way can only be of the level itself.
      have hge : level ≤ lx := by
        by_contra hlt
        exact hlt (h.sorted x anchor lx level hxa hl ha (by omega))
      obtain rfl : lx = level := by omega
      rcases h.all x hxa.mem_left hl with rfl | hmem
      · exact absurd rfl (hxa.ne nodup)
      · rcases List.mem_append.mp hmem with hdone | htodo
        · have hxm : Before r.body x m := by
            refine Before.sublist ?_ h.inOrder
            rw [List.append_assoc]
            exact before_append.mpr (Or.inr (Or.inl ⟨hdone, by simp⟩))
          rcases s.after_start sound h.perm hmBody hy' with rfl | hy'
          · exact absurd hxm (start.asymm sound.bodyNodup)
          · exact absurd (hxm.trans sound.bodyNodup hy') (start.asymm sound.bodyNodup)
        · refine (List.mem_cons.mp htodo).resolve_left ?_
          rintro rfl
          exact hx (by simp)

theorem Region.GatheringAt.step (h : r.GatheringAt level anchor done (m :: todo) body)
    (sound : r.Sound) (graded : r.Graded reach) (ha : r.level? anchor = some level)
    (s : r.Shifted m anchor more body body') :
    r.GatheringAt level anchor (done ++ [m]) todo body' := by
  have shape : done ++ m :: todo = done ++ [m] ++ todo := by simp
  have hm := h.members m (by simp)
  have stay : ∀ x l, r.level? x = some l → x ≠ m → x ∉ m :: more := by
    intro x l hl ne hmem
    have hmem := (List.mem_cons.mp hmem).resolve_left ne
    simp [s.unleveled x hmem] at hl
  have doneNe : ∀ x ∈ done, x ≠ m := by
    rintro x hx rfl
    have sub := sound.bodyNodup.sublist h.inOrder
    rw [List.append_assoc] at sub
    exact (List.nodup_append.mp sub).2.2 x hx x (by simp) rfl
  constructor
  case perm => exact s.perm
  case members =>
    intro x hx
    obtain ⟨hl, hb⟩ := h.members x (shape ▸ hx)
    refine ⟨hl, ?_⟩
    by_cases hmem : x ∈ m :: more
    · exact s.front x hmem
    · exact s.keeps x anchor hb hmem
  case all =>
    intro x hx hl
    exact shape ▸ h.all x (h.perm.mem_iff.mpr (s.perm.mem_iff.mp hx)) hl
  case inOrder => simpa using h.inOrder
  case ordered => exact fun x y hb hr => h.ordered_step sound graded ha s hb hr
  case sorted =>
    intro x y lx ly hb hlx hly hlt
    rcases s.only x y hb with old | ⟨_, _, _, hxa⟩
    · exact h.sorted x y lx ly old hlx hly hlt
    · have := h.sorted x anchor lx level hxa hlx ha hlt
      omega
  case descends =>
    intro y z ly lz hy hz hly hlz hle hlt
    have old : ∀ w ∈ body', w ∈ body := fun w hw =>
      h.perm.mem_iff.mpr (s.perm.mem_iff.mp hw)
    obtain ⟨x, hx, hlx⟩ := h.descends y z ly lz (old y hy) (old z hz) hly hlz hle hlt
    refine ⟨x, s.keeps y x hx (stay y ly hly ?_), hlx⟩
    rintro rfl
    rw [hm.1] at hly
    cases hly
    omega
  case settled =>
    intro x hx y ly hb hly
    have moved : ∀ z ∈ m :: more, ∀ lz, r.level? z = some lz → lz ≤ level := by
      intro z hz lz hlz
      rcases List.mem_cons.mp hz with rfl | hz
      · rw [hm.1] at hlz
        cases hlz
        exact le_rfl
      · simp [s.unleveled z hz] at hlz
    rcases List.mem_append.mp hx with hx | hx
    · rcases s.only x y hb with old | ⟨hy, _⟩
      · exact h.settled x hx y ly old hly
      · exact moved y hy ly hly
    · obtain rfl := List.mem_singleton.mp hx
      rcases s.behind y hb with hy | rfl | hy
      · exact moved y (List.mem_cons_of_mem _ hy) ly hly
      · rw [ha] at hly
        cases hly
        exact le_rfl
      · exact h.anchor_settled sound ha hy hly
  case doneOrder =>
    intro x y hb
    have doneStay : ∀ z ∈ done, z ∉ m :: more := fun z hz =>
      stay z level (h.members z (by simp [hz])).1 (doneNe z hz)
    rcases before_append.mp hb with hb | ⟨hx, hy⟩ | hb
    · exact s.keeps x y (h.doneOrder x y hb) (doneStay x hb.mem_left)
    · obtain rfl := List.mem_singleton.mp hy
      exact s.landing x (h.members x (by simp [hx])).2 (doneStay x hx)
    · rcases before_cons.mp hb with ⟨_, hy⟩ | hb
      · simp at hy
      · exact absurd hb before_nil
  case stable =>
    intro x y l ne hlx hly hb
    refine s.keeps x y (h.stable x y l ne hlx hly hb) (stay x l hlx ?_)
    rintro rfl
    rw [hm.1] at hlx
    cases hlx
    exact ne rfl

theorem Region.GatheringAt.foldlM_gatherMember
    (h : r.GatheringAt level anchor done todo body) (sound : r.Sound)
    (graded : r.Graded reach) (ha : r.level? anchor = some level) (moved : Nat) :
    ∃ body' moved', todo.foldlM (gatherMember anchor) ({ r with body := body }, moved) =
        some ({ r with body := body' }, moved') ∧
      r.GatheringAt level anchor (done ++ todo) [] body' := by
  induction todo generalizing done body moved with
  | nil => exact ⟨body, moved, rfl, by simpa using h⟩
  | cons m todo ih =>
    obtain ⟨more, next, hstep, s⟩ := sound.gatherMember h.perm (h.members m (by simp)).2 moved
    obtain ⟨body', moved', hfold, done'⟩ := ih (h.step sound graded ha s) _
    refine ⟨body', moved', ?_, by simpa using done'⟩
    rw [List.foldlM_cons, hstep]
    exact hfold

theorem Region.anchor_of_members {todo : List NodeId}
    (members : r.body.filter (fun n => r.level? n = some level) = todo ++ [anchor]) :
    anchor ∈ r.body ∧ r.level? anchor = some level := by
  have last : anchor ∈ r.body.filter fun n => r.level? n = some level := members ▸ by simp
  simpa using last

theorem Region.GatheredBelow.start (h : r.GatheredBelow level body) {todo : List NodeId}
    (members : r.body.filter (fun n => r.level? n = some level) = todo ++ [anchor]) :
    r.GatheringAt level anchor [] todo body := by
  have inOrder : (todo ++ [anchor]).Sublist r.body := members ▸ List.filter_sublist
  have mem_members : ∀ x, x ∈ todo ++ [anchor] ↔ x ∈ r.body ∧ r.level? x = some level := by
    intro x
    rw [← members]
    simp
  have ha := anchor_of_members members
  refine ⟨h.perm, fun x hx => ?_, fun x hx hl => ?_, inOrder, fun x y hb hr => ?_, h.sorted,
    h.descends, by simp, fun x y hb => absurd hb before_nil, fun x y l _ => h.stable x y l⟩
  · have hl := ((mem_members x).mp (List.mem_append_left _ hx)).2
    have hb : Before (todo ++ [anchor]) x anchor := before_append.mpr (Or.inr (Or.inl ⟨hx, by simp⟩))
    exact ⟨hl, h.stable x anchor level hl ha.2 (hb.sublist inOrder)⟩
  · rcases List.mem_append.mp ((mem_members x).mpr ⟨h.perm.mem_iff.mp hx, hl⟩) with hx | hx
    · exact Or.inr hx
    · exact Or.inl (List.mem_singleton.mp hx)
  · exact absurd hr (h.ordered x y hb)

theorem Region.GatheringAt.finish (h : r.GatheringAt level anchor done [] body)
    (sound : r.Sound) (ha : r.level? anchor = some level) : r.GatheredBelow (level + 1) body := by
  have nodup := h.nodup sound
  refine ⟨h.perm, fun x y hb hr => ?_, fun x y lx ly hb hlx hly hlt => ?_,
    fun y z ly lz hy hz hly hlz hle => h.descends y z ly lz hy hz hly hlz (by omega),
    fun x y l hlx hly hb => ?_⟩
  · simpa using (h.ordered x y hb hr).1
  · by_cases hlow : lx < level
    · exact h.sorted x y lx ly hb hlx hly hlow
    · obtain rfl : lx = level := by omega
      rcases h.all x hb.mem_left hlx with rfl | hx
      · exact h.anchor_settled sound ha hb hly
      · exact h.settled x (by simpa using hx) y ly hb hly
  · by_cases hl : l = level
    · subst hl
      have inOrder : (done ++ [anchor]).Sublist r.body := by simpa using h.inOrder
      have place : ∀ z ∈ r.body, r.level? z = some l → z = anchor ∨ z ∈ done := fun z hz hlz => by
        simpa using h.all z (h.perm.mem_iff.mpr hz) hlz
      have doneFirst : ∀ z ∈ done, Before r.body z anchor := fun z hz =>
        Before.sublist (before_append.mpr (Or.inr (Or.inl ⟨hz, by simp⟩))) inOrder
      rcases place x hb.mem_left hlx with rfl | hx
      · rcases place y hb.mem_right hly with rfl | hy
        · exact absurd rfl (hb.ne sound.bodyNodup)
        · exact absurd (doneFirst y hy) (hb.asymm sound.bodyNodup)
      · rcases place y hb.mem_right hly with rfl | hy
        · exact (h.members x (by simpa using hx)).2
        · have sub : done.Sublist r.body := (List.sublist_append_left _ _).trans inOrder
          exact h.doneOrder x y (hb.of_sublist sound.bodyNodup sub hx hy)
    · exact h.stable x y l hl hlx hly hb

theorem Region.GatheredBelow.skip (h : r.GatheredBelow level body) {upper : Nat}
    (hle : level ≤ upper)
    (none : ∀ n ∈ r.body, ∀ l, r.level? n = some l → level ≤ l → upper ≤ l) :
    r.GatheredBelow upper body := by
  refine ⟨h.perm, h.ordered, fun x y lx ly hb hlx hly hlt => h.sorted x y lx ly hb hlx hly ?_,
    fun y z ly lz hy hz hly hlz hl => h.descends y z ly lz hy hz hly hlz (hle.trans hl), h.stable⟩
  by_contra hge
  have := none x (h.perm.mem_iff.mp hb.mem_left) lx hlx (by omega)
  omega

theorem Region.GatheredBelow.gatherGroup (h : r.GatheredBelow level body) (sound : r.Sound)
    (graded : r.Graded reach)
    (members : r.body.filter (fun n => r.level? n = some level) = todo ++ [anchor])
    (moved : Nat) : ∃ body' moved', todo.foldlM (gatherMember anchor) ({ r with body := body }, moved) =
        some ({ r with body := body' }, moved') ∧ r.GatheredBelow (level + 1) body' := by
  have ha := (anchor_of_members members).2
  obtain ⟨body', moved', hfold, done⟩ := (h.start members).foldlM_gatherMember sound graded ha moved
  exact ⟨body', moved', hfold, done.finish sound ha⟩

/-- What holds of the body at the start, whichever levels have no nodes, and what goes over from
each level to the next when its nodes are brought together, holds at the end. -/
theorem Region.foldlM_gatherGroup {P : Nat → List NodeId → Prop}
    (skip : ∀ level upper body, P level body → level ≤ upper →
      (∀ n ∈ r.body, ∀ l, r.level? n = some l → level ≤ l → upper ≤ l) → P upper body)
    (step : ∀ level todo anchor body moved,
      r.body.filter (fun n => r.level? n = some level) = todo ++ [anchor] → P level body →
      ∃ body' moved', todo.foldlM (gatherMember anchor) ({ r with body := body }, moved) =
        some ({ r with body := body' }, moved') ∧ P (level + 1) body')
    {groups : List (Nat × List NodeId)} (moved : Nat) (ascending : Ascending groups)
    (members : ∀ l ns, (l, ns) ∈ groups → ns ≠ [] ∧ level ≤ l ∧
      ns = r.body.filter fun n => r.level? n = some l)
    (cover : ∀ n ∈ r.body, ∀ l, r.level? n = some l → level ≤ l → ∃ ns, (l, ns) ∈ groups)
    (h : P level body) :
    ∃ body' moved' top, groups.foldlM gatherGroup ({ r with body := body }, moved) =
        some ({ r with body := body' }, moved') ∧
      P top body' ∧ ∀ n ∈ r.body, ∀ l, r.level? n = some l → l < top := by
  induction groups generalizing level body moved with
  | nil =>
    refine ⟨body, moved, level, rfl, h, fun n hn l hl => ?_⟩
    by_contra hge
    obtain ⟨ns, hns⟩ := cover n hn l hl (by omega)
    simp at hns
  | cons group groups ih =>
    obtain ⟨l, ns⟩ := group
    obtain ⟨first, rest⟩ := List.pairwise_cons.mp ascending
    obtain ⟨some, low, hns⟩ := members l ns (by simp)
    obtain ⟨todo, anchor, rfl⟩ : ∃ todo anchor, ns = todo ++ [anchor] :=
      ⟨_, _, (List.dropLast_append_getLast some).symm⟩
    -- The levels up to that of the next group have no nodes.
    have here : P l body := by
      refine skip level l body h low fun n hn k hk hle => ?_
      obtain ⟨ms, hms⟩ := cover n hn k hk hle
      rcases List.mem_cons.mp hms with he | hms
      · cases he
        exact le_rfl
      · exact (first _ hms).le
    obtain ⟨body', moved', hfold, done⟩ := step l todo anchor body moved hns.symm here
    obtain ⟨body'', moved'', top, hrest, gathered, above⟩ :=
      ih moved' rest
        (fun k ms hms => by
          obtain ⟨ne, _, he⟩ := members k ms (List.mem_cons_of_mem _ hms)
          exact ⟨ne, first _ hms, he⟩)
        (fun n hn k hk hle => by
          obtain ⟨ms, hms⟩ := cover n hn k hk (by omega)
          rcases List.mem_cons.mp hms with he | hms
          · cases he
            omega
          · exact ⟨ms, hms⟩) done
    refine ⟨body'', moved'', top, ?_, gathered, above⟩
    rw [List.foldlM_cons]
    have whole : Staging.gatherGroup ({ r with body := body }, moved) (l, todo ++ [anchor]) =
        .some ({ r with body := body' }, moved') := by
      simpa [Staging.gatherGroup] using hfold
    rw [whole]
    exact hrest

/-- The rule for the levels of a body, all of which have their nodes brought together. -/
theorem Region.gather_rule {P : Nat → List NodeId → Prop} (start : P 0 r.body)
    (skip : ∀ level upper body, P level body → level ≤ upper →
      (∀ n ∈ r.body, ∀ l, r.level? n = some l → level ≤ l → upper ≤ l) → P upper body)
    (step : ∀ level todo anchor body moved,
      r.body.filter (fun n => r.level? n = some level) = todo ++ [anchor] → P level body →
      ∃ body' moved', todo.foldlM (gatherMember anchor) ({ r with body := body }, moved) =
        some ({ r with body := body' }, moved') ∧ P (level + 1) body') :
    ∃ body moved top, r.gather = some ({ r with body := body }, moved) ∧ P top body ∧
      ∀ n ∈ r.body, ∀ l, r.level? n = some l → l < top := by
  obtain ⟨ascending, found⟩ := r.groups_spec
  refine foldlM_gatherGroup skip step 0 ascending (fun l ns hns => ?_) (fun n hn l hl _ => ?_) start
  · have hl := ascending.mem_iff_lookup.mp hns
    rw [found] at hl
    split at hl
    next => simp at hl
    next ne =>
      cases hl
      exact ⟨ne, Nat.zero_le l, rfl⟩
  · have ne : r.body.filter (fun n => r.level? n = some l) ≠ [] :=
      List.ne_nil_of_mem (List.mem_filter.mpr ⟨hn, by simpa using hl⟩)
    exact ⟨_, ascending.mem_iff_lookup.mpr ((found l).trans (if_neg ne))⟩

end Group

/-- An order of the body with the nodes of each level brought together, highest level first. -/
structure Region.Gathered (r : Region) (body : List NodeId) : Prop where
  perm : body.Perm r.body
  ordered : body.Pairwise fun x y => ¬ r.ReadsFrom x y
  sorted : ∀ x y lx ly, Before body x y → r.level? x = some lx → r.level? y = some ly → ly ≤ lx
  stable : ∀ x y l, r.level? x = some l → r.level? y = some l → Before r.body x y →
    Before body x y

/-- Before any level is brought together, every node stands behind those it reads from. -/
theorem Region.Sound.gatheredBelow_zero {r : Region} (sound : r.Sound)
    (descends : ∀ y ∈ r.body, ∀ z ∈ r.body, ∀ ly lz, r.level? y = some ly →
      r.level? z = some lz → lz < ly → ∃ x, Before r.body y x ∧ r.level? x = some lz) :
    r.GatheredBelow 0 r.body := by
  refine ⟨List.Perm.refl _, fun x y hb hr => ?_, fun x y lx ly _ _ _ hlt => by omega,
    fun y z ly lz hy hz hly hlz _ => descends y hy z hz ly lz hly hlz, fun _ _ _ _ _ h => h⟩
  exact hb.asymm sound.bodyNodup (sound.before_of_readsFrom hb.mem_left hb.mem_right hr)

theorem Region.GatheredBelow.gathered {r : Region} {top : Nat} {body : List NodeId}
    (h : r.GatheredBelow top body)
    (above : ∀ n ∈ r.body, ∀ l, r.level? n = some l → l < top) : r.Gathered body :=
  ⟨h.perm, pairwise_iff_before.mpr h.ordered, fun x y lx ly hb hlx hly =>
    h.sorted x y lx ly hb hlx hly (above x (h.perm.mem_iff.mp hb.mem_left) lx hlx), h.stable⟩

/-- Gathering succeeds where every level has a node behind all those of higher levels, and no
node reads from a lower level. -/
theorem Region.Sound.gather {r : Region} (sound : r.Sound) {reach : NodeId → Nat}
    (graded : r.Graded reach)
    (descends : ∀ y ∈ r.body, ∀ z ∈ r.body, ∀ ly lz, r.level? y = some ly →
      r.level? z = some lz → lz < ly → ∃ x, Before r.body y x ∧ r.level? x = some lz) :
    ∃ body moved, r.gather = some ({ r with body := body }, moved) ∧ r.Gathered body := by
  obtain ⟨body, moved, top, hgather, gathered, above⟩ :=
    r.gather_rule (sound.gatheredBelow_zero descends) (fun _ _ _ h low none => h.skip low none)
      fun _ _ _ _ moved members h => h.gatherGroup sound graded members moved
  exact ⟨body, moved, hgather, gathered.gathered above⟩

end Staging
