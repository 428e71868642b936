import Staging.Proofs.Gathering
import Staging.Proofs.Relevel

namespace Staging

/-- A list with all that is marked moved behind the rest. -/
def sink {α : Type} (mark : α → Bool) (l : List α) : List α :=
  l.filter (fun a => !mark a) ++ l.filter mark

/-- A list with what is marked moved behind the rest, for one kind of marks after another. -/
def sinkAll {α : Type} (marks : List (α → Bool)) (l : List α) : List α :=
  marks.foldl (fun l mark => sink mark l) l

section Sink

variable {α : Type} {mark : α → Bool} {marks : List (α → Bool)} {l x y : List α}

theorem sink_perm (mark : α → Bool) (l : List α) : (sink mark l).Perm l :=
  List.perm_append_comm.trans (List.filter_append_perm mark l)

theorem sinkAll_perm (marks : List (α → Bool)) (l : List α) : (sinkAll marks l).Perm l := by
  induction marks generalizing l with
  | nil => exact List.Perm.refl l
  | cons mark marks ih => exact (ih (sink mark l)).trans (sink_perm mark l)

theorem sinkAll_nil (marks : List (α → Bool)) : sinkAll marks [] = [] :=
  (sinkAll_perm marks []).eq_nil

theorem filter_sink (p : α → Bool) (mark : α → Bool) (l : List α) :
    (sink mark l).filter p = sink mark (l.filter p) := by
  simp only [sink, List.filter_append, List.filter_filter, Bool.and_comm]

theorem filter_sinkAll (p : α → Bool) (marks : List (α → Bool)) (l : List α) :
    (sinkAll marks l).filter p = sinkAll marks (l.filter p) := by
  induction marks generalizing l with
  | nil => rfl
  | cons mark marks ih => exact (ih (sink mark l)).trans (by rw [filter_sink]; rfl)

theorem sinkAll_concat (marks : List (α → Bool)) (mark : α → Bool) (l : List α) :
    sinkAll (marks ++ [mark]) l = sinkAll marks (l.filter fun a => !mark a) ++
      sinkAll marks (l.filter mark) := by
  rw [sinkAll, List.foldl_append, List.foldl_cons, List.foldl_nil, sink]
  exact congrArg₂ _ (filter_sinkAll _ marks l) (filter_sinkAll _ marks l)

/-- Marks move nothing any more once they have moved all they mark. -/
theorem sinkAll_idem (marks : List (α → Bool)) (l : List α) :
    sinkAll marks (sinkAll marks l) = sinkAll marks l := by
  induction marks using List.reverseRecOn generalizing l with
  | nil => rfl
  | append_singleton marks mark ih =>
    rw [sinkAll_concat marks mark l, sinkAll_concat, List.filter_append, List.filter_append]
    simp [filter_sinkAll, List.filter_filter, ih, sinkAll_nil]

theorem sink_append (unmarked : ∀ a ∈ x, mark a = false) :
    sink mark (x ++ y) = x ++ sink mark y := by
  have kept : x.filter (fun a => !mark a) = x :=
    List.filter_eq_self.mpr fun a ha => by simp [unmarked a ha]
  have moved : x.filter mark = [] :=
    List.filter_eq_nil_iff.mpr fun a ha => by simp [unmarked a ha]
  simp [sink, kept, moved]

theorem sinkAll_append (unmarked : ∀ mark ∈ marks, ∀ a ∈ x, mark a = false) :
    sinkAll marks (x ++ y) = x ++ sinkAll marks y := by
  induction marks generalizing y with
  | nil => rfl
  | cons mark marks ih =>
    have step : sink mark (x ++ y) = x ++ sink mark y := sink_append (unmarked mark (by simp))
    calc
      sinkAll (mark :: marks) (x ++ y) = sinkAll marks (x ++ sink mark y) := by rw [← step]; rfl
      _ = x ++ sinkAll marks (sink mark y) := ih fun m hm => unmarked m (List.mem_cons_of_mem _ hm)

theorem filter_mem_of_sublist [DecidableEq α] (sub : x.Sublist l) (nodup : l.Nodup) :
    l.filter (· ∈ x) = x := by
  induction sub with
  | slnil => rfl
  | @cons x l a sub ih =>
    obtain ⟨new, nodup⟩ := List.nodup_cons.mp nodup
    rw [List.filter_cons_of_neg (by simpa using fun h => new (sub.subset h)), ih nodup]
  | @cons_cons x l a sub ih =>
    obtain ⟨new, nodup⟩ := List.nodup_cons.mp nodup
    rw [List.filter_cons_of_pos (by simp)]
    have same : l.filter (· ∈ a :: x) = l.filter (· ∈ x) := by
      refine List.filter_congr fun b hb => ?_
      have ne : b ≠ a := by
        rintro rfl
        exact new hb
      simp [ne]
    rw [same, ih nodup]

theorem append_cons_left_unique {a : α} {x' y' : List α} (nodup : (x ++ a :: y).Nodup)
    (h : x ++ a :: y = x' ++ a :: y') : x = x' := by
  have before : a ∉ x := fun ha => (List.nodup_append.mp nodup).2.2 a ha a (by simp) rfl
  have after : a ∉ y := (List.nodup_cons.mp (List.nodup_append.mp nodup).2.1).1
  exact ((List.append_cons_inj_of_notMem before after).mp h).1

end Sink

/-- A node of the body comes along with `m`: it is `m`, or it is not scheduled and reads from
one that comes along. -/
inductive Region.Follows (r : Region) (m : NodeId) : NodeId → Prop
  | self : Follows r m m
  | reads {x y : NodeId} (hx : x ∈ r.body) (free : r.level? x = none) (reads : r.ReadsFrom x y)
      (rest : Follows r m y) : Follows r m x

open Classical in
/-- Marks what comes along with a node. -/
noncomputable def Region.follows (r : Region) (m x : NodeId) : Bool :=
  decide (r.Follows m x)

theorem Region.follows_iff {r : Region} {m x : NodeId} :
    r.follows m x = true ↔ r.Follows m x := by
  simp [follows]

/-- In an order of the body, nodes that are not scheduled stand behind those they read from. -/
def Region.Trails (r : Region) (body : List NodeId) : Prop :=
  ∀ x y, x ∈ body → y ∈ body → r.level? x = none → r.ReadsFrom x y → Before body y x

section Follows

variable {r : Region} {reach : NodeId → Nat} {level : Nat} {m anchor x : NodeId}
  {done todo body pre behind : List NodeId}

theorem Region.Follows.mem_body (h : r.Follows m x) (hm : m ∈ r.body) : x ∈ r.body := by
  cases h with
  | self => exact hm
  | reads hx => exact hx

theorem Region.Follows.after (h : r.Follows m x) (trails : r.Trails body)
    (perm : body.Perm r.body) (sound : r.Sound) (hm : m ∈ r.body) :
    x = m ∨ Before body m x := by
  have nodup := perm.nodup_iff.mpr sound.bodyNodup
  induction h with
  | self => exact Or.inl rfl
  | @reads x y hx free reads rest ih =>
    have step := trails x y (perm.mem_iff.mpr hx) (perm.mem_iff.mpr (rest.mem_body hm)) free reads
    rcases ih with rfl | behind
    · exact Or.inr step
    · exact Or.inr (behind.trans nodup step)

theorem Region.Trails.not_follows (trails : r.Trails body) (perm : body.Perm r.body)
    (sound : r.Sound) (earlier : Before body x m) : r.follows m x = false := by
  have nodup := perm.nodup_iff.mpr sound.bodyNodup
  by_contra follows
  have follows : r.Follows m x := follows_iff.mp (by simpa using follows)
  rcases follows.after trails perm sound (perm.mem_iff.mp earlier.mem_right) with rfl | after
  · exact earlier.ne nodup rfl
  · exact earlier.asymm nodup after

theorem Region.GatheringAt.trails (h : r.GatheringAt level anchor done todo body)
    (sound : r.Sound) : r.Trails body := by
  intro x y hx hy free reads
  have hx' := h.perm.mem_iff.mp hx
  have hy' := h.perm.mem_iff.mp hy
  have ne := (sound.before_of_readsFrom hx' hy' reads).ne sound.bodyNodup
  refine (before_total hy hx ne).resolve_right fun back => ?_
  have leveled := (h.members x (List.mem_append_right _ (h.ordered x y back reads).1)).1
  simp [free] at leveled

/-- From the stretch up to the anchor, just what comes along with a node is carried. -/
theorem Region.Carries.mem_iff {mid more : List NodeId} (carries : r.Carries [m] mid more)
    (sound : r.Sound) (perm : (pre ++ m :: mid ++ anchor :: behind).Perm r.body)
    (trails : r.Trails (pre ++ m :: mid ++ anchor :: behind)) (hx : x ∈ mid) :
    x ∈ more ↔ r.Follows m x := by
  have nodup := perm.nodup_iff.mpr sound.bodyNodup
  have shape : pre ++ m :: mid ++ anchor :: behind =
      (pre ++ [m]) ++ mid ++ anchor :: behind := by simp
  have inBody : ∀ y ∈ m :: mid, y ∈ r.body := fun y hy => perm.mem_iff.mp (by
    rcases List.mem_cons.mp hy with rfl | hy <;> simp [*])
  have midSub : mid.Sublist (pre ++ m :: mid ++ anchor :: behind) := by
    rw [shape, List.append_assoc]
    exact (List.sublist_append_left _ _).trans (List.sublist_append_right _ _)
  -- What is carried was reached by reads from `m`; what follows `m` by reads is never left behind.
  constructor
  · intro hmore
    refine carries.closed (fun z => z = m ∨ r.level? z = none → r.Follows m z)
      (fun y hy _ => ?_) (fun z hz y hy hmem reads hz' => ?_) x hmore
      (Or.inr (carries.unleveled x hmore))
    · obtain rfl := List.mem_singleton.mp hy
      exact .self
    · have follows := hy (hmem.imp List.mem_singleton.mp (carries.unleveled y))
      rcases hz' with rfl | free
      · exact .self
      · exact .reads (inBody z (List.mem_cons_of_mem _ hz)) free reads follows
  · intro follows
    induction follows with
    | self =>
      have seg := (List.nodup_append.mp (List.nodup_append.mp nodup).1).2.1
      exact absurd hx (List.nodup_cons.mp seg).1
    | @reads x y hx' free reads rest ih =>
      have hy := rest.mem_body (inBody m (by simp))
      have step := trails x y (perm.mem_iff.mpr hx') (perm.mem_iff.mpr hy) free reads
      by_contra left
      refine carries.complete x hx free left y ?_ reads
      rcases rest.after trails perm sound (inBody m (by simp)) with rfl | after
      · exact Or.inl (by simp)
      · have hmid : y ∈ mid := by
          have rest' := after.mem_behind nodup (by simp : _ = pre ++ m :: (mid ++ anchor :: behind))
          refine (List.mem_append.mp rest').resolve_right fun far => ?_
          refine step.asymm nodup (before_append.mpr (Or.inr (Or.inl ⟨?_, far⟩)))
          simp [hx]
        exact Or.inr ⟨ih hmid, step.of_sublist nodup midSub hmid hx⟩

/-- Moving a node of a level takes all that comes along with it to the anchor. -/
theorem Region.Sound.gatherMember_eq (sound : r.Sound)
    (perm : (pre ++ anchor :: behind).Perm r.body)
    (trails : r.Trails (pre ++ anchor :: behind)) (hm : m ∈ pre) (moved : Nat) :
    ∃ moved', Staging.gatherMember anchor ({ r with body := pre ++ anchor :: behind }, moved) m =
      some ({ r with body := sink (r.follows m) pre ++ anchor :: behind }, moved') := by
  obtain ⟨before, mid, rfl⟩ := List.append_of_mem hm
  have nodup := perm.nodup_iff.mpr sound.bodyNodup
  have nodupSeg : (m :: mid).Nodup := (List.nodup_append.mp (List.nodup_append.mp nodup).1).2.1
  obtain ⟨more, carries, step⟩ := sound.gatherMember_split perm moved
  have sub : (m :: more).Sublist (m :: mid) := carries.sublist.cons_cons m
  have marked : ∀ x ∈ m :: mid, r.follows m x = decide (x ∈ m :: more) := by
    intro x hx
    rw [Bool.eq_iff_iff, follows_iff, decide_eq_true_iff]
    rcases List.mem_cons.mp hx with rfl | hmid
    · exact iff_of_true .self (by simp)
    · have ne : x ≠ m := by
        rintro rfl
        exact (List.nodup_cons.mp nodupSeg).1 hmid
      rw [← carries.mem_iff sound perm trails hmid]
      simp [ne]
  have stay : ∀ x ∈ before, r.follows m x = false := by
    intro x hx
    have earlier : Before (before ++ m :: mid ++ anchor :: behind) x m := by
      rw [List.append_assoc]
      exact before_append.mpr (Or.inr (Or.inl ⟨hx, by simp⟩))
    exact trails.not_follows perm sound earlier
  have sunk : sink (r.follows m) (before ++ m :: mid) =
      before ++ (m :: mid).filter (· ∉ m :: more) ++ (m :: more) := by
    have left : (m :: mid).filter (fun a => !r.follows m a) =
        (m :: mid).filter (· ∉ m :: more) :=
      List.filter_congr fun a ha => by rw [marked a ha, decide_not]
    have taken : (m :: mid).filter (r.follows m) = m :: more := by
      rw [List.filter_congr marked, filter_mem_of_sublist sub nodupSeg]
    rw [sink_append stay, sink, left, taken, List.append_assoc]
  exact ⟨moved + (m :: more).length, sunk ▸ step⟩

theorem Region.GatheringAt.foldlM_eq (h : r.GatheringAt level anchor done todo
      (pre ++ anchor :: behind)) (sound : r.Sound) (graded : r.Graded reach)
    (ha : r.level? anchor = some level) (moved : Nat) :
    ∃ moved', todo.foldlM (Staging.gatherMember anchor)
        ({ r with body := pre ++ anchor :: behind }, moved) =
      some ({ r with body := sinkAll (todo.map r.follows) pre ++ anchor :: behind }, moved') := by
  induction todo generalizing done pre moved with
  | nil => exact ⟨moved, rfl⟩
  | cons m todo ih =>
    have before := (h.members m (by simp)).2
    have hm : m ∈ pre := before.mem_front (h.nodup sound) rfl
    obtain ⟨_, next, hstep, shifted⟩ := sound.gatherMember h.perm before moved
    obtain ⟨moved', hstep'⟩ := sound.gatherMember_eq h.perm (h.trails sound) hm moved
    have same : next = sink (r.follows m) pre ++ anchor :: behind := by
      rw [hstep] at hstep'
      exact congrArg (fun state => state.1.body) (Option.some.inj hstep')
    obtain ⟨moved'', hfold⟩ := ih (same ▸ h.step sound graded ha shifted) moved'
    refine ⟨moved'', ?_⟩
    rw [List.foldlM_cons, hstep']
    exact hfold

theorem Region.GatheredBelow.trails (h : r.GatheredBelow level body) (sound : r.Sound) :
    r.Trails body := by
  intro x y hx hy _ reads
  have ne := (sound.before_of_readsFrom (h.perm.mem_iff.mp hx) (h.perm.mem_iff.mp hy) reads).ne
    sound.bodyNodup
  exact (before_total hy hx ne).resolve_right fun back => h.ordered x y back reads

/-- Bringing a level together moves what comes along with each of its nodes, one node after the
other, to the last of them. -/
theorem Region.GatheredBelow.gatherGroup_eq
    (h : r.GatheredBelow level (pre ++ anchor :: behind)) (sound : r.Sound)
    (graded : r.Graded reach)
    (members : r.body.filter (fun n => r.level? n = some level) = todo ++ [anchor])
    (moved : Nat) : ∃ moved', todo.foldlM (Staging.gatherMember anchor)
        ({ r with body := pre ++ anchor :: behind }, moved) =
      some ({ r with body := sinkAll (todo.map r.follows) pre ++ anchor :: behind }, moved') ∧
        r.GatheredBelow (level + 1) (sinkAll (todo.map r.follows) pre ++ anchor :: behind) := by
  have ha := (anchor_of_members members).2
  obtain ⟨moved', hfold⟩ := (h.start members).foldlM_eq sound graded ha moved
  obtain ⟨next, _, hfold', next'⟩ := h.gatherGroup sound graded members moved
  have same : next = sinkAll (todo.map r.follows) pre ++ anchor :: behind := by
    rw [hfold] at hfold'
    exact (congrArg (fun state => state.1.body) (Option.some.inj hfold')).symm
  exact ⟨moved', hfold, same ▸ next'⟩

/-- In an order of the body, moving what comes along with the nodes of a level to the last of them
changes nothing. -/
def Region.Packed (r : Region) (level : Nat) (body : List NodeId) : Prop :=
  ∀ todo anchor pre behind, r.body.filter (fun n => r.level? n = some level) = todo ++ [anchor] →
    body = pre ++ anchor :: behind → sinkAll (todo.map r.follows) pre = pre

theorem Region.GatheredBelow.packed (h : r.GatheredBelow level (pre ++ anchor :: behind))
    (sound : r.Sound)
    (members : r.body.filter (fun n => r.level? n = some level) = todo ++ [anchor]) :
    r.Packed level (sinkAll (todo.map r.follows) pre ++ anchor :: behind) := by
  intro todo' anchor' pre' behind' members' shape
  obtain ⟨rfl, last⟩ := List.append_inj' (members.symm.trans members') rfl
  obtain rfl : anchor = anchor' := by simpa using last
  have nodup : (sinkAll (todo.map r.follows) pre ++ anchor :: behind).Nodup :=
    ((sinkAll_perm _ pre).append_right _).nodup_iff.mpr (h.perm.nodup_iff.mpr sound.bodyNodup)
  obtain rfl := append_cons_left_unique nodup shape
  exact sinkAll_idem _ pre

/-- Bringing a level together leaves alone what was done for the levels below it. -/
theorem Region.GatheredBelow.packed_below {low : Nat}
    (h : r.GatheredBelow level (pre ++ anchor :: behind)) (sound : r.Sound)
    (ha : r.level? anchor = some level) (hlt : low < level)
    (packed : r.Packed low (pre ++ anchor :: behind)) {marks : List (NodeId → Bool)} :
    r.Packed low (sinkAll marks pre ++ anchor :: behind) := by
  intro todo lowest pre' behind' members shape
  have nodup := h.perm.nodup_iff.mpr sound.bodyNodup
  have nodup' : (sinkAll marks pre ++ anchor :: behind).Nodup :=
    ((sinkAll_perm _ pre).append_right _).nodup_iff.mpr nodup
  -- Nodes of the lower level stand behind the anchor of this one.
  have below : ∀ x ∈ todo ++ [lowest], x ∈ behind := by
    intro x hx
    rw [← members] at hx
    obtain ⟨hx, hl⟩ := List.mem_filter.mp hx
    have hl : r.level? x = some low := by simpa using hl
    have ne : anchor ≠ x := by
      rintro rfl
      rw [ha] at hl
      cases hl
      omega
    have after : Before (pre ++ anchor :: behind) anchor x := by
      refine (before_total (by simp) (h.perm.mem_iff.mpr hx) ne).resolve_right fun back => ?_
      have := h.sorted x anchor low level back hl ha hlt
      omega
    exact after.mem_behind nodup rfl
  obtain ⟨mid, tail, rfl⟩ := List.append_of_mem (below lowest (by simp))
  have unmarked : ∀ mark ∈ todo.map r.follows, ∀ a ∈ pre, mark a = false := by
    intro mark hmark a hap
    obtain ⟨m, hm, rfl⟩ := List.mem_map.mp hmark
    have earlier : Before (pre ++ anchor :: (mid ++ lowest :: tail)) a m :=
      before_append.mpr (Or.inr (Or.inl
        ⟨hap, List.mem_cons_of_mem _ (below m (List.mem_append_left _ hm))⟩))
    exact (h.trails sound).not_follows h.perm sound earlier
  have old := packed todo lowest (pre ++ anchor :: mid) tail members (by simp)
  -- So the marks of the lower level move nothing in front of the anchor, before or after.
  rw [sinkAll_append unmarked] at old
  have settled : sinkAll (todo.map r.follows) (anchor :: mid) = anchor :: mid :=
    List.append_cancel_left old
  have split : sinkAll marks pre ++ anchor :: (mid ++ lowest :: tail) =
      (sinkAll marks pre ++ anchor :: mid) ++ lowest :: tail := by simp
  rw [split] at shape nodup'
  obtain rfl := append_cons_left_unique nodup' shape
  rw [sinkAll_append fun mark hmark a ha =>
    unmarked mark hmark a ((sinkAll_perm marks pre).mem_iff.mp ha), settled]

/-- Once a level has been brought together, so are it and all lower ones. -/
theorem Region.GatheredBelow.packed_step (h : r.GatheredBelow level body) (sound : r.Sound)
    (graded : r.Graded reach) (packed : ∀ low < level, r.Packed low body)
    (members : r.body.filter (fun n => r.level? n = some level) = todo ++ [anchor])
    (moved : Nat) : ∃ body' moved', todo.foldlM (Staging.gatherMember anchor)
        ({ r with body := body }, moved) = some ({ r with body := body' }, moved') ∧
      r.GatheredBelow (level + 1) body' ∧ ∀ low < level + 1, r.Packed low body' := by
  have anchored := anchor_of_members members
  obtain ⟨pre, behind, rfl⟩ := List.append_of_mem (h.perm.mem_iff.mpr anchored.1)
  obtain ⟨moved', hfold, next⟩ := h.gatherGroup_eq sound graded members moved
  refine ⟨_, moved', hfold, next, fun low hlt => ?_⟩
  rcases Nat.lt_succ_iff_lt_or_eq.mp hlt with hlt | rfl
  · exact h.packed_below sound anchored.2 hlt (packed low hlt)
  · exact h.packed sound members

theorem Region.packed_of_empty (empty : ∀ n ∈ r.body, r.level? n ≠ some level) :
    r.Packed level body := by
  intro todo anchor _ _ members
  obtain ⟨hn, hl⟩ := anchor_of_members members
  exact absurd hl (empty anchor hn)

/-- Once all levels have been brought together, moving the nodes of any of them changes nothing. -/
theorem Region.Sound.gather_packed (sound : r.Sound) (graded : r.Graded reach)
    (descends : ∀ y ∈ r.body, ∀ z ∈ r.body, ∀ ly lz, r.level? y = some ly →
      r.level? z = some lz → lz < ly → ∃ x, Before r.body y x ∧ r.level? x = some lz) :
    ∃ body moved, r.gather = some ({ r with body := body }, moved) ∧ r.Gathered body ∧
      ∀ level, r.Packed level body := by
  obtain ⟨body, moved, top, hgather, ⟨gathered, packed⟩, above⟩ :=
    r.gather_rule (P := fun level body => r.GatheredBelow level body ∧
        ∀ low < level, r.Packed low body)
      ⟨sound.gatheredBelow_zero descends, fun _ hlt => absurd hlt (Nat.not_lt_zero _)⟩
      (fun level upper body h low none => ⟨h.1.skip low none, fun k hk => by
        by_cases old : k < level
        · exact h.2 k old
        · exact packed_of_empty fun n hn hl => by
            have := none n hn k hl (by omega)
            omega⟩)
      fun _ _ _ _ moved members h => h.1.packed_step sound graded h.2 members moved
  refine ⟨body, moved, hgather, gathered.gathered above, fun level => ?_⟩
  by_cases old : level < top
  · exact packed level old
  · exact packed_of_empty fun n hn hl => old (above n hn level hl)

end Follows

section Regather

variable {r s : Region} {reach : NodeId → Nat} {m : NodeId}

theorem Region.Follows.of_sameNodes {x : NodeId} (h : r.Follows m x) (same : r.SameNodes s)
    (level : s.level? = r.level?) (perm : s.body.Perm r.body) : s.Follows m x := by
  induction h with
  | self => exact .self
  | reads hx free reads _ ih =>
    exact .reads (perm.mem_iff.mpr hx) (level ▸ free) (same.readsFrom ▸ reads) ih

theorem Region.follows_of_sameNodes (same : r.SameNodes s) (level : s.level? = r.level?)
    (perm : s.body.Perm r.body) : s.follows = r.follows := by
  have back : s.SameNodes r := ⟨same.size.symm, same.args.symm, same.kind.symm,
    same.operands.symm, same.results.symm, same.parent.symm, same.value.symm⟩
  funext m x
  rw [Bool.eq_iff_iff, follows_iff, follows_iff]
  exact ⟨fun h => h.of_sameNodes back level.symm perm.symm, fun h => h.of_sameNodes same level perm⟩

/-- The nodes of a level keep their order. -/
theorem Region.Gathered.members_eq {body : List NodeId} (h : r.Gathered body)
    (sound : r.Sound) (level : Nat) : body.filter (fun n => r.level? n = some level) =
      r.body.filter fun n => r.level? n = some level := by
  have nodup := h.perm.nodup_iff.mpr sound.bodyNodup
  have irrefl : Std.Irrefl (Before r.body) := ⟨fun _ hb => hb.ne sound.bodyNodup rfl⟩
  have antisymm : Std.Antisymm (Before r.body) :=
    ⟨fun _ _ hb hb' => absurd hb' (hb.asymm sound.bodyNodup)⟩
  refine List.Pairwise.eq_of_mem_iff (r := Before r.body) (pairwise_iff_before.mpr ?_)
    (pairwise_iff_before.mpr fun x y hb => hb.sublist List.filter_sublist) fun n => ?_
  · intro x y hb
    have leveled : ∀ z ∈ body.filter (fun n => r.level? n = some level),
        z ∈ r.body ∧ r.level? z = some level := fun z hz => by
      obtain ⟨hz, hl⟩ := List.mem_filter.mp hz
      exact ⟨h.perm.mem_iff.mp hz, by simpa using hl⟩
    obtain ⟨hx, hlx⟩ := leveled x hb.mem_left
    obtain ⟨hy, hly⟩ := leveled y hb.mem_right
    have here : Before body x y := hb.sublist List.filter_sublist
    exact (before_total hx hy (here.ne nodup)).resolve_right fun back =>
      here.asymm nodup (h.stable y x level hly hlx back)
  · simp [h.perm.mem_iff]

/-- Gathering a body that has been gathered changes nothing. -/
theorem Region.Sound.regather (sound : r.Sound) (graded : r.Graded reach)
    (same : r.SameNodes s) (level : s.level? = r.level?) (gathered : r.Gathered s.body)
    (packed : ∀ level, r.Packed level s.body) : ∃ moved, s.gather = some (s, moved) := by
  have perm := gathered.perm
  have sound' : s.Sound := sound.of_sameNodes same perm gathered.ordered
  have graded' : s.Graded reach :=
    ⟨fun n hn l hl => graded.level n (perm.mem_iff.mp hn) l (level ▸ hl), fun x hx y hy hr =>
      graded.mono x (perm.mem_iff.mp hx) y (perm.mem_iff.mp hy) (same.readsFrom ▸ hr)⟩
  have descends : ∀ y ∈ s.body, ∀ z ∈ s.body, ∀ ly lz, s.level? y = some ly →
      s.level? z = some lz → lz < ly → ∃ x, Before s.body y x ∧ s.level? x = some lz := by
    intro y hy z hz ly lz hly hlz hlt
    refine ⟨z, (before_total hy hz ?_).resolve_right fun back => ?_, hlz⟩
    · rintro rfl
      rw [hly] at hlz
      cases hlz
      omega
    · have := gathered.sorted z y lz ly back (level ▸ hlz) (level ▸ hly)
      omega
  obtain ⟨body, moved, top, hgather, ⟨_, rfl⟩, _⟩ :=
    s.gather_rule (P := fun level body => s.GatheredBelow level body ∧ body = s.body)
      ⟨sound'.gatheredBelow_zero descends, rfl⟩ (fun _ _ _ h low none => ⟨h.1.skip low none, h.2⟩) (by
        rintro l todo anchor body moved members ⟨h, rfl⟩
        obtain ⟨pre, behind, shape⟩ := List.append_of_mem (anchor_of_members members).1
        obtain ⟨moved', hfold, next⟩ :=
          GatheredBelow.gatherGroup_eq (shape ▸ h) sound' graded' members moved
        have still : sinkAll (todo.map s.follows) pre = pre := by
          rw [follows_of_sameNodes same level perm]
          refine packed l todo anchor pre behind ?_ shape
          rw [← members, level, gathered.members_eq sound]
        rw [still, ← shape] at hfold next
        exact ⟨s.body, moved', hfold, next, rfl⟩)
  exact ⟨moved, hgather⟩

end Regather

end Staging
