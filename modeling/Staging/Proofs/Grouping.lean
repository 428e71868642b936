import Staging.Proofs.Legal
import Staging.Proofs.Lowered
import Staging.Proofs.Regathering

namespace Staging

/-- The last node of a level in the body. -/
def Region.LastAt (r : Region) (level : Nat) (n : NodeId) : Prop :=
  (r.body.filter fun m => r.level? m = some level).getLast? = some n

instance (r : Region) (level : Nat) (n : NodeId) : Decidable (r.LastAt level n) :=
  inferInstanceAs (Decidable (_ = some n))

/-- The last node of every level stands in front of that of any lower one. -/
def Region.EndsDescend (r : Region) : Prop :=
  ∀ higher lower x y, r.LastAt higher x → r.LastAt lower y → lower < higher → Before r.body x y

/-- A node uses a result of another one, directly or by way of nodes of the body that have no
level. -/
inductive Region.ReadsThrough (r : Region) (x : NodeId) : NodeId → Prop
  | direct {y : NodeId} (reads : r.ReadsFrom x y) : ReadsThrough r x y
  | through {y z : NodeId} (rest : ReadsThrough r x z) (hz : z ∈ r.body) (free : r.level? z = none)
      (reads : r.ReadsFrom z y) : ReadsThrough r x y

/-- No node with a level uses a result of one with a lower level, directly or by way of nodes that
have none. -/
def Region.ReadsUpward (r : Region) : Prop :=
  ∀ x ∈ r.body, ∀ y ∈ r.body, ∀ lx ly, r.level? x = some lx → r.level? y = some ly →
    r.ReadsThrough x y → lx ≤ ly

/-- An order of the body in which the levels descend and the nodes of one level have kept theirs,
and in which no node has been put behind the last one of a lower level. -/
structure Region.Grouped (r : Region) (body : List NodeId) : Prop where
  perm : body.Perm r.body
  descending : (body.filterMap r.level?).Pairwise (· ≥ ·)
  members : ∀ level, body.filter (fun n => r.level? n = some level) =
    r.body.filter fun n => r.level? n = some level
  ahead : ∀ level n, r.LastAt level n → ∀ m ∈ r.body, ∀ higher, r.level? m = some higher →
    level < higher → Before r.body m n ∧ Before body m n

section Reads

variable {r : Region}

open Classical in
/-- The level of a node, or the highest level that it comes to by way of nodes that have none. -/
noncomputable def Region.reach (r : Region) (n : NodeId) : Nat :=
  (r.level? n).getD ((r.body.toFinset.filter (r.ReadsThrough · n)).sup fun m => (r.level? m).getD 0)

theorem Region.reach_of_level {n : NodeId} {level : Nat} (h : r.level? n = some level) :
    r.reach n = level := by
  simp [reach, h]

/-- A node without a level has no higher measure than all that comes to nodes with a level. -/
theorem Region.reach_le_iff {n : NodeId} (free : r.level? n = none) {bound : Nat} :
    r.reach n ≤ bound ↔
      ∀ m ∈ r.body, r.ReadsThrough m n → ∀ level, r.level? m = some level → level ≤ bound := by
  simp only [reach, free, Option.getD_none, Finset.sup_le_iff, Finset.mem_filter, List.mem_toFinset,
    and_imp]
  refine forall₃_congr fun m _ _ => ?_
  cases r.level? m <;> simp

/-- Levels that are read upward are those of a measure that never rises from a node to its readers,
and only those. -/
theorem Region.readsUpward_iff : r.ReadsUpward ↔ ∃ reach, r.Graded reach := by
  constructor
  · intro upward
    refine ⟨r.reach, fun n _ level h => reach_of_level h, fun x hx y hy reads => ?_⟩
    cases hlx : r.level? x with
    | some lx =>
      rw [reach_of_level hlx]
      cases hly : r.level? y with
      | some ly =>
        rw [reach_of_level hly]
        exact upward x hx y hy lx ly hlx hly (.direct reads)
      | none => exact (reach_le_iff hly).mp le_rfl x hx (.direct reads) lx hlx
    | none =>
      -- Whatever comes to a node without a level goes on to what that node reads.
      refine (reach_le_iff hlx).mpr fun w hw through lw hlw => ?_
      have further := through.through hx hlx reads
      cases hly : r.level? y with
      | some ly =>
        rw [reach_of_level hly]
        exact upward w hw y hy lw ly hlw hly further
      | none => exact (reach_le_iff hly).mp le_rfl w hw further lw hlw
  · rintro ⟨reach, graded⟩ x hx y hy lx ly hlx hly reads
    have low : ∀ y ∈ r.body, r.ReadsThrough x y → reach x ≤ reach y := by
      intro y hy reads
      induction reads with
      | direct reads => exact graded.mono x hx _ hy reads
      | through _ hz _ reads ih => exact (ih hz).trans (graded.mono _ hz _ hy reads)
    rw [← graded.level x hx lx hlx, ← graded.level y hy ly hly]
    exact low y hy reads

end Reads

section Last

variable {r : Region} {level : Nat} {m n : NodeId}

theorem Region.LastAt.leveled (h : r.LastAt level n) : n ∈ r.body ∧ r.level? n = some level := by
  obtain ⟨todo, members⟩ := List.getLast?_eq_some_iff.mp h
  exact anchor_of_members members

theorem Region.LastAt.before (h : r.LastAt level n) (hm : m ∈ r.body)
    (hl : r.level? m = some level) : m = n ∨ Before r.body m n := by
  obtain ⟨todo, members⟩ := List.getLast?_eq_some_iff.mp h
  have mem : m ∈ todo ++ [n] := members ▸ List.mem_filter.mpr ⟨hm, by simpa using hl⟩
  refine (List.mem_append.mp mem).symm.imp List.mem_singleton.mp fun hm => ?_
  have here : Before (todo ++ [n]) m n := before_append.mpr (Or.inr (Or.inl ⟨hm, by simp⟩))
  exact here.sublist (members ▸ List.filter_sublist)

theorem Region.exists_lastAt (hm : m ∈ r.body) (hl : r.level? m = some level) :
    ∃ n, r.LastAt level n := by
  have mem : m ∈ r.body.filter fun m => r.level? m = some level :=
    List.mem_filter.mpr ⟨hm, by simpa using hl⟩
  exact ⟨_, List.getLast?_eq_some_getLast (List.ne_nil_of_mem mem)⟩

/-- Where the levels end in descending order, every node stands in front of the last one of any
lower level. -/
theorem Region.LastAt.ahead (nodup : r.body.Nodup) (ends : r.EndsDescend) (h : r.LastAt level n)
    (hm : m ∈ r.body) {higher : Nat} (hl : r.level? m = some higher) (low : level < higher) :
    Before r.body m n := by
  obtain ⟨last, hlast⟩ := exists_lastAt hm hl
  have behind := ends higher level last n hlast h low
  rcases hlast.before hm hl with rfl | before
  · exact behind
  · exact before.trans nodup behind

end Last

/-- Levels that end in descending order and are read upward are brought together without any other
change to the order of their nodes. The definitions stay in front of their uses, and doing it again
changes nothing. -/
theorem Region.gather_grouped {r : Region} (sound : r.Sound) (ends : r.EndsDescend)
    (upward : r.ReadsUpward) :
    ∃ s moved again, r.gather = some (s, moved) ∧ s = { r with body := s.body } ∧
      r.Grouped s.body ∧ s.Scoped s.args s.body ∧ s.gather = some (s, again) := by
  obtain ⟨reach, graded⟩ := readsUpward_iff.mp upward
  obtain ⟨body, moved, hgather, gathered, packed⟩ := sound.gather_packed graded
    fun y hy z hz ly lz hly hlz low => by
      obtain ⟨last, hlast⟩ := exists_lastAt hz hlz
      exact ⟨last, hlast.ahead sound.bodyNodup ends hy hly low, hlast.leveled.2⟩
  have same := r.sameNodes_withBody body
  have inScope := sound.scoped_of_sameNodes same gathered.perm gathered.ordered
  obtain ⟨again, regather⟩ := sound.regather graded same rfl gathered packed
  refine ⟨{ r with body := body }, moved, again, hgather, rfl,
    ⟨gathered.perm, ?_, gathered.members_eq sound, ?_⟩, inScope, regather⟩
  · refine List.pairwise_filterMap.mpr (pairwise_iff_before.mpr fun x y hb lx hlx ly hly => ?_)
    exact gathered.sorted x y lx ly hb hlx hly
  · intro level n h m hm higher hl low
    have start := h.ahead sound.bodyNodup ends hm hl low
    have either := before_total (gathered.perm.mem_iff.mpr hm)
      (gathered.perm.mem_iff.mpr h.leveled.1) (start.ne sound.bodyNodup)
    refine ⟨start, either.resolve_right fun back => ?_⟩
    have := gathered.sorted n m level higher back h.leveled.2 hl
    omega

/-- A source text with levels that overlap, and with nodes without a level that read from them. -/
def overlappingLevelsSource : String :=
  "func @k(%m: memref<4xf32>) \x7b
    %a = op \"x\"(%m) : memref<4xf32> \x7bdataflow_level = 2\x7d
    %b = op \"x\"(%m) : memref<4xf32> \x7bdataflow_level = 1\x7d
    %t = to_tensor %a : tensor<4xf32>
    %u = to_tensor %b : tensor<4xf32>
    %c = op \"x\"(%a) : memref<4xf32> \x7bdataflow_level = 2\x7d
    op \"x\"(%t, %u) \x7bdataflow_level = 1\x7d
    return %u
  \x7d"

/-- A measure of the nodes of that text. -/
def overlappingReach (n : NodeId) : Nat :=
  [2, 1, 2, 1, 2, 1, 0].getD n.index 0

theorem Region.gather_grouped_overlapping : ∃ loaded r s moved again,
    load overlappingLevelsSource = .ok loaded ∧ r ∈ loaded.regions ∧ r.EndsDescend ∧
      r.ReadsUpward ∧ r.gather = some (s, moved) ∧ s.body.map NodeId.index = [0, 2, 4, 1, 3, 5, 6] ∧
      s = { r with body := s.body } ∧ r.Grouped s.body ∧ s.Scoped s.args s.body ∧
      s.gather = some (s, again) := by
  obtain ⟨loaded, hload, found⟩ := @exists_of_anyLoaded overlappingLevelsSource _ (by rfl)
    (fun regions => regions.any fun r =>
      (r.body.all fun x => r.body.all fun y => (r.level? x).all fun higher =>
        (r.level? y).all fun lower => decide (r.LastAt higher x → r.LastAt lower y →
          lower < higher → Before r.body x y)) &&
      (r.body.all fun n => (r.level? n).all (overlappingReach n == ·)) &&
      (r.body.all fun x => r.body.all fun y => decide ((∃ n ∈ r.walk x, ∃ v ∈ r.operands n,
        v ∈ r.results y) → overlappingReach x ≤ overlappingReach y)) &&
      decide (r.gather.map (fun state => state.1.body.map NodeId.index) =
        some [0, 2, 4, 1, 3, 5, 6])) (by decide +kernel)
  obtain ⟨r, hr, found⟩ := List.any_eq_true.mp found
  simp only [Bool.and_eq_true, List.all_eq_true, Option.all_eq_true, decide_eq_true_eq,
    beq_iff_eq] at found
  obtain ⟨⟨⟨ends, level⟩, mono⟩, body⟩ := found
  have wf := load_wellFormed hload r hr
  have ends : r.EndsDescend := fun higher lower x y hx hy low =>
    ends x hx.leveled.1 y hy.leveled.1 higher hx.leveled.2 lower hy.leveled.2 hx hy low
  have upward : r.ReadsUpward := by
    refine readsUpward_iff.mpr ⟨overlappingReach, level, fun x hx y hy reads => mono x hx y hy ?_⟩
    obtain ⟨v, ⟨n, hn, hv⟩, results⟩ := reads
    exact ⟨n, (wf.mem_walk (wf.bodyKnown x hx)).mpr hn, v, hv, results⟩
  obtain ⟨s, moved, again, hgather, same, grouped, inScope, regather⟩ :=
    gather_grouped wf.sound ends upward
  refine ⟨loaded, r, s, moved, again, hload, hr, ends, upward, hgather, ?_, same, grouped, inScope,
    regather⟩
  simpa [hgather] using body

end Staging
