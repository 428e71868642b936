import Staging.Proofs.Latest
import Staging.Proofs.Lowered
import Staging.Proofs.Planning

namespace Staging

/-- The level of a node, or 0 where it has none. -/
def Levels.at (levels : Levels) (n : NodeId) : Nat :=
  (levels.get? n).getD 0

/-- What a node computes comes to a scheduled node of the body, which reads it directly or by
way of nodes that are not scheduled. -/
inductive Region.Supplies (r : Region) : NodeId → NodeId → Prop
  | direct {n m : NodeId} (here : m ∈ r.body) (flow : r.isDataflow m = true)
      (reads : r.ReadsFrom m n) : Supplies r n m
  | through {n x m : NodeId} (here : x ∈ r.body) (idle : r.isDataflow x = false)
      (reads : r.ReadsFrom x n) (rest : Supplies r x m) : Supplies r n m

/-- The edges join scheduled nodes of the body and lead to later ones. -/
def DepGraph.Forward (g : DepGraph) (r : Region) : Prop :=
  ∀ p, ∀ e ∈ g.from p, r.isDataflow p = true ∧ r.isDataflow e.consumer = true ∧
    Before r.body p e.consumer

/-- Levels that a schedule may give to the scheduled nodes: they go down along the edges, and
are nowhere lower than where the results of a node come to. -/
structure Region.Admits (r : Region) (g : DepGraph) (level : NodeId → Nat) : Prop where
  positive : ∀ n ∈ r.body, r.isDataflow n = true → 1 ≤ level n
  drops : ∀ p, ∀ e ∈ g.from p, level e.consumer + 1 ≤ level p
  covers : ∀ n ∈ r.body, r.isDataflow n = true → ∀ m, r.Supplies n m → level m ≤ level n

section Deferring

variable {r : Region} {g : DepGraph} {a : Ascent} {levels : Levels} {n m : NodeId}
  {level : NodeId → Nat}

theorem Region.Supplies.target (h : r.Supplies n m) : m ∈ r.body ∧ r.isDataflow m = true := by
  induction h with
  | direct here flow _ => exact ⟨here, flow⟩
  | through _ _ _ _ ih => exact ih

/-- What reads may not go up along reads one by one does not go up along them together. -/
theorem Region.Supplies.le {reach : NodeId → Nat}
    (reads : ∀ x ∈ r.body, ∀ y ∈ r.body, r.ReadsFrom x y → reach x ≤ reach y)
    (h : r.Supplies n m) (hn : n ∈ r.body) : reach m ≤ reach n := by
  induction h with
  | direct here _ h => exact reads _ here _ hn h
  | through here _ h _ ih => exact (ih here).trans (reads _ here _ hn h)

theorem Ascent.Settled.at_eq (h : a.Settled r g r.body) (hn : n ∈ r.body)
    (flow : r.isDataflow n = true) : a.levels.at n = a.reach n := by
  obtain ⟨l, hl⟩ := Option.isSome_iff_exists.mp ((h.leveled n).mpr ⟨hn, flow⟩)
  rw [(h.reach_eq hl).2, Levels.at, hl, Option.getD_some]

/-- The levels at the end of a walk up the body make a schedule. -/
theorem Ascent.Settled.admits (h : a.Settled r g r.body) (forward : g.Forward r) :
    r.Admits g a.levels.at := by
  constructor
  · intro n hn flow
    obtain ⟨l, hl⟩ := Option.isSome_iff_exists.mp ((h.leveled n).mpr ⟨hn, flow⟩)
    have pos := h.positive n l hl
    rwa [Levels.at, hl, Option.getD_some]
  · intro p e he
    obtain ⟨flow, _, order⟩ := forward p e he
    obtain ⟨l, hl⟩ := Option.isSome_iff_exists.mp ((h.leveled p).mpr ⟨order.mem_left, flow⟩)
    obtain ⟨lower, hlower, lt, _⟩ := h.edges p l hl e he
    rw [Levels.at, Levels.at, hl, hlower, Option.getD_some, Option.getD_some]
    omega
  · intro n hn flow m supplies
    obtain ⟨hm, flow'⟩ := supplies.target
    rw [h.at_eq hn flow, h.at_eq hm flow']
    exact supplies.le h.reads hn

/-- A node reaches nothing, or a schedule puts something as high as it reaches: the node itself, or
another one that its results come to. -/
def Ascent.Backed (a : Ascent) (r : Region) (level : NodeId → Nat) (n : NodeId) : Prop :=
  a.reach n = 0 ∨
    ∃ m ∈ r.body, r.isDataflow m = true ∧ (m = n ∨ r.Supplies n m) ∧ a.reach n ≤ level m

theorem Ascent.Backed.le (backed : a.Backed r level n) (admits : r.Admits g level)
    (hn : n ∈ r.body) (flow : r.isDataflow n = true) : a.reach n ≤ level n := by
  rcases backed with zero | ⟨m, _, _, rfl | supplies, le⟩
  · rw [zero]
    exact Nat.zero_le _
  · exact le
  · exact le.trans (admits.covers n hn flow m supplies)

theorem Ascent.Backed.of_low (admits : r.Admits g level) (hn : n ∈ r.body)
    (low : a.reach n ≤ (r.isDataflow n).toNat) : a.Backed r level n := by
  cases flow : r.isDataflow n with
  | true =>
    rw [flow] at low
    exact .inr ⟨n, hn, flow, .inl rfl, low.trans (admits.positive n hn flow)⟩
  | false =>
    rw [flow] at low
    exact .inl (Nat.le_zero.mp low)

theorem Ascent.Backed.of_reader (backed : a.Backed r level m) (admits : r.Admits g level)
    (hm : m ∈ r.body) (reads : r.ReadsFrom m n) (same : a.reach n = a.reach m) :
    a.Backed r level n := by
  cases flow : r.isDataflow m with
  | true =>
    refine .inr ⟨m, hm, flow, .inr (.direct hm flow reads), ?_⟩
    rw [same]
    exact backed.le admits hm flow
  | false =>
    rcases backed with zero | ⟨x, hx, flow', rfl | supplies, le⟩
    · exact .inl (same.trans zero)
    · simp [flow] at flow'
    · exact .inr ⟨x, hx, flow', .inr (.through hm flow reads supplies), same ▸ le⟩

theorem Ascent.Tight.backed (tight : a.Tight r g r.body) (ordered : r.Ordered)
    (forward : g.Forward r) (admits : r.Admits g level) (hn : n ∈ r.body) :
    a.Backed r level n := by
  -- What makes a node reach as far as it does stands behind it.
  have main : ∀ behind earlier, r.body = earlier ++ behind → ∀ n ∈ behind,
      a.Backed r level n := by
    intro behind
    induction behind with
    | nil => simp
    | cons k behind ih =>
      intro earlier hb n hn
      have later := ih (earlier ++ [k]) (by simpa using hb)
      rcases List.mem_cons.mp hn with rfl | hn
      case inr => exact later n hn
      have here : n ∈ r.body := hb ▸ by simp
      rcases tight n here with low | ⟨e, he, _, top⟩ | ⟨x, hx, reads, same⟩
      · exact .of_low admits here low
      · obtain ⟨flow, flow', order⟩ := forward n e he
        have le := (later e.consumer (order.mem_behind ordered.bodyNodup hb)).le admits
          order.mem_right flow'
        have drops := admits.drops n e he
        exact .inr ⟨n, here, flow, .inl rfl, by omega⟩
      · have order := ordered.before x hx n here reads
        exact (later x (order.mem_behind ordered.bodyNodup hb)).of_reader admits hx reads same
  exact main r.body [] rfl n hn

theorem Region.Schedule.exists_at (schedule : r.Schedule levels.get?)
    (ordered : r.Ordered) (nodup : (levels.entries.map Prod.fst).Nodup) {l : Nat} (pos : 1 ≤ l)
    (low : l ≤ levels.max) : ∃ n ∈ r.body, levels.get? n = some l := by
  have top : levels.max ∈ levels.entries.map Prod.snd := by
    refine maxOf_mem.resolve_left fun zero => ?_
    unfold Levels.max at low
    omega
  obtain ⟨⟨n, upper⟩, entry, same⟩ := List.mem_map.mp top
  have hn : levels.get? n = some upper := Table.get?_of_mem nodup entry
  dsimp only at same
  rcases Nat.lt_or_ge l upper with below | above
  · obtain ⟨x, order, hx⟩ := schedule.descends_to ordered.bodyNodup hn pos below
    exact ⟨x, order.mem_right, hx⟩
  · have same' : l = upper := by omega
    have here := ((schedule.leveled n).mp (by simp [hn])).1
    exact ⟨n, here, same' ▸ hn⟩

theorem Region.levels_perm (ordered : r.Ordered) (h : r.levels g = .ok levels) :
    (levels.entries.map Prod.fst).Perm (r.body.filter r.isDataflow) := by
  have schedule := (levels_spec ordered h).1
  refine (List.perm_ext_iff_of_nodup (levels_nodup h) (ordered.bodyNodup.filter _)).mpr fun n => ?_
  rw [List.mem_filter, ← schedule.leveled n]
  constructor
  · intro hn
    obtain ⟨l, hl⟩ := Table.get?_of_mem_keys hn
    exact Option.isSome_iff_exists.mpr ⟨l, hl⟩
  · intro hn
    obtain ⟨l, hl⟩ := Option.isSome_iff_exists.mp hn
    exact List.mem_map_of_mem (Table.mem_of_get? hl)

/-- The levels put each scheduled node off as long as possible: they make a schedule, and none
gives any node a lower level. No level is left out. -/
theorem Region.levels_deferred (ordered : r.Ordered) (forward : g.Forward r) :
    ∃ levels, r.levels g = .ok levels ∧
      (levels.entries.map Prod.fst).Perm (r.body.filter r.isDataflow) ∧
      r.Admits g levels.at ∧
      (∀ level, r.Admits g level → ∀ n ∈ r.body, r.isDataflow n = true →
        levels.at n ≤ level n) ∧
      ∀ l, 1 ≤ l → l ≤ levels.max → ∃ n ∈ r.body, levels.get? n = some l := by
  obtain ⟨levels, hl⟩ := ordered.exists_levels fun p e he => (forward p e he).2
  obtain ⟨a, rfl, settled, tight⟩ := ordered.exists_ascent hl
  refine ⟨a.levels, hl, levels_perm ordered hl, settled.admits forward, ?_, ?_⟩
  · intro level admits n hn flow
    rw [settled.at_eq hn flow]
    exact (tight.backed ordered forward admits hn).le admits hn flow
  · intro l pos low
    exact (levels_spec ordered hl).1.exists_at ordered (levels_nodup hl) pos low

end Deferring

/-- A source text in which a reader behind a conversion raises a producer. -/
def convertedSource : String :=
  "func @deep(%in: memref<4xf32>) \x7b
    %a = op \"x\"(%in) : memref<4xf32>
    %t = to_tensor %a : tensor<4xf32>
    %b = op \"y\"(%in, %t) : memref<4xf32>
    %c = op \"w\"(%b) : memref<4xf32>
    op \"z\"(%a, %c)
  \x7d"

theorem Region.levels_deferred_converted : ∃ loaded r levels,
    load convertedSource = .ok loaded ∧ r ∈ loaded.regions ∧ r.Ordered ∧ r.deps.Forward r ∧
      r.levels r.deps = .ok levels ∧ r.body.map levels.at = [3, 0, 3, 2, 1] ∧
      ∀ level, r.Admits r.deps level → ∀ n ∈ r.body, r.isDataflow n = true →
        levels.at n ≤ level n := by
  obtain ⟨loaded, hload, found⟩ := @exists_of_anyLoaded convertedSource _ (by rfl)
    (fun regions => regions.any fun r =>
      decide ((r.levels r.deps).toOption.map (r.body.map ·.at) = some [3, 0, 3, 2, 1]))
    (by decide +kernel)
  obtain ⟨r, hr, found⟩ := List.any_eq_true.mp found
  obtain ⟨levels, hl, body⟩ := Option.map_eq_some_iff.mp (of_decide_eq_true found)
  have wf := load_wellFormed hload r hr
  have leveled : r.levels r.deps = .ok levels := by
    cases h : r.levels r.deps with
    | error => simp [h, Except.toOption] at hl
    | ok found => simpa [h, Except.toOption] using hl
  have forward : r.deps.Forward r := by
    intro p e he
    have feeds := wf.mem_from.mp he
    obtain ⟨_, _, _, _, _, order⟩ := wf.drops leveled feeds
    exact ⟨feeds.isDataflow_left, feeds.isDataflow_right, order⟩
  obtain ⟨levels', leveled', _, _, least, _⟩ := levels_deferred wf.ordered forward
  obtain rfl : levels' = levels := Except.ok.inj (leveled'.symm.trans leveled)
  exact ⟨loaded, r, levels', hload, hr, wf.ordered, forward, leveled, body, least⟩

end Staging
