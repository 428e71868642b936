import Staging.Proofs.Surviving

namespace Staging

/-- Two nodes of the body access the same buffer, and at least one of the two accesses writes. -/
def Region.Conflicts (r : Region) (a b : NodeId) : Prop :=
  ∃ mem found found' x y, (mem, found) ∈ r.accesses a ∧ x ∈ found ∧
    (mem, found') ∈ r.accesses b ∧ y ∈ found' ∧ (x.kind = .write ∨ y.kind = .write)

theorem Region.any_conflict_iff {r : Region} {a b : NodeId} :
    ((r.accesses a).any fun entry => (r.accesses b).any fun entry' => entry.1 = entry'.1 &&
      entry.2.any fun x => entry'.2.any fun y => x.kind = .write || y.kind = .write) = true ↔
      r.Conflicts a b := by
  simp only [List.any_eq_true, Bool.and_eq_true, Bool.or_eq_true, decide_eq_true_eq]
  constructor
  · rintro ⟨⟨mem, found⟩, hfound, ⟨mem', found'⟩, hfound', rfl, x, hx, y, hy, writes⟩
    exact ⟨mem, found, found', x, y, hfound, hx, hfound', hy, writes⟩
  · rintro ⟨mem, found, found', x, y, hfound, hx, hfound', hy, writes⟩
    exact ⟨(mem, found), hfound, (mem, found'), hfound', rfl, x, hx, y, hy, writes⟩

instance (r : Region) (a b : NodeId) : Decidable (r.Conflicts a b) :=
  decidable_of_iff _ Region.any_conflict_iff

/-- The conflicts that are found to be dependences. -/
inductive Region.Tracked (r : Region) (a b : NodeId) : Prop
  /-- A loop writes what another loop only reads. -/
  | loopLoop {mem : ValueId} (loopA : r.isLoop a = true) (writes : r.Touches a mem .write)
      (loopB : r.isLoop b = true) (reads : r.Touches b mem .read)
      (keeps : ¬ r.Touches b mem .write) : Tracked r a b
  /-- A loop writes what an array copy copies. -/
  | loopCopy {mem : ValueId} (loopA : r.isLoop a = true) (writes : r.Touches a mem .write)
      (copies : r.copiesOut mem b = true) : Tracked r a b
  /-- An array copy fills what a node accesses in any way. -/
  | copy {mem : ValueId} {kind : AccessKind} (target : r.copyTarget? a = some mem)
      (touches : r.Touches b mem kind) : Tracked r a b

/-- A node of the body has to come before another one: there is an edge between them, or the
other one reads its results. -/
def Region.Leads (r : Region) (a b : NodeId) : Prop :=
  r.HasEdge a b ∨ (a ∈ r.body ∧ b ∈ r.body ∧ r.ReadsFrom b a)

section Touches

variable {r : Region} {a b t : NodeId}

theorem Region.Touches.isDataflow {mem : ValueId} {kind : AccessKind}
    (h : r.Touches t mem kind) : r.isDataflow t = true := by
  obtain ⟨n, hn, access⟩ := h
  rcases within_iff.mp hn with rfl | ⟨c, child, _⟩
  · unfold touched at access
    unfold isDataflow
    rcases hk : r.kind? n with _ | kind
    · simp [hk] at access
    · cases kind <;> simp [hk, NodeKind.isDataflow] at access ⊢
  · exact isDataflow_of_isLoop (isLoop_of_child child)

theorem Region.Nested.exists_touches {r : Region} (nested : r.Nested) (ht : t ∈ r.body)
    {mem : ValueId} {found : List Access} {x : Access} (h : (mem, found) ∈ r.accesses t)
    (hx : x ∈ found) : r.Touches t mem x.kind := by
  obtain ⟨hw, access⟩ := (mem_accesses nested (nested.bodyKnown t ht)).mp ⟨found, h, hx⟩
  exact ⟨x.node, hw, access⟩

theorem Region.Nested.isDataflow_of_conflicts (nested : r.Nested) (ha : a ∈ r.body)
    (hb : b ∈ r.body) (h : r.Conflicts a b) : r.isDataflow a = true ∧ r.isDataflow b = true := by
  obtain ⟨mem, found, found', x, y, hfound, hx, hfound', hy, _⟩ := h
  exact ⟨(nested.exists_touches ha hfound hx).isDataflow,
    (nested.exists_touches hb hfound' hy).isDataflow⟩

/-- A conflict that counts as a dependence is an edge where the nodes stand in order. -/
theorem Region.Nested.hasEdge_of_tracked (nested : r.Nested) (order : Before r.body a b)
    (h : r.Tracked a b) : r.HasEdge a b := by
  rw [nested.hasEdge_iff]
  cases h with
  | loopLoop loopA writes loopB reads keeps =>
    exact ⟨_, .loop order.mem_left order.mem_right loopA loopB (order.ne nested.bodyNodup).symm
      writes reads keeps⟩
  | loopCopy loopA writes copies => exact ⟨_, .copyOut loopA writes copies order⟩
  | copy target touches => exact ⟨_, .copyIn target touches.isDataflow touches.mentions order⟩

end Touches

section Sound

variable {r : Region} {o : Options} {plan : Plan} {a b : NodeId} {upper lower : Nat}

theorem Plan.Sound.lt_of_hasEdge (h : Plan.Sound r o plan) (nested : r.Nested)
    (edge : r.HasEdge a b) (hu : plan.levels.get? a = some upper)
    (hl : plan.levels.get? b = some lower) : lower < upper ∧ Before r.body a b := by
  obtain ⟨carrier, feeds⟩ := nested.hasEdge_iff.mp edge
  obtain ⟨upper', lower', hu', hl', hlt, order⟩ := h.drops a carrier b feeds
  cases hu.symm.trans hu'
  cases hl.symm.trans hl'
  exact ⟨hlt, order⟩

theorem Plan.Sound.le_of_leads (h : Plan.Sound r o plan) (nested : r.Nested)
    (path : Relation.TransGen r.Leads a b) (hu : plan.levels.get? a = some upper)
    (hl : plan.levels.get? b = some lower) : lower ≤ upper := by
  obtain ⟨reach, level, mono⟩ := h.schedule.reach
  have step : ∀ {x y}, r.Leads x y → reach y ≤ reach x := by
    intro x y leads
    rcases leads with edge | ⟨hx, hy, reads⟩
    · obtain ⟨carrier, feeds⟩ := nested.hasEdge_iff.mp edge
      obtain ⟨_, _, hx, hy, hlt, _⟩ := h.drops x carrier y feeds
      rw [level x _ hx, level y _ hy]
      exact hlt.le
    · exact mono y hy x hx reads
  have falls : ∀ {y}, Relation.TransGen r.Leads a y → reach y ≤ reach a := by
    intro y path
    induction path with
    | single leads => exact step leads
    | tail _ leads ih => exact (step leads).trans ih
  rw [← level a _ hu, ← level b _ hl]
  exact falls path

/-- Where a plan was found, no loop that only reads a buffer stands before one that writes it. -/
theorem Plan.Sound.no_late_writer (h : Plan.Sound r o plan) (nested : r.Nested)
    (order : Before r.body a b) {mem : ValueId} (loopA : r.isLoop a = true)
    (reads : r.Touches a mem .read) (keeps : ¬ r.Touches a mem .write)
    (loopB : r.isLoop b = true) : ¬ r.Touches b mem .write := by
  intro writes
  obtain ⟨_, _, _, _, _, back⟩ := h.drops b _ a (.loop order.mem_right order.mem_left loopB loopA
    (order.ne nested.bodyNodup) writes reads keeps)
  exact order.asymm nested.bodyNodup back

end Sound

/-- Two nodes of the body whose accesses conflict keep their order just where the first one is
not planned below the second. That is so for all conflicts that count as dependences and wherever
one node leads to the other. -/
theorem legalize_order_iff {r out : Region} {o : Options} {report : Report}
    (reachable : r.Reachable) (h : r.legalize o = .ok (report, out)) :
    ∃ plan, r.plan o = .ok plan ∧ ∀ a b, Before r.body a b → r.Conflicts a b →
      ∃ upper lower, plan.levels.get? a = some upper ∧ plan.levels.get? b = some lower ∧
        (Before out.body a b ↔ lower ≤ upper) ∧
        (r.Tracked a b → Before out.body a b ∧ lower < upper) ∧
        (Relation.TransGen r.Leads a b → Before out.body a b) ∧
        ∀ mem, r.isLoop a = true → r.Touches a mem .read → ¬ r.Touches a mem .write →
          r.isLoop b = true → ¬ r.Touches b mem .write := by
  have wf := reachable.wellFormed
  obtain ⟨plan, built, s, hplan, _, legal⟩ := wf.legalize h
  have sound := legal.threaded.sound
  refine ⟨plan, hplan, fun a b order conflict => ?_⟩
  obtain ⟨flowA, flowB⟩ := wf.isDataflow_of_conflicts order.mem_left order.mem_right conflict
  obtain ⟨upper, hu⟩ := legal.planned_level order.mem_left flowA
  obtain ⟨lower, hl⟩ := legal.planned_level order.mem_right flowB
  have stays : Before out.body a b ↔ lower ≤ upper := by
    rw [legal.before_old_iff order.mem_left order.mem_right hu hl, Nat.le_iff_lt_or_eq]
    exact or_congr_right (and_iff_left order)
  refine ⟨upper, lower, hu, hl, stays, fun tracked => ?_, fun path => ?_, fun mem => ?_⟩
  · have falls := (sound.lt_of_hasEdge wf.toNested (wf.hasEdge_of_tracked order tracked) hu hl).1
    exact ⟨stays.mpr falls.le, falls⟩
  · exact stays.mpr (sound.le_of_leads wf.toNested path hu hl)
  · exact fun loopA reads keeps loopB => sound.no_late_writer wf.toNested order loopA reads keeps
      loopB

/-- A source text in which a buffer is filled and then read. The value read is needed one stage
before the last. -/
def overtakenSource : String :=
  "func @k(%v: i1, %m: memref<1xi1>) \x7b
    store %v, %m
    %x = load %m : i1
    %t = op \"x\"(%x) : tensor<1xi1>
    op \"x\"(%t)
  \x7d"

/-- The order of a conflict can be lost: the load comes to stand before the store. -/
theorem legalize_reverses_conflict : ∃ loaded r report out,
    load overtakenSource = .ok loaded ∧ r ∈ loaded.regions ∧
      r.legalize ⟨true, 1⟩ = .ok (report, out) ∧ Before r.body ⟨0⟩ ⟨1⟩ ∧ r.Conflicts ⟨0⟩ ⟨1⟩ ∧
      Before out.body ⟨1⟩ ⟨0⟩ ∧ ¬ Before out.body ⟨0⟩ ⟨1⟩ := by
  obtain ⟨loaded, hload, r, hr, report, out, hlegal, test⟩ :=
    @exists_of_anyLegalized overtakenSource _ (by rfl) ⟨true, 1⟩
      (fun r out => r.body = [⟨0⟩, ⟨1⟩, ⟨2⟩, ⟨3⟩] && r.Conflicts ⟨0⟩ ⟨1⟩ &&
        out.body = [⟨1⟩, ⟨2⟩, ⟨0⟩, ⟨3⟩]) (by decide +kernel)
  simp only [Bool.and_eq_true, decide_eq_true_eq] at test
  obtain ⟨⟨before, conflict⟩, after⟩ := test
  refine ⟨loaded, r, report, out, hload, hr, hlegal, ?_, conflict, ?_, ?_⟩
  · rw [before]
    exact before_iff_append.mpr ⟨[], _, rfl, by simp⟩
  · rw [after]
    exact before_iff_append.mpr ⟨[], _, rfl, by simp⟩
  · rw [after]
    simp [before_cons, before_nil]

theorem legalize_order_iff_overtaken : ∃ loaded r report out plan,
    load overtakenSource = .ok loaded ∧ r ∈ loaded.regions ∧
      r.legalize ⟨true, 1⟩ = .ok (report, out) ∧ r.Conflicts ⟨0⟩ ⟨1⟩ ∧
      r.plan ⟨true, 1⟩ = .ok plan ∧ ∀ a b, Before r.body a b → r.Conflicts a b →
        ∃ upper lower, plan.levels.get? a = some upper ∧ plan.levels.get? b = some lower ∧
          (Before out.body a b ↔ lower ≤ upper) ∧
          (r.Tracked a b → Before out.body a b ∧ lower < upper) ∧
          (Relation.TransGen r.Leads a b → Before out.body a b) ∧
          ∀ mem, r.isLoop a = true → r.Touches a mem .read → ¬ r.Touches a mem .write →
            r.isLoop b = true → ¬ r.Touches b mem .write := by
  obtain ⟨loaded, hload, r, hr, report, out, hlegal, test⟩ :=
    @exists_of_anyLegalized overtakenSource _ (by rfl) ⟨true, 1⟩
      (fun r _ => r.Conflicts ⟨0⟩ ⟨1⟩) (by decide +kernel)
  obtain ⟨plan, hplan, order⟩ := legalize_order_iff (.load hload hr) hlegal
  exact ⟨loaded, r, report, out, plan, hload, hr, hlegal, of_decide_eq_true test, hplan, order⟩

end Staging
