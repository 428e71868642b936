import Staging.Legalize
import Staging.Proofs.Schedule

namespace Staging

/-- The edges from a node that skip stages, where its level is not below the lowest. -/
def Levels.skips (levels : Levels) (g : DepGraph) (n : NodeId) : List Bypass :=
  match levels.get? n with
  | some (upper + 1) => levels.skipping n upper (g.from n)
  | _ => []

/-- The chain of copies that carries an edge. -/
def Region.chainOf (r : Region) (b : Bypass) : CopyChain :=
  ⟨b.producer, b.carrier, b.consumer, b.copyLevels?.getD [], r.isMemref b.carrier.id⟩

/-- What is planned about some edges that skip stages. -/
structure Bypasses.Planned (r : Region) (o : Options) (skips : List Bypass) (b : Bypasses) :
    Prop where
  edges : b.edges = skips
  chains : b.chains = if o.insertCopy then skips.map r.chainOf else []
  merges : b.merges =
    if o.insertCopy then [] else skips.foldl (fun found e => addMerge e.lower e.upper found) []

theorem Bypasses.Planned.add {r : Region} {o : Options} {edges : List Bypass} {b b' : Bypasses}
    {bypass : Bypass} (h : b.Planned r o edges) (step : b.add r o bypass = .ok b') :
    b'.Planned r o (edges ++ [bypass]) := by
  unfold Bypasses.add at step
  by_cases hc : o.insertCopy = true
  · simp only [hc, if_true] at step
    cases hv : r.value? bypass.carrier.id with
    | none => simp [hv, orFault, bind, Except.bind] at step
    | some value =>
      simp only [hv, orFault, bind, Except.bind] at step
      split at step
      next => simp [throw, throwThe, MonadExceptOf.throw] at step
      next =>
        cases hl : bypass.copyLevels? with
        | none => simp [hl] at step
        | some levels =>
          simp only [hl, pure, Except.pure, Except.ok.injEq] at step
          subst step
          constructor
          · simp [h.edges]
          · simp [h.chains, hc, Region.chainOf, hl, Region.isMemref, hv]
          · simp [h.merges, hc]
  · simp only [hc, Bool.false_eq_true, if_false, pure, Except.pure, Except.ok.injEq] at step
    subst step
    constructor
    · simp [recordMerge, h.edges]
    · simp [recordMerge, h.chains, hc]
    · simp [recordMerge, h.merges, hc, List.foldl_append]

theorem Bypasses.Planned.addAll {r : Region} {o : Options} {edges found : List Bypass}
    {b b' : Bypasses} (h : b.Planned r o edges)
    (step : found.foldlM (Bypasses.add r o) b = .ok b') : b'.Planned r o (edges ++ found) := by
  induction found generalizing edges b with
  | nil =>
    cases step
    simpa using h
  | cons bypass found ih =>
    rw [List.foldlM_cons] at step
    cases hb : b.add r o bypass with
    | error => simp [hb, bind, Except.bind] at step
    | ok next =>
      simp only [hb, bind, Except.bind] at step
      simpa using ih (h.add hb) step

theorem Levels.skips_of_skippingFrom {levels : Levels} {g : DepGraph} {n : NodeId}
    {found : List Bypass} (h : levels.skippingFrom g n = .ok found) :
    found = levels.skips g n := by
  unfold skippingFrom at h
  unfold skips
  split at h <;> simp_all

/-- Steps that fail do so at one of them. -/
theorem exists_of_foldlM_error {α β ε : Type} {f : β → α → Except ε β} {l : List α} {b : β}
    {e : ε} (h : l.foldlM f b = .error e) : ∃ a ∈ l, ∃ b, f b a = .error e := by
  induction l generalizing b with
  | nil => cases h
  | cons a l ih =>
    rw [List.foldlM_cons] at h
    cases hf : f b a with
    | error e' =>
      rw [hf] at h
      cases h
      exact ⟨a, by simp, b, hf⟩
    | ok next =>
      rw [hf] at h
      obtain ⟨a', ha', found⟩ := ih h
      exact ⟨a', by simp [ha'], found⟩

theorem Bypasses.Planned.addFrom {r : Region} {g : DepGraph} {levels : Levels} {o : Options}
    {edges : List Bypass} {ns : List NodeId} {b b' : Bypasses} (h : b.Planned r o edges)
    (step : ns.foldlM (fun b n => do
      let found ← levels.skippingFrom g n
      found.foldlM (Bypasses.add r o) b) b = .ok b') :
    b'.Planned r o (edges ++ ns.flatMap (levels.skips g)) := by
  induction ns generalizing edges b with
  | nil =>
    cases step
    simpa using h
  | cons n ns ih =>
    rw [List.foldlM_cons] at step
    cases hf : levels.skippingFrom g n with
    | error => simp [hf, bind, Except.bind] at step
    | ok found =>
      cases hadd : found.foldlM (Bypasses.add r o) b with
      | error => simp [hf, hadd, bind, Except.bind] at step
      | ok next =>
        simp only [hf, hadd, bind, Except.bind] at step
        have rest := ih (h.addAll hadd) step
        rwa [Levels.skips_of_skippingFrom hf, List.append_assoc] at rest

/-- A plan is about all edges that skip stages, producers last to first. -/
theorem Region.bypasses_planned {r : Region} {g : DepGraph} {levels : Levels} {o : Options}
    {b : Bypasses} (h : r.bypasses g levels o = .ok b) :
    b.Planned r o (r.body.reverse.flatMap (levels.skips g)) := by
  have start : Bypasses.empty.Planned r o [] := by
    constructor <;> simp [Bypasses.empty]
  simpa using start.addFrom h

theorem Levels.mem_skips {levels : Levels} {g : DepGraph} {n : NodeId} {b : Bypass} :
    b ∈ levels.skips g n ↔ b.producer = n ∧ levels.get? n = some (b.upper + 1) ∧
      (⟨b.carrier, b.consumer⟩ : Edge) ∈ g.from n ∧ levels.get? b.consumer = some b.lower ∧
        b.lower ≠ b.upper := by
  obtain ⟨producer, carrier, consumer, upper, lower⟩ := b
  unfold skips
  split
  next u hu =>
    simp only [skipping, List.mem_filterMap]
    constructor
    · rintro ⟨e, he, heq⟩
      split at heq
      next l hl =>
        split at heq
        next => simp at heq
        next ne =>
          cases heq
          exact ⟨rfl, hu, he, hl, ne⟩
      next => simp at heq
    · rintro ⟨rfl, hu', he, hl, ne⟩
      rw [hu] at hu'
      cases hu'
      exact ⟨_, he, by simp [hl, ne]⟩
  next hno =>
    simp only [List.not_mem_nil, false_iff]
    rintro ⟨_, hu, _⟩
    exact hno _ hu

theorem Levels.skips_nodup {levels : Levels} {g : DepGraph} {n : NodeId}
    (h : (g.from n).Nodup) : (levels.skips g n).Nodup := by
  unfold skips
  split
  next u hu =>
    unfold skipping
    refine h.filterMap fun e e' b hb hb' => ?_
    obtain ⟨carrier, consumer⟩ := e
    obtain ⟨carrier', consumer'⟩ := e'
    simp only [Option.mem_def] at hb hb'
    split at hb <;> split at hb' <;> simp_all
    obtain ⟨_, rfl⟩ := hb
    simp_all
  next => exact List.nodup_nil

/-- What planning finds out about a region: levels that make a schedule, along which all edges
go down, and what is to be done about each edge that skips a stage. -/
structure Plan.Sound (r : Region) (o : Options) (plan : Plan) : Prop where
  schedule : r.Schedule plan.levels.get?
  drops : ∀ p carrier c, r.Feeds p carrier c → ∃ upper lower, plan.levels.get? p = some upper ∧
    plan.levels.get? c = some lower ∧ lower < upper ∧ Before r.body p c
  skips : ∀ b, b ∈ plan.bypasses.edges ↔ r.Feeds b.producer b.carrier b.consumer ∧
    plan.levels.get? b.producer = some (b.upper + 1) ∧
      plan.levels.get? b.consumer = some b.lower ∧ b.lower < b.upper
  skipsNodup : plan.bypasses.edges.Nodup
  chains : plan.bypasses.chains =
    if o.insertCopy then plan.bypasses.edges.map r.chainOf else []
  merges : plan.bypasses.merges = if o.insertCopy then []
    else plan.bypasses.edges.foldl (fun found e => addMerge e.lower e.upper found) []

section Found

variable {r : Region} {o : Options} {levels : Levels}

theorem Region.WellFormed.drops (wf : r.WellFormed) (hl : r.levels r.deps = .ok levels)
    {p c : NodeId} {carrier : Carrier} (feeds : r.Feeds p carrier c) : ∃ upper lower,
      levels.get? p = some upper ∧ levels.get? c = some lower ∧ lower < upper ∧
        Before r.body p c := by
  obtain ⟨schedule, edges⟩ := levels_spec wf.ordered hl
  obtain ⟨upper, hu⟩ := Option.isSome_iff_exists.mp
    ((schedule.leveled p).mpr ⟨feeds.mem_left, feeds.isDataflow_left⟩)
  obtain ⟨lower, hlow, hlt, later⟩ := edges p upper hu ⟨carrier, c⟩ (wf.mem_from.mpr feeds)
  exact ⟨upper, lower, hu, hlow, hlt, later⟩

/-- An edge skips stages where the levels at its ends are not next to each other. -/
theorem Region.WellFormed.mem_skips (wf : r.WellFormed) (hl : r.levels r.deps = .ok levels)
    {n : NodeId} {b : Bypass} : b ∈ levels.skips r.deps n ↔ b.producer = n ∧
      r.Feeds b.producer b.carrier b.consumer ∧ levels.get? b.producer = some (b.upper + 1) ∧
        levels.get? b.consumer = some b.lower ∧ b.lower < b.upper := by
  rw [Levels.mem_skips]
  constructor
  · rintro ⟨rfl, hu, edge, hlow, ne⟩
    have feeds := wf.mem_from.mp edge
    obtain ⟨upper, lower, hu', hlow', hlt, _⟩ := wf.drops hl feeds
    rw [hu] at hu'
    rw [hlow] at hlow'
    cases hu'
    cases hlow'
    exact ⟨rfl, feeds, hu, hlow, by omega⟩
  · rintro ⟨rfl, feeds, hu, hlow, hlt⟩
    exact ⟨rfl, hu, wf.mem_from.mpr feeds, hlow, Nat.ne_of_lt hlt⟩

/-- Planning what to do about edges stops only at one that skips stages. -/
theorem Region.WellFormed.skip_of_error (wf : r.WellFormed) (hl : r.levels r.deps = .ok levels)
    {stop : Stop} (h : r.bypasses r.deps levels o = .error stop) : ∃ b bypass,
      Bypasses.add r o b bypass = .error stop ∧
        r.Feeds bypass.producer bypass.carrier bypass.consumer ∧
        levels.get? bypass.producer = some (bypass.upper + 1) ∧
        levels.get? bypass.consumer = some bypass.lower ∧ bypass.lower < bypass.upper := by
  obtain ⟨n, _, b, hstep⟩ := exists_of_foldlM_error h
  cases hskip : levels.skippingFrom r.deps n with
  | error =>
    unfold Levels.skippingFrom at hskip
    split at hskip
    next => cases hskip
    next zero =>
      have := (levels_spec wf.ordered hl).1.positive n 0 zero
      omega
    next => cases hskip
  | ok found =>
    simp only [hskip, bind, Except.bind] at hstep
    obtain ⟨bypass, hbypass, b', hadd⟩ := exists_of_foldlM_error hstep
    rw [Levels.skips_of_skippingFrom hskip] at hbypass
    exact ⟨b', bypass, hadd, ((wf.mem_skips hl).mp hbypass).2⟩

theorem Plan.sound {b : Bypasses} (wf : r.WellFormed) (hl : r.levels r.deps = .ok levels)
    (hb : r.bypasses r.deps levels o = .ok b) : Plan.Sound r o ⟨r.deps, levels, b⟩ := by
  have planned := Region.bypasses_planned hb
  refine ⟨(Region.levels_spec wf.ordered hl).1, fun _ _ _ feeds => wf.drops hl feeds, fun e => ?_, ?_, ?_,
    ?_⟩
  · simp only [planned.edges, List.mem_flatMap, List.mem_reverse, wf.mem_skips hl]
    constructor
    · rintro ⟨_, _, rfl, skips⟩
      exact skips
    · intro skips
      exact ⟨e.producer, skips.1.mem_left, rfl, skips⟩
  · rw [planned.edges]
    refine List.nodup_flatMap.mpr ⟨fun n _ => Levels.skips_nodup (r.from_nodup n), ?_⟩
    refine (List.nodup_reverse.mpr wf.bodyNodup).imp fun {m n} ne e hm hn => ne ?_
    exact (Levels.mem_skips.mp hm).1.symm.trans (Levels.mem_skips.mp hn).1
  · simpa [planned.edges] using planned.chains
  · simpa [planned.edges] using planned.merges

end Found

theorem Region.plan_eq_ok {r : Region} {o : Options} {plan : Plan} (h : r.plan o = .ok plan) :
    r.levels r.deps = .ok plan.levels ∧ r.bypasses r.deps plan.levels o = .ok plan.bypasses ∧
      plan.deps = r.deps := by
  unfold Region.plan at h
  cases hl : r.levels r.deps with
  | error => simp [hl, blockedBy, bind, Except.bind] at h
  | ok levels =>
    cases hb : r.bypasses r.deps levels o with
    | error => simp [hl, hb, blockedBy, bind, Except.bind] at h
    | ok b =>
      simp only [hl, hb, blockedBy, bind, Except.bind, pure, Except.pure, Except.ok.injEq] at h
      subst h
      exact ⟨rfl, hb, rfl⟩

theorem Region.plan_sound {r : Region} {o : Options} {plan : Plan} (wf : r.WellFormed)
    (h : r.plan o = .ok plan) : Plan.Sound r o plan := by
  obtain ⟨hl, hb, hd⟩ := plan_eq_ok h
  obtain ⟨deps, levels, b⟩ := plan
  cases hd
  exact Plan.sound wf hl hb

end Staging
