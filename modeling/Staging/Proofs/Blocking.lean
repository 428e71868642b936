import Staging.Proofs.Certified

namespace Staging

/-- Whether an edge from `p` to `c` leads to no later node of the body. -/
def Region.Backward (r : Region) (p c : NodeId) : Prop :=
  c = p ∨ Before r.body c p

instance (r : Region) (p c : NodeId) : Decidable (r.Backward p c) :=
  inferInstanceAs (Decidable (c = p ∨ [c, p].Sublist r.body))

/-- The last node with an edge that leads to no later node, and the consumer of its first such
edge. -/
def Region.TurnsBack (r : Region) (p c : NodeId) : Prop :=
  (∃ carrier earlier later, r.deps.from p = earlier ++ ⟨carrier, c⟩ :: later ∧ r.Backward p c ∧
    ∀ e ∈ earlier, ¬ r.Backward p e.consumer) ∧
  ∀ q e, e ∈ r.deps.from q → r.Backward q e.consumer → q = p ∨ Before r.body q p

/-- A loop only reads a buffer that a later loop writes. -/
def Region.ReadsAhead (r : Region) : Prop :=
  ∃ reader writer mem, Before r.body reader writer ∧ r.isLoop reader = true ∧
    r.isLoop writer = true ∧ r.Touches writer mem .write ∧ r.Touches reader mem .read ∧
      ¬ r.Touches reader mem .write

/-- An edge that skips stages carries a buffer whose size is only known at run time. -/
def Region.SkipsDynamic (r : Region) (p : NodeId) (v : ValueId) (type : ValueType) : Prop :=
  ∃ levels carrier c upper lower, r.levels r.deps = .ok levels ∧
    (p, ⟨carrier, c⟩) ∈ r.deps.toList ∧ levels.get? p = some upper ∧
      levels.get? c = some lower ∧ lower + 2 ≤ upper ∧ carrier.id = v ∧
      (r.value? v).map Value.type = some type ∧ type.isDynamicMemref = true

section Folds

variable {α β ε : Type} {f : β → α → Except ε β}

/-- A fold that fails does so at one of the elements, with those before it passed. -/
theorem exists_split_of_foldlM_error {l : List α} {b : β} {e : ε}
    (h : l.foldlM f b = .error e) : ∃ before a behind b', l = before ++ a :: behind ∧
      before.foldlM f b = .ok b' ∧ f b' a = .error e := by
  induction l generalizing b with
  | nil => cases h
  | cons a l ih =>
    rw [List.foldlM_cons] at h
    cases hf : f b a with
    | error e' =>
      rw [hf] at h
      cases h
      exact ⟨[], a, l, b, rfl, rfl, hf⟩
    | ok next =>
      rw [hf] at h
      obtain ⟨before, a', behind, b', rfl, hbefore, hfail⟩ := ih h
      refine ⟨a :: before, a', behind, b', rfl, ?_, hfail⟩
      rw [List.foldlM_cons, hf]
      exact hbefore

/-- A fold that succeeds passes every element. -/
theorem exists_of_foldlM_ok {l : List α} {b b' : β} (h : l.foldlM f b = .ok b') {a : α}
    (ha : a ∈ l) : ∃ b₁ b₂, f b₁ a = .ok b₂ := by
  induction l generalizing b with
  | nil => simp at ha
  | cons x l ih =>
    rw [List.foldlM_cons] at h
    cases hf : f b x with
    | error =>
      rw [hf] at h
      cases h
    | ok next =>
      rw [hf] at h
      rcases List.mem_cons.mp ha with rfl | ha
      · exact ⟨b, next, hf⟩
      · exact ih h ha

end Folds

/-- The search for the deepest consumer fails at the first one without a level. -/
theorem Ascent.deepest_eq_error {a : Ascent} {edges : List Edge} {c : NodeId}
    (h : a.deepest edges = .error c) : ∃ carrier earlier later,
      edges = earlier ++ ⟨carrier, c⟩ :: later ∧ a.levels.get? c = none ∧
        ∀ e ∈ earlier, (a.levels.get? e.consumer).isSome = true := by
  induction edges with
  | nil => cases h
  | cons e edges ih =>
    unfold deepest at h
    split at h
    next level hlevel =>
      cases hd : a.deepest edges with
      | error c' =>
        rw [hd] at h
        cases h
        obtain ⟨carrier, earlier, later, rfl, none, leveled⟩ := ih hd
        refine ⟨carrier, e :: earlier, later, rfl, none, fun e' he' => ?_⟩
        rcases List.mem_cons.mp he' with rfl | he'
        · simp [hlevel]
        · exact leveled e' he'
      | ok =>
        rw [hd] at h
        cases h
    next none =>
      cases h
      exact ⟨e.carrier, [], edges, rfl, none, by simp⟩

section Levels

variable {r : Region} {p c : NodeId}

theorem Region.Nested.not_backward_of_before (nested : r.Nested) (h : Before r.body p c) :
    ¬ r.Backward p c := by
  rintro (rfl | back)
  · exact h.ne nested.bodyNodup rfl
  · exact h.asymm nested.bodyNodup back

theorem Region.backward_of_not_before (hp : p ∈ r.body) (hc : c ∈ r.body)
    (h : ¬ Before r.body p c) : r.Backward p c := by
  by_cases same : c = p
  · exact Or.inl same
  · exact Or.inr ((before_total hc hp same).resolve_right h)

theorem Region.Nested.backward_iff (nested : r.Nested) (hp : p ∈ r.body) (hc : c ∈ r.body) :
    r.Backward p c ↔ ¬ Before r.body p c :=
  ⟨fun back h => nested.not_backward_of_before h back, backward_of_not_before hp hc⟩

/-- Only edges between loops can lead backwards: all others follow a definition or are drawn to
later nodes only. -/
theorem Region.WellFormed.readsAhead_of_backward (wf : r.WellFormed) {carrier : Carrier}
    (feeds : r.Feeds p carrier c) (back : r.Backward p c) : r.ReadsAhead := by
  have later : Before r.body c p := by
    rcases back with rfl | later
    · exact absurd rfl (feeds.ne wf.toNested)
    · exact later
  cases feeds with
  | loop hp hc loopP loopC ne writes reads keeps =>
    exact ⟨c, p, _, later, loopC, loopP, writes, reads, keeps⟩
  | copyOut _ _ _ order => exact absurd later (order.asymm wf.bodyNodup)
  | copyIn _ _ _ order => exact absurd later (order.asymm wf.bodyNodup)
  | result hp hc _ _ _ results _ _ mentions =>
    exact absurd later ((wf.sound.before_of_readsFrom hc hp ⟨_, mentions, results⟩).asymm wf.bodyNodup)

theorem Region.ReadsAhead.exists_backward (h : r.ReadsAhead) :
    ∃ p mem c, r.Feeds p (.memory mem) c ∧ Before r.body c p := by
  obtain ⟨reader, writer, mem, order, loopR, loopW, writes, reads, keeps⟩ := h
  refine ⟨writer, mem, reader, ?_, order⟩
  by_cases same : reader = writer
  · exact absurd (same ▸ writes) keeps
  · exact .loop order.mem_right order.mem_left loopW loopR same writes reads keeps

theorem Region.Nested.isBefore_iff (nested : r.Nested) (hp : p ∈ r.body) (hc : c ∈ r.body) :
    r.uses.isBefore p c = true ↔ Before r.body p c := by
  unfold Uses.isBefore
  rw [nested.forest.place hp, nested.forest.place hc, before_iff_idxOf nested.bodyNodup hp hc]
  simp

/-- The edges that are counted in a failure are those that lead to no later node. -/
theorem Region.Nested.backward_length (nested : r.Nested) :
    (r.deps.backward r.uses).length =
      (r.deps.toList.filter fun edge => r.Backward edge.1 edge.2.consumer).length := by
  unfold DepGraph.backward
  simp only [List.filter_map, List.length_map]
  congr 1
  refine List.filter_congr fun edge hedge => ?_
  have feeds := nested.mem_deps.mp hedge
  have same := nested.isBefore_iff feeds.mem_left feeds.mem_right
  have back := nested.backward_iff feeds.mem_left feeds.mem_right
  by_cases order : Before r.body edge.1 edge.2.consumer <;> simp_all

/-- Where the search for levels fails, what is behind has been settled. -/
theorem Region.WellFormed.exists_stuck (wf : r.WellFormed) {obstacle : Obstacle}
    (h : r.levels r.deps = .error obstacle) : ∃ earlier n behind a c,
      r.body = earlier ++ n :: behind ∧ Ascent.Settled r r.deps behind a ∧
      a.deepest (r.deps.from n) = .error c ∧
      obstacle = .topologyViolation n c (r.deps.backward r.uses).length := by
  unfold Region.levels at h
  simp only at h
  cases hfold : r.body.reverse.foldlM
      (Ascent.step r r.deps r.uses (r.deps.backward r.uses).length) .start with
  | ok a =>
    rw [hfold] at h
    cases h
  | error found =>
    rw [hfold] at h
    cases h
    obtain ⟨passed, n, rest, a, hsplit, hpassed, hstep⟩ := exists_split_of_foldlM_error hfold
    have hbody : r.body = rest.reverse ++ n :: passed.reverse := by
      simpa using congrArg List.reverse hsplit
    have hbehind : r.body = (rest.reverse ++ [n]) ++ passed.reverse := by simpa using hbody
    have settled := Ascent.settled_of_foldlM wf.ordered hbehind (by simpa using hpassed)
    unfold Ascent.step at hstep
    simp only at hstep
    split at hstep
    next =>
      split at hstep
      next => cases hstep
      next c hdeep =>
        cases hstep
        exact ⟨_, n, _, a, c, hbody, settled, hdeep, rfl⟩
    next => cases hstep

section Stuck

variable {earlier behind : List NodeId} {n c : NodeId} {a : Ascent}

theorem Ascent.Settled.leveled_iff_before (settled : a.Settled r r.deps behind) (wf : r.WellFormed)
    (hbody : r.body = earlier ++ n :: behind) (flow : r.isDataflow c = true) :
    (a.levels.get? c).isSome = true ↔ Before r.body n c := by
  rw [settled.leveled, and_iff_left flow]
  refine ⟨fun hc => before_iff_append.mpr ⟨_, _, hbody, hc⟩, fun hc => ?_⟩
  exact hc.mem_behind wf.bodyNodup hbody

/-- The search fails at an edge that leads to no later node, and no such edge starts behind. -/
theorem Ascent.Settled.turnsBack (settled : a.Settled r r.deps behind) (wf : r.WellFormed)
    (hbody : r.body = earlier ++ n :: behind) (hdeep : a.deepest (r.deps.from n) = .error c) :
    r.TurnsBack n c := by
  have hn : n ∈ r.body := by simp [hbody]
  have leveled {m : NodeId} (flow : r.isDataflow m = true) :=
    settled.leveled_iff_before wf hbody flow
  obtain ⟨carrier, before, after, hedges, missing, passedBy⟩ := Ascent.deepest_eq_error hdeep
  have feeds := wf.mem_from.mp (show ⟨carrier, c⟩ ∈ r.deps.from n by simp [hedges])
  refine ⟨⟨carrier, before, after, hedges, ?_, fun e he => ?_⟩, fun q e he back => ?_⟩
  · refine Region.backward_of_not_before hn feeds.mem_right fun hc => ?_
    simpa [missing] using (leveled feeds.isDataflow_right).mpr hc
  · have feedsE := wf.mem_from.mp (show e ∈ r.deps.from n by simp [hedges, he])
    exact wf.not_backward_of_before ((leveled feedsE.isDataflow_right).mp (passedBy e he))
  · have feedsQ := wf.mem_from.mp he
    have front : q ∉ behind := by
      intro hq
      have order : Before r.body n q := before_iff_append.mpr ⟨_, _, hbody, hq⟩
      obtain ⟨l, hl⟩ := Option.isSome_iff_exists.mp ((leveled feedsQ.isDataflow_left).mpr order)
      obtain ⟨_, _, _, forward⟩ := settled.edges q l hl e he
      refine wf.not_backward_of_before (forward.sublist ?_) back
      rw [hbody]
      exact (List.sublist_cons_self n _).trans (List.sublist_append_right _ _)
    have hq := feedsQ.mem_left
    rw [hbody, List.mem_append, List.mem_cons] at hq
    rcases hq with hq | rfl | hq
    · obtain ⟨x, y, hxy⟩ := List.append_of_mem hq
      exact Or.inr (before_iff_append.mpr ⟨x, y ++ n :: behind, by simp [hbody, hxy], by simp⟩)
    · exact Or.inl rfl
    · exact absurd hq front

end Stuck

/-- The search for levels fails at the last node with an edge that leads to no later node. -/
theorem Region.WellFormed.levels_eq_error (wf : r.WellFormed) {obstacle : Obstacle}
    (h : r.levels r.deps = .error obstacle) : ∃ p c, r.TurnsBack p c ∧
      obstacle = .topologyViolation p c (r.deps.backward r.uses).length := by
  obtain ⟨_, n, _, _, c, hbody, settled, hdeep, rfl⟩ := wf.exists_stuck h
  exact ⟨n, c, settled.turnsBack wf hbody hdeep, rfl⟩

theorem Region.WellFormed.levels_ok_iff (wf : r.WellFormed) :
    (∃ levels, r.levels r.deps = .ok levels) ↔ ¬ r.ReadsAhead := by
  constructor
  · rintro ⟨levels, hl⟩ ahead
    obtain ⟨p, mem, c, feeds, back⟩ := ahead.exists_backward
    obtain ⟨_, _, _, _, _, forward⟩ := wf.drops hl feeds
    exact forward.asymm wf.bodyNodup back
  · intro straight
    cases hl : r.levels r.deps with
    | ok levels => exact ⟨levels, rfl⟩
    | error obstacle =>
      obtain ⟨p, c, ⟨⟨carrier, earlier, later, hedges, back, -⟩, -⟩, -⟩ := wf.levels_eq_error hl
      have feeds := wf.mem_from.mp (show ⟨carrier, c⟩ ∈ r.deps.from p by simp [hedges])
      exact absurd (wf.readsAhead_of_backward feeds back) straight

end Levels

section Bypasses

variable {r : Region} {o : Options} {levels : Levels}

theorem Region.skipsDynamic_of_feeds (wf : r.WellFormed) (hl : r.levels r.deps = .ok levels)
    {e : Bypass} (feeds : r.Feeds e.producer e.carrier e.consumer)
    (hu : levels.get? e.producer = some (e.upper + 1))
    (hlow : levels.get? e.consumer = some e.lower) (hlt : e.lower < e.upper) {value : Value}
    (hvalue : r.value? e.carrier.id = some value) (dynamic : value.type.isDynamicMemref = true) :
    r.SkipsDynamic e.producer e.carrier.id value.type :=
  ⟨levels, e.carrier, e.consumer, e.upper + 1, e.lower, hl, wf.mem_deps.mpr feeds, hu, hlow,
    by omega, rfl, by simp [hvalue], dynamic⟩

/-- Planning what to do about edges stops only at one that carries what cannot be copied. -/
theorem Region.WellFormed.bypasses_eq_error (wf : r.WellFormed)
    (hl : r.levels r.deps = .ok levels) {stop : Stop}
    (h : r.bypasses r.deps levels o = .error stop) : o.insertCopy = true ∧ ∃ p v type,
      r.SkipsDynamic p v type ∧ stop = .blocked (.unsupportedCarrier p v type) := by
  obtain ⟨b, bypass, hadd, feeds, hu, hlow, hlt⟩ := wf.skip_of_error hl h
  have copies : bypass.copyLevels?.isSome = true := by
    simp [Bypass.copyLevels?, hlt.le]
  obtain ⟨levels', hcopies⟩ := Option.isSome_iff_exists.mp copies
  obtain ⟨value, hvalue⟩ := value?_eq_some (wf.sound.known_of_mentions feeds.mem_right feeds.mentions)
  unfold Bypasses.add at hadd
  cases copy : o.insertCopy with
  | false => simp [copy, pure, Except.pure] at hadd
  | true =>
    simp only [copy, if_true, hvalue, hcopies, orFault, bind, Except.bind] at hadd
    split at hadd
    next dynamic =>
      cases hadd
      exact ⟨rfl, _, _, _, skipsDynamic_of_feeds wf hl feeds hu hlow hlt hvalue dynamic, rfl⟩
    next => cases hadd

/-- Where planning succeeds and copies are made, every edge that skips stages carries something
that can be copied. -/
theorem Region.WellFormed.no_skipsDynamic (wf : r.WellFormed)
    (hl : r.levels r.deps = .ok levels) {b : Bypasses}
    (h : r.bypasses r.deps levels o = .ok b) (copy : o.insertCopy = true) {p : NodeId}
    {v : ValueId} {type : ValueType} : ¬ r.SkipsDynamic p v type := by
  rintro ⟨levels', carrier, c, upper, lower, hl', edge, hu, hlow, hle, rfl, hvalue, dynamic⟩
  obtain rfl : levels = levels' := Except.ok.inj (hl.symm.trans hl')
  have feeds := wf.mem_deps.mp edge
  obtain ⟨skips, upper', rfl⟩ : lower < upper - 1 ∧ ∃ u, upper = u + 1 :=
    ⟨by omega, upper - 1, by omega⟩
  let bypass : Bypass := ⟨p, carrier, c, upper', lower⟩
  have found : bypass ∈ levels.skips r.deps p :=
    (wf.mem_skips hl).mpr ⟨rfl, feeds, hu, hlow, skips⟩
  obtain ⟨b₁, b₂, hnode⟩ := exists_of_foldlM_ok h (List.mem_reverse.mpr feeds.mem_left)
  cases hskip : levels.skippingFrom r.deps p with
  | error => simp [hskip, bind, Except.bind] at hnode
  | ok edges =>
    simp only [hskip, bind, Except.bind] at hnode
    rw [← Levels.skips_of_skippingFrom hskip] at found
    obtain ⟨b₃, b₄, hadd⟩ := exists_of_foldlM_ok hnode found
    obtain ⟨value, hval, rfl⟩ := Option.map_eq_some_iff.mp hvalue
    simp [Bypasses.add, copy, bypass, hval, dynamic, orFault, bind, Except.bind] at hadd

end Bypasses

section Plans

variable {r : Region} {o : Options}

theorem Region.WellFormed.legalize_eq_error (wf : r.WellFormed) {stop : Stop} :
    r.legalize o = .error stop ↔ r.plan o = .error stop := by
  obtain ⟨print, hprint⟩ := wf.fingerprint_eq
  cases hplan : r.plan o with
  | error stop' => simp [Region.legalize, hprint, hplan, orFault, bind, Except.bind]
  | ok plan =>
    obtain ⟨_, _, _, _, _, _, _, hlegal, _⟩ := wf.legalize_of_plan hplan
    simp [hlegal]

/-- Planning fails for one of two reasons, the first of which is met first. -/
theorem Region.WellFormed.plan_eq_error (wf : r.WellFormed) {stop : Stop}
    (h : r.plan o = .error stop) :
    (r.ReadsAhead ∧ ∃ p c, r.TurnsBack p c ∧
      stop = .blocked (.topologyViolation p c
        (r.deps.toList.filter fun edge => r.Backward edge.1 edge.2.consumer).length)) ∨
    (¬ r.ReadsAhead ∧ o.insertCopy = true ∧ ∃ p v type, r.SkipsDynamic p v type ∧
      stop = .blocked (.unsupportedCarrier p v type)) := by
  unfold Region.plan at h
  cases hl : r.levels r.deps with
  | error obstacle =>
    obtain ⟨p, c, turns, rfl⟩ := wf.levels_eq_error hl
    simp only [hl, blockedBy, bind, Except.bind, Except.error.injEq] at h
    subst h
    refine Or.inl ⟨?_, p, c, turns, by rw [wf.backward_length]⟩
    by_contra straight
    obtain ⟨levels, hok⟩ := wf.levels_ok_iff.mpr straight
    simp [hl] at hok
  | ok levels =>
    cases hb : r.bypasses r.deps levels o with
    | ok => simp [hl, hb, blockedBy, bind, Except.bind, pure, Except.pure] at h
    | error stop' =>
      simp only [hl, hb, blockedBy, bind, Except.bind, Except.error.injEq] at h
      subst h
      exact Or.inr ⟨wf.levels_ok_iff.mp ⟨levels, hl⟩, wf.bypasses_eq_error hl hb⟩

theorem Region.WellFormed.plan_ok (wf : r.WellFormed) {plan : Plan} (h : r.plan o = .ok plan) :
    ¬ r.ReadsAhead ∧ (o.insertCopy = true → ∀ p v type, ¬ r.SkipsDynamic p v type) := by
  obtain ⟨hl, hb, -⟩ := plan_eq_ok h
  exact ⟨wf.levels_ok_iff.mp ⟨_, hl⟩, fun copy _ _ _ => wf.no_skipsDynamic hl hb copy⟩

end Plans

/-- Finds something out about the region that a run has come to. -/
def Region.inspect {α : Type} (f : Region → Except Stop α) : ExceptT Stop (StateM Region) α :=
  ExceptT.mk fun r => (f r, r)

/-- Puts another region in the place of the one that a run has come to. -/
def Region.rebuild {α : Type} (f : Region → Option (Region × α)) :
    ExceptT Stop (StateM Region) α :=
  ExceptT.mk fun r => match f r with
    | some (out, a) => (.ok a, out)
    | none => (.error .fault, r)

/-- Makes a region legal where it stands: each step finds it as the one before has left it. -/
def Region.legalizeInPlace (o : Options) : ExceptT Stop (StateM Region) Report := do
  let print ← inspect fun r => orFault r.fingerprint
  let plan ← inspect fun r => r.plan o
  let forwarded ← rebuild fun r => r.forward plan.levels plan.bypasses
  let compacted ← rebuild fun r => r.compact plan.bypasses o
  inspect fun r => orFault (r.report print plan.levels plan.bypasses forwarded compacted o)

section InPlace

variable {α β : Type} {r out : Region} {a : α} {k : α → ExceptT Stop (StateM Region) β}

theorem Region.inspect_ok {f : Region → Except Stop α} (h : f r = .ok a) :
    (inspect f >>= k).run.run r = (k a).run.run r := by
  change (ExceptT.bindCont k (f r) : StateM Region _) r = _
  rw [h]
  rfl

theorem Region.inspect_error {f : Region → Except Stop α} {stop : Stop} (h : f r = .error stop) :
    (inspect f >>= k).run.run r = (.error stop, r) := by
  change (ExceptT.bindCont k (f r) : StateM Region _) r = _
  rw [h]
  rfl

theorem Region.rebuild_some {f : Region → Option (Region × α)} (h : f r = some (out, a)) :
    (rebuild f >>= k).run.run r = (k a).run.run out := by
  change (match (match f r with
    | some (out, a) => (Except.ok a, out)
    | none => (.error .fault, r)) with
      | (x, s) => (ExceptT.bindCont k x : StateM Region _) s) = _
  rw [h]
  rfl

end InPlace

/-- A run in place ends like one that leaves the region alone; if it fails, it does so before it
changes the region. -/
theorem Region.WellFormed.legalizeInPlace_eq {r : Region} (wf : r.WellFormed) (o : Options) :
    (legalizeInPlace o).run.run r = match r.legalize o with
      | .ok (report, out) => (.ok report, out)
      | .error stop => (.error stop, r) := by
  obtain ⟨print, hprint⟩ := wf.fingerprint_eq
  unfold legalizeInPlace
  rw [inspect_ok (show orFault r.fingerprint = .ok print by rw [hprint]; rfl)]
  cases hlegal : r.legalize o with
  | error stop => exact inspect_error (wf.legalize_eq_error.mp hlegal)
  | ok found =>
    obtain ⟨print', plan, s, f, c, hprint', hplan, hforward, hcompact, hreport⟩ :=
      legalize_eq_ok.mp hlegal
    obtain rfl : print = print' := Option.some.inj (hprint.symm.trans hprint')
    rw [inspect_ok hplan, rebuild_some hforward, rebuild_some hcompact]
    change (orFault _, _) = _
    rw [hreport]
    rfl

/-- When a region cannot be made legal, and what is told then. A loop must not read what only
later loops write, and with copies, nothing that has to be copied may be of unknown size; of
these two, the first is told. In every other case the run ends well, and a run that does not
leaves the region as it was. -/
theorem legalize_fails_iff {r : Region} {o : Options} (reachable : r.Reachable) :
    ((∃ p c count, r.legalize o = .error (.blocked (.topologyViolation p c count))) ↔
      r.ReadsAhead) ∧
    (∀ p c count, r.legalize o = .error (.blocked (.topologyViolation p c count)) →
      r.TurnsBack p c ∧ count =
        (r.deps.toList.filter fun edge => r.Backward edge.1 edge.2.consumer).length) ∧
    ((∃ p v type, r.legalize o = .error (.blocked (.unsupportedCarrier p v type))) ↔
      ¬ r.ReadsAhead ∧ o.insertCopy = true ∧ ∃ p v type, r.SkipsDynamic p v type) ∧
    (∀ p v type, r.legalize o = .error (.blocked (.unsupportedCarrier p v type)) →
      r.SkipsDynamic p v type) ∧
    ((∃ report out, r.legalize o = .ok (report, out)) ↔
      ¬ r.ReadsAhead ∧ ¬ (o.insertCopy = true ∧ ∃ p v type, r.SkipsDynamic p v type)) ∧
    ∀ stop, r.legalize o = .error stop →
      (Region.legalizeInPlace o).run.run r = (.error stop, r) := by
  have wf := reachable.wellFormed
  have inPlace : ∀ stop, r.legalize o = .error stop →
      (Region.legalizeInPlace o).run.run r = (.error stop, r) := by
    intro stop h
    rw [wf.legalizeInPlace_eq, h]
  cases hplan : r.plan o with
  | ok plan =>
    obtain ⟨straight, static⟩ := wf.plan_ok hplan
    obtain ⟨_, _, out, _, report, _, _, hlegal, _⟩ := wf.legalize_of_plan hplan
    refine ⟨?_, ?_, ?_, ?_, ?_, inPlace⟩ <;> simp only [hlegal]
    · simpa using straight
    · simp
    · simpa [straight] using static
    · simp
    · simpa [straight] using static
  | error stop =>
    have hlegal := wf.legalize_eq_error.mpr hplan
    rcases wf.plan_eq_error hplan with ⟨ahead, p, c, turns, rfl⟩ |
      ⟨straight, copies, p, v, type, skips, rfl⟩
    · refine ⟨?_, ?_, ?_, ?_, ?_, inPlace⟩ <;> simp only [hlegal]
      · simpa using ahead
      · rintro _ _ _ ⟨⟩
        exact ⟨turns, rfl⟩
      · simp [ahead]
      · simp
      · simp [ahead]
    · refine ⟨?_, ?_, ?_, ?_, ?_, inPlace⟩ <;> simp only [hlegal]
      · simpa using straight
      · simp
      · simpa [straight, copies] using ⟨p, v, type, skips⟩
      · rintro _ _ _ ⟨⟩
        exact skips
      · simpa [straight, copies] using ⟨p, v, type, skips⟩

/-- Whether a test holds of what stands in the way of some region of the source text of some
characters. -/
def anyBlocked (cs : List Char) (o : Options) (test : Obstacle → Bool) : Bool :=
  match loadChars cs with
  | .ok loaded => loaded.regions.any fun r => match r.plan o with
    | .error (.blocked obstacle) => test obstacle
    | _ => false
  | .error _ => false

theorem exists_of_anyBlocked {source : String} {cs : List Char} (spelled : source = .ofList cs)
    {o : Options} {test : Obstacle → Bool} (h : anyBlocked cs o test = true) :
    ∃ loaded r obstacle, load source = .ok loaded ∧
      r ∈ loaded.regions ∧ r.legalize o = .error (.blocked obstacle) ∧ test obstacle = true := by
  unfold anyBlocked at h
  split at h
  next loaded hload =>
    replace hload := (load_eq_loadChars spelled).trans hload
    obtain ⟨r, hr, h⟩ := List.any_eq_true.mp h
    split at h
    next obstacle hplan =>
      have wf := load_wellFormed hload r hr
      exact ⟨loaded, r, obstacle, hload, hr, wf.legalize_eq_error.mpr hplan, h⟩
    next => cases h
  next => cases h

/-- A source text in which two loops read what a later loop writes. -/
def readAheadSource : String :=
  "func @k(%s: i1, %m: memref<1xi1>, %o: memref<1xi1>) \x7b
    for %i = 0 to 1 \x7b
      %v = load %m : i1
      store %v, %o
    \x7d
    for %j = 0 to 1 \x7b
      %w = load %m : i1
    \x7d
    for %k = 0 to 1 \x7b
      store %s, %m
    \x7d
    %a = op \"x\"() : tensor<1xi1>
    op \"x\"(%a)
  \x7d"

theorem legalize_fails_readAhead : ∃ loaded r, load readAheadSource = .ok loaded ∧
    r ∈ loaded.regions ∧
    r.legalize ⟨true, 1⟩ = .error (.blocked (.topologyViolation ⟨5⟩ ⟨0⟩ 2)) ∧ r.ReadsAhead ∧
    r.TurnsBack ⟨5⟩ ⟨0⟩ ∧
    2 = (r.deps.toList.filter fun edge => r.Backward edge.1 edge.2.consumer).length ∧
    (Region.legalizeInPlace ⟨true, 1⟩).run.run r =
      (.error (.blocked (.topologyViolation ⟨5⟩ ⟨0⟩ 2)), r) := by
  obtain ⟨loaded, r, obstacle, hload, hr, hlegal, test⟩ :=
    @exists_of_anyBlocked readAheadSource _ (by rfl) ⟨true, 1⟩
      (fun obstacle => obstacle = .topologyViolation ⟨5⟩ ⟨0⟩ 2) (by decide +kernel)
  obtain rfl := of_decide_eq_true test
  obtain ⟨ahead, told, -, -, -, inPlace⟩ :=
    @legalize_fails_iff r ⟨true, 1⟩ (.load hload hr)
  obtain ⟨turns, count⟩ := told _ _ _ hlegal
  exact ⟨loaded, r, hload, hr, hlegal, ahead.mp ⟨_, _, _, hlegal⟩, turns, count,
    inPlace _ hlegal⟩

end Staging
