import Staging.Proofs.Repeating

namespace Staging

/-- A region that is marked as legal, or as not. -/
def Region.withMark (r : Region) (mark : Bool) : Region :=
  { r with dataflow := mark }

/-- A region without what earlier runs may have left in it: no node has a level, and the region is
not marked as legal. -/
def Region.unscheduled (r : Region) : Region :=
  r.clearLevels.withMark false

section Plan

variable {r s : Region}

theorem Region.SameNodes.walk (h : r.SameNodes s) : s.walk = r.walk := by
  funext n
  unfold Region.walk
  rw [h.size]
  exact walkWithin_congr (congrFun h.bodyOf) _ n

theorem Region.SameNodes.accesses (h : r.SameNodes s) : s.accesses = r.accesses := by
  have touched : s.touched = r.touched := by
    funext n
    simp only [Region.touched, h.kind, h.operands]
  funext n
  simp only [Region.accesses, h.walk, touched]

theorem Region.SameNodes.footprint (h : r.SameNodes s) (body : s.body = r.body) :
    s.footprint = r.footprint := by
  have addLoop : Footprint.addLoop s = Footprint.addLoop r := by
    funext f loop
    simp only [Footprint.addLoop, h.accesses]
  simp only [Region.footprint, body, h.isLoop, addLoop]

theorem Region.SameNodes.uses (h : r.SameNodes s) (body : s.body = r.body) : s.uses = r.uses := by
  have visit : Uses.visit s = Uses.visit r := by
    funext top uses n
    simp only [Uses.visit, h.operands]
  have visitTop : Uses.visitTop s = Uses.visitTop r := by
    funext uses place
    simp only [Uses.visitTop, h.walk, visit]
  simp only [Region.uses, body, visitTop]

theorem Region.SameNodes.deps (h : r.SameNodes s) (body : s.body = r.body) : s.deps = r.deps := by
  have copiesOut : s.copiesOut = r.copiesOut := by
    funext mem n
    simp only [Region.copiesOut, h.kind, h.operands]
  have copyTarget : s.copyTarget? = r.copyTarget? := by
    funext n
    simp only [Region.copyTarget?, h.kind, h.operands]
  have shaped : s.isShaped = r.isShaped := by
    funext v
    simp only [Region.isShaped, h.value]
  have through : s.edgesThrough = r.edgesThrough := by
    funext f uses loop mem
    simp only [Region.edgesThrough, copiesOut]
  have target : s.edgesFromTarget = r.edgesFromTarget := by
    funext uses n v
    simp only [Region.edgesFromTarget, h.isDataflow]
  have result : s.edgesFromResult = r.edgesFromResult := by
    funext uses n v
    simp only [Region.edgesFromResult, h.isDataflow]
  have edgesFrom : s.edgesFrom = r.edgesFrom := by
    funext f uses n
    simp only [Region.edgesFrom, h.isLoop, h.isDataflow, h.results, through, copyTarget, target,
      shaped, result]
  simp only [Region.deps, Region.depsWith, body, h.footprint body, h.uses body, edgesFrom]

theorem Region.SameNodes.levels (h : r.SameNodes s) (body : s.body = r.body) (g : DepGraph) :
    s.levels g = r.levels g := by
  have floor : ∀ a : Ascent, a.floor s = a.floor r := by
    intro a
    funext uses n
    simp only [Ascent.floor, h.results]
  have step : Ascent.step s = Ascent.step r := by
    funext g uses backward a n
    simp only [Ascent.step, h.isDataflow, floor]
  simp only [Region.levels, body, h.uses body, step]

theorem Region.SameNodes.bypasses (h : r.SameNodes s) (body : s.body = r.body) (g : DepGraph)
    (levels : Levels) (o : Options) : s.bypasses g levels o = r.bypasses g levels o := by
  have add : Bypasses.add s = Bypasses.add r := by
    funext o b bypass
    simp only [Bypasses.add, h.value]
  simp only [Region.bypasses, body, add]

/-- A plan depends on the nodes and their order alone. -/
theorem Region.SameNodes.plan (h : r.SameNodes s) (body : s.body = r.body) (o : Options) :
    s.plan o = r.plan o := by
  simp only [Region.plan, h.deps body, h.levels body, h.bypasses body]

end Plan

section Text

variable {r : Region}

theorem Region.node?_unscheduled (n : NodeId) :
    r.unscheduled.node? n = (r.node? n).map fun node => { node with level := none } := by
  simp [unscheduled, withMark, clearLevels, node?]

theorem Region.unscheduled_withLevels (level : NodeId → Option Nat) (mark : Bool) :
    ((r.withLevels level).withMark mark).unscheduled = r.unscheduled := by
  have cleared : (r.withLevels level).clearLevels = r.clearLevels := by
    rw [clearLevels_eq, clearLevels_eq, withLevels_withLevels]
  have marked : ((r.withLevels level).withMark mark).unscheduled = (r.withLevels level).unscheduled :=
    rfl
  rw [marked, unscheduled, cleared, unscheduled]

theorem Region.sameNodes_unscheduled : r.SameNodes r.unscheduled := by
  refine ⟨by simp [unscheduled, withMark, clearLevels], rfl, ?_, ?_, ?_, ?_, rfl⟩
  all_goals
    funext n
    simp only [kind?, operands, results, parent?, node?_unscheduled]
    cases r.node? n <;> rfl

/-- Two runs that go on alike from where both have an answer. -/
theorem bind_isSome_congr {α β γ δ : Type} {x : Option α} {y : Option β} {f : α → Option γ}
    {g : β → Option δ} (first : x.isSome = y.isSome)
    (rest : ∀ a b, (f a).isSome = (g b).isSome) : (x >>= f).isSome = (y >>= g).isSome := by
  cases x with
  | none =>
    cases y with
    | none => rfl
    | some b => cases first
  | some a =>
    cases y with
    | none => cases first
    | some b => exact rest a b

theorem mapM_isSome_congr {α β γ : Type} {f : α → Option β} {g : α → Option γ}
    (same : ∀ a, (f a).isSome = (g a).isSome) (l : List α) :
    (l.mapM f).isSome = (l.mapM g).isSome := by
  induction l with
  | nil => rfl
  | cons a l ih =>
    rw [List.mapM_cons, List.mapM_cons]
    exact bind_isSome_congr (same a) fun _ _ => bind_isSome_congr ih fun _ _ => rfl

/-- Whether a node can be written does not depend on levels. -/
theorem Region.nodeText_unscheduled_isSome (depth margin : Nat) (n : NodeId) :
    (r.unscheduled.nodeText depth margin n).isSome = (r.nodeText depth margin n).isSome := by
  induction depth generalizing margin n with
  | zero => rfl
  | succ depth ih =>
    simp only [nodeText, node?_unscheduled]
    cases r.node? n with
    | none => rfl
    | some node =>
      have results : r.unscheduled.resultsText { node with level := none } = r.resultsText node := rfl
      have op : r.unscheduled.opText { node with level := none } = r.opText node := rfl
      simp only [Option.map_some, Option.bind_eq_bind, Option.bind_some]
      refine bind_isSome_congr (congrArg Option.isSome results) fun _ _ =>
        bind_isSome_congr (congrArg Option.isSome op) fun _ _ =>
        bind_isSome_congr ?_ fun _ _ => rfl
      exact mapM_isSome_congr (fun m => ih (margin + 1) m) node.kind.body

theorem Region.fingerprint_unscheduled_isSome :
    r.unscheduled.fingerprint.isSome = r.fingerprint.isSome := by
  have args : r.unscheduled.args.mapM r.unscheduled.argText = r.args.mapM r.argText := rfl
  have size : r.unscheduled.nodes.size = r.nodes.size := sameNodes_unscheduled.size
  unfold fingerprint
  rw [Option.isSome_map, Option.isSome_map, text, text, size]
  exact bind_isSome_congr (congrArg Option.isSome args) fun _ _ =>
    bind_isSome_congr (mapM_isSome_congr (nodeText_unscheduled_isSome r.nodes.size 1) r.body)
      fun _ _ => rfl

end Text

section Mark

variable {r s : Region} {mark : Bool}

theorem foldlM_map {σ τ α : Type} {f : σ → α → Option σ} {g : τ → α → Option τ} (e : σ → τ)
    (step : ∀ x a, g (e x) a = (f x a).map e) (l : List α) (x : σ) :
    l.foldlM g (e x) = (l.foldlM f x).map e := by
  induction l generalizing x with
  | nil => rfl
  | cons a l ih =>
    rw [List.foldlM_cons, List.foldlM_cons, step]
    cases f x a with
    | none => rfl
    | some y => exact ih y

theorem Region.freshName_withMark (stem : String) :
    (r.withMark mark).freshName stem = r.freshName stem := by
  have search : ∀ fuel n, (r.withMark mark).freshIndex stem fuel n = r.freshIndex stem fuel n := by
    intro fuel
    induction fuel with
    | zero => exact fun _ => rfl
    | succ fuel ih =>
      intro n
      simp only [freshIndex, ih]
      rfl
  exact congrArg (fun n : Nat => stem ++ toString n) (search _ _)

theorem Region.addResults_withMark (n : NodeId) (index : Nat)
    (results : List (Option String × ValueType)) : (r.withMark mark).addResults n index results =
      ((r.addResults n index results).1, (r.addResults n index results).2.withMark mark) := by
  induction results generalizing r index with
  | nil => rfl
  | cons entry results ih =>
    have first : ((r.withMark mark).addValue entry.1 entry.2 (.result n index)) =
        ((r.addValue entry.1 entry.2 (.result n index)).1,
          (r.addValue entry.1 entry.2 (.result n index)).2.withMark mark) := by
      simp only [addValue, freshName_withMark]
      rfl
    simp only [addResults, first, ih]

theorem Region.addNode_withMark (kind : NodeKind) (operands : List ValueId)
    (results : List (Option String × ValueType)) (span : Span) :
    (r.withMark mark).addNode kind operands results span =
      ((r.addNode kind operands results span).1,
        (r.addNode kind operands results span).2.withMark mark) := by
  have same : (⟨(r.withMark mark).nodes.size⟩ : NodeId) = ⟨r.nodes.size⟩ := rfl
  simp only [addNode, same, addResults_withMark]
  rfl

theorem Region.attach_withMark (block : Option NodeId) (n : NodeId)
    (place : List NodeId → Option (List NodeId)) : (r.withMark mark).attach block n place =
      (r.attach block n place).map fun (s, done) => (s.withMark mark, done) := by
  have held : (r.withMark mark).block? block = r.block? block := by cases block <;> rfl
  have holds : (r.withMark mark).hasBlock? block = r.hasBlock? block := by cases block <;> rfl
  have node : (r.withMark mark).node? n = r.node? n := rfl
  have put (ns : List NodeId) : ((r.withMark mark).setBlock ns block).setParent n block =
      ((r.setBlock ns block).setParent n block).withMark mark := by cases block <;> rfl
  simp only [attach, held, holds, node, put]
  cases r.block? block with
  | none => rfl
  | some ns =>
    cases r.hasBlock? block with
    | none => rfl
    | some holds =>
      simp only [Option.bind_eq_bind, Option.bind_some]
      split
      · cases r.node? n <;> rfl
      · rfl

theorem Region.insertAt_withMark (block : Option NodeId) (index : Nat) (n : NodeId) :
    (r.withMark mark).insertAt block index n =
      (r.insertAt block index n).map fun (s, done) => (s.withMark mark, done) :=
  attach_withMark block n _

theorem Region.insertBefore_withMark (anchor n : NodeId) :
    (r.withMark mark).insertBefore anchor n =
      (r.insertBefore anchor n).map fun (s, done) => (s.withMark mark, done) := by
  have node : (r.withMark mark).node? anchor = r.node? anchor := rfl
  have held (block : Option NodeId) : (r.withMark mark).block? block = r.block? block := by
    cases block <;> rfl
  simp only [insertBefore, node, held, insertAt_withMark]
  cases r.node? anchor with
  | none => rfl
  | some node =>
    simp only [Option.bind_eq_bind, Option.bind_some]
    cases r.block? node.parent with
    | none => rfl
    | some ns =>
      simp only [Option.bind_some]
      split <;> rfl

theorem Region.moveBefore_withMark (n anchor : NodeId) : (r.withMark mark).moveBefore n anchor =
    (r.moveBefore n anchor).map fun (s, done) => (s.withMark mark, done) := by
  have node (m : NodeId) : (r.withMark mark).node? m = r.node? m := rfl
  have held (block : Option NodeId) : (r.withMark mark).block? block = r.block? block := by
    cases block <;> rfl
  have put (ns : List NodeId) (block : Option NodeId) : (r.withMark mark).setBlock ns block =
      (r.setBlock ns block).withMark mark := by cases block <;> rfl
  simp only [moveBefore, node, held, put]
  split
  · rfl
  cases r.node? n with
  | none => rfl
  | some node =>
    simp only [Option.bind_eq_bind, Option.bind_some]
    cases r.node? anchor with
    | none => rfl
    | some target =>
      simp only [Option.bind_some]
      split
      · rfl
      cases r.block? node.parent with
      | none => rfl
      | some ns =>
        simp only [Option.bind_some]
        split <;> rfl

theorem Region.replaceUses_withMark (old new : ValueId) (scope : NodeId) :
    (r.withMark mark).replaceUses old new scope =
      (r.replaceUses old new scope).map fun (s, count) => (s.withMark mark, count) := by
  have node : (r.withMark mark).node? scope = r.node? scope := rfl
  have walk : (r.withMark mark).walk = r.walk := walk_congr rfl
  simp only [replaceUses, node, walk]
  cases r.node? scope with
  | none => rfl
  | some node =>
    refine congrArg some ?_
    exact @List.foldl_hom _ _ _ (fun (state : Region × Nat) => (state.1.withMark mark, state.2))
      _ _ _ (r, 0) fun _ _ => rfl

theorem Levels.applyTo_withMark (levels : Levels) :
    levels.applyTo (r.withMark mark) = (levels.applyTo r).map (·.withMark mark) := by
  refine foldlM_map (Region.withMark · mark) (fun s entry => ?_) levels.entries r
  have node : (s.withMark mark).node? entry.1 = s.node? entry.1 := rfl
  simp only [node]
  cases s.node? entry.1 <;> rfl

end Mark

section Forward

variable {mark : Bool}

/-- A state of building chains, in a region with another mark. -/
def Forwarding.withMark (s : Forwarding) (mark : Bool) : Forwarding :=
  { s with region := s.region.withMark mark }

theorem Forwarding.addBuffer_withMark (s : Forwarding) (type : ValueType) (span : Span) :
    (s.withMark mark).addBuffer type span =
      (s.addBuffer type span).map fun (v, t) => (v, t.withMark mark) := by
  simp only [addBuffer, withMark, Region.freshName_withMark, Region.addNode_withMark,
    Region.insertAt_withMark]
  cases (s.region.addNode _ _ _ _).2.insertAt _ _ _ with
  | none => rfl
  | some made =>
    have results : (made.1.withMark mark).results = made.1.results := rfl
    simp only [Option.map_some, Option.bind_eq_bind, Option.bind_some, results]
    cases (made.1.results _).head? <;> rfl

theorem Forwarding.place_withMark (mark : Bool) (s : Forwarding) (consumer copy : NodeId) (level : Nat) :
    (s.withMark mark).place consumer copy level =
      (s.place consumer copy level).map (·.withMark mark) := by
  have leveled : (s.withMark mark).region.setLevel copy (some level) =
      (s.region.setLevel copy (some level)).withMark mark := rfl
  simp only [place, leveled, Region.insertBefore_withMark]
  cases (s.region.setLevel copy (some level)).insertBefore consumer copy <;> rfl

theorem Forwarding.addCopy_withMark (chain : CopyChain) (type : ValueType) (span : Span)
    (state : Forwarding × ValueId) (level : Nat) :
    addCopy chain type span (state.1.withMark mark, state.2) level =
      (addCopy chain type span state level).map fun (t, v) => (t.withMark mark, v) := by
  obtain ⟨s, current⟩ := state
  simp only [addCopy, addBuffer_withMark]
  split
  · cases s.addBuffer type span with
    | none => rfl
    | some made =>
      obtain ⟨buffer, t⟩ := made
      have placed := place_withMark mark { t with
        region := (t.region.addNode .copy [current, buffer] [] span).2 } chain.consumer
        (t.region.addNode .copy [current, buffer] [] span).1 level
      simp only [withMark] at placed
      simp only [Option.map_some, Option.bind_eq_bind, Option.bind_some, withMark,
        Region.addNode_withMark, placed]
      cases place _ _ _ _ <;> rfl
  · have placed := place_withMark mark { s with
      region := (s.region.addNode .copy [current] [(some (s.region.freshName forwardStem), type)]
        span).2 } chain.consumer (s.region.addNode .copy [current]
        [(some (s.region.freshName forwardStem), type)] span).1 level
    simp only [withMark] at placed
    simp only [withMark, Region.freshName_withMark, Region.addNode_withMark, placed]
    have results (t : Region) : (t.withMark mark).results = t.results := rfl
    rw [results]
    cases (Region.results _ _).head? with
    | none => rfl
    | some result =>
      simp only [Option.bind_eq_bind, Option.bind_some]
      cases place _ _ _ _ <;> rfl

theorem Forwarding.addChain_withMark (s : Forwarding) (chain : CopyChain) :
    (s.withMark mark).addChain chain = (s.addChain chain).map (·.withMark mark) := by
  have value : (s.withMark mark).region.value? chain.carrier.id =
    s.region.value? chain.carrier.id := rfl
  have node : (s.withMark mark).region.node? chain.producer = s.region.node? chain.producer := rfl
  simp only [addChain, value, node]
  cases s.region.value? chain.carrier.id with
  | none => rfl
  | some value =>
    cases s.region.node? chain.producer with
    | none => rfl
    | some producer =>
      have copies := foldlM_map (fun state : Forwarding × ValueId =>
        (state.1.withMark mark, state.2)) (addCopy_withMark chain value.type producer.span)
        chain.levels (s, chain.carrier.id)
      simp only [Option.bind_eq_bind, Option.bind_some]
      rw [copies]
      cases chain.levels.foldlM (addCopy chain value.type producer.span) (s, chain.carrier.id) with
      | none => rfl
      | some made =>
        have uses := @Region.replaceUses_withMark made.1.region mark
          chain.carrier.id made.2 chain.consumer
        simp only [Option.map_some, Option.bind_some, withMark, uses]
        cases made.1.region.replaceUses chain.carrier.id made.2 chain.consumer <;> rfl

/-- Forwarding leaves the mark of a region as it is, and does not read it. -/
theorem Region.forward_withMark (r : Region) (levels : Levels) (b : Bypasses) :
    (r.withMark mark).forward levels b =
      (r.forward levels b).map fun (s, f) => (s.withMark mark, f) := by
  have cleared : (r.withMark mark).clearLevels = r.clearLevels.withMark mark := rfl
  simp only [forward, cleared, Levels.applyTo_withMark]
  cases levels.applyTo r.clearLevels with
  | none => rfl
  | some leveled =>
    have chains := foldlM_map (Forwarding.withMark · mark)
      Forwarding.addChain_withMark b.chains (.start leveled)
    simp only [Option.map_some, Option.bind_eq_bind, Option.bind_some]
    change ((b.chains.foldlM Forwarding.addChain ((Forwarding.start leveled).withMark mark)).bind
      fun s => some (s.region, s.done)) = _
    rw [chains]
    cases b.chains.foldlM Forwarding.addChain (.start leveled) <;> rfl

end Forward

section Compact

variable {r : Region} {mark : Bool}

/-- Two regions where moves have been counted, one with another mark. -/
theorem Region.gather_withMark (r : Region) : (r.withMark mark).gather =
    r.gather.map fun (s, moved) => (s.withMark mark, moved) := by
  let φ (state : Region × Nat) : Region × Nat := (state.1.withMark mark, state.2)
  have move (anchor : NodeId) (state : Region × Nat) (n : NodeId) :
      countMove anchor (φ state) n = (countMove anchor state n).map φ := by
    simp only [countMove, φ, moveBefore_withMark]
    cases state.1.moveBefore n anchor <;> rfl
  have carried (s : Region) (n anchor : NodeId) :
      (s.withMark mark).carriedBefore n anchor = s.carriedBefore n anchor := by
    have carry : (s.withMark mark).carry = s.carry := carry_congr rfl rfl
    simp only [carriedBefore, carry]
    rfl
  have member (anchor : NodeId) (state : Region × Nat) (n : NodeId) :
      gatherMember anchor (φ state) n = (gatherMember anchor state n).map φ := by
    simp only [gatherMember, φ, carried]
    cases state.1.carriedBefore n anchor with
    | none => rfl
    | some moved => exact foldlM_map φ (move anchor) moved state
  have group (state : Region × Nat) (group : Nat × List NodeId) :
      gatherGroup (φ state) group = (gatherGroup state group).map φ := by
    simp only [gatherGroup]
    split
    next anchor _ => exact foldlM_map φ (member anchor) group.2.dropLast state
    next => rfl
  exact foldlM_map φ group r.groups (r, 0)

theorem Region.restage_withMark (r : Region) (merges : List (Nat × Nat)) (gran : Nat) :
    (r.withMark mark).restage merges gran =
      ((r.restage merges gran).1.withMark mark, (r.restage merges gran).2) := by
  have node (stages : List Nat) (s : Region) (n : NodeId) :
      restageNode stages (s.withMark mark) n = (restageNode stages s n).withMark mark := by
    have level : (s.withMark mark).level? n = s.level? n := rfl
    simp only [restageNode, level]
    split <;> rfl
  refine Prod.ext ?_ rfl
  exact @List.foldl_hom _ _ _ (Region.withMark · mark) _ _ _ r
    (node (stageMap r.topStage merges gran))

/-- Gathering and staging end alike in regions that differ in their mark. -/
theorem Region.compact_withMark (r : Region) (b : Bypasses) (o : Options) :
    (r.withMark mark).compact b o = r.compact b o := by
  simp only [compact, gather_withMark]
  cases r.gather with
  | none => rfl
  | some gathered =>
    simp only [Option.map_some, Option.bind_eq_bind, Option.bind_some]
    split
    · rw [restage_withMark]
      rfl
    · rfl

end Compact

section Legalize

variable {r s : Region}

theorem Region.forward_unscheduled (levels : Levels) (b : Bypasses) :
    r.unscheduled.forward levels b =
      (r.forward levels b).map fun (s, f) => (s.withMark false, f) := by
  have cleared : r.clearLevels.clearLevels = r.clearLevels := by
    simp [clearLevels]
  have forgets : r.clearLevels.forward levels b = r.forward levels b := by
    unfold forward
    rw [cleared]
  rw [unscheduled, forward_withMark, forgets]

/-- A run on a region is a run on the region without levels and mark, up to the digest of what it
starts from. -/
theorem Region.legalize_eq_unscheduled (r : Region) (o : Options) : r.legalize o = (do
    let inputFingerprint ← orFault r.fingerprint
    let (report, out) ← r.unscheduled.legalize o
    return ({ report with inputFingerprint }, out)) := by
  have prints := r.fingerprint_unscheduled_isSome
  have plans : r.unscheduled.plan o = r.plan o := sameNodes_unscheduled.plan rfl o
  simp only [legalize, plans, forward_unscheduled]
  cases hprint : r.fingerprint with
  | none => rfl
  | some print =>
    obtain ⟨print', hprint'⟩ := Option.isSome_iff_exists.mp (prints.trans (by rw [hprint]; rfl))
    rw [hprint']
    cases r.plan o with
    | error => rfl
    | ok plan =>
      simp only [orFault, bind, Except.bind]
      cases r.forward plan.levels plan.bypasses with
      | none => rfl
      | some forwarded =>
        simp only [Option.map_some, compact_withMark]
        cases forwarded.1.compact plan.bypasses o with
        | none => rfl
        | some compacted =>
          simp only [report]
          cases compacted.1.fingerprint <;> rfl

end Legalize

/-- What is left in a region from earlier runs does not influence a run. From two regions that differ
in the levels of nodes and in the mark at most, runs with the same options stop for the same reason,
or they end with the same region and with reports that differ in the digests of what they start from
at most. -/
theorem legalize_ignores_schedule {r s : Region} (same : r.unscheduled = s.unscheduled)
    (o : Options) :
    (∃ stop, r.legalize o = .error stop ∧ s.legalize o = .error stop) ∨
    ∃ report print out, r.legalize o = .ok (report, out) ∧
      s.legalize o = .ok ({ report with inputFingerprint := print }, out) := by
  have prints : r.fingerprint.isSome = s.fingerprint.isSome := by
    rw [← r.fingerprint_unscheduled_isSome, same, s.fingerprint_unscheduled_isSome]
  rw [r.legalize_eq_unscheduled, s.legalize_eq_unscheduled, same]
  cases hr : r.fingerprint with
  | none =>
    have hs : s.fingerprint = none := by simpa [hr] using prints
    rw [hs]
    exact Or.inl ⟨.fault, rfl, rfl⟩
  | some print =>
    obtain ⟨print', hs⟩ := Option.isSome_iff_exists.mp (prints.symm.trans (by rw [hr]; rfl))
    rw [hs]
    cases s.unscheduled.legalize o with
    | error stop => exact Or.inl ⟨stop, rfl, rfl⟩
    | ok found => exact Or.inr ⟨{ found.1 with inputFingerprint := print }, print', found.2, rfl, rfl⟩

/-- A source text with an edge that skips a stage on its way into a loop. -/
def loopBehindSource : String :=
  "func @k(%s: tensor<1xi1>) \x7b
    %a = op \"x\"(%s) : tensor<1xi1>
    %b = op \"x\"(%a) : tensor<1xi1>
    %c = constant 1 : i1
    for %i = 0 to 1 \x7b
      op \"y\"(%a, %b, %c)
    \x7d
  \x7d"

/-- All nodes get stale levels, those that are not scheduled and those in the loop as well. -/
theorem legalize_ignores_schedule_stale : ∃ loaded r report print out,
    load loopBehindSource = .ok loaded ∧ r ∈ loaded.regions ∧ r.nodes.size = 5 ∧ r.bodyLevels = [] ∧
    ∃ stale, stale = (r.withLevels fun n => some (n.index + 7)).withMark true ∧
      r.unscheduled = stale.unscheduled ∧ r.legalize ⟨true, 2⟩ = .ok (report, out) ∧
      stale.legalize ⟨true, 2⟩ = .ok ({ report with inputFingerprint := print }, out) := by
  obtain ⟨loaded, hload, r, hr, report, out, hlegal, test⟩ :=
    @exists_of_anyLegalized loopBehindSource _ (by rfl) ⟨true, 2⟩
      (fun r _ => r.nodes.size = 5 && r.bodyLevels = []) (by decide +kernel)
  simp only [Bool.and_eq_true, decide_eq_true_eq] at test
  have same := (r.unscheduled_withLevels (fun n => some (n.index + 7)) true).symm
  rcases legalize_ignores_schedule same ⟨true, 2⟩ with ⟨stop, stopped, -⟩ | ⟨_, print, _, ok, again⟩
  · cases hlegal.symm.trans stopped
  · cases hlegal.symm.trans ok
    exact ⟨loaded, r, report, print, out, hload, hr, test.1, test.2, _, rfl, same, hlegal, again⟩

end Staging
