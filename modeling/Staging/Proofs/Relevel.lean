import Staging.Legalize
import Staging.Proofs.Index

namespace Staging

/-- Two regions differ at most in the order of their bodies, in levels and in what else is not
used to find dependences. -/
structure Region.SameNodes (r s : Region) : Prop where
  size : s.nodes.size = r.nodes.size
  args : s.args = r.args
  kind : s.kind? = r.kind?
  operands : s.operands = r.operands
  results : s.results = r.results
  parent : s.parent? = r.parent?
  value : s.value? = r.value?

section SameNodes

variable {r s : Region}

theorem Region.SameNodes.refl (r : Region) : r.SameNodes r :=
  ⟨rfl, rfl, rfl, rfl, rfl, rfl, rfl⟩

theorem Region.SameNodes.trans {t : Region} (h : r.SameNodes s) (h' : s.SameNodes t) :
    r.SameNodes t :=
  ⟨h'.size.trans h.size, h'.args.trans h.args, h'.kind.trans h.kind,
    h'.operands.trans h.operands, h'.results.trans h.results, h'.parent.trans h.parent,
    h'.value.trans h.value⟩

theorem Region.SameNodes.bodyOf (h : r.SameNodes s) : s.bodyOf = r.bodyOf := by
  funext n
  simp [Region.bodyOf, h.kind]

theorem Region.SameNodes.within (h : r.SameNodes s) : s.Within = r.Within := by
  funext t n
  simp [Region.Within, show s.Child = r.Child from by funext; simp [Region.Child, h.bodyOf]]

theorem Region.SameNodes.mentions (h : r.SameNodes s) : s.Mentions = r.Mentions := by
  funext t v
  simp [Region.Mentions, h.within, h.operands]

theorem Region.SameNodes.readsFrom (h : r.SameNodes s) : s.ReadsFrom = r.ReadsFrom := by
  funext x y
  simp [Region.ReadsFrom, h.mentions, h.results]

theorem Region.SameNodes.isLoop (h : r.SameNodes s) : s.isLoop = r.isLoop := by
  funext n
  simp [Region.isLoop, h.kind]

theorem Region.SameNodes.isDataflow (h : r.SameNodes s) : s.isDataflow = r.isDataflow := by
  funext n
  simp [Region.isDataflow, h.kind]

theorem Region.SameNodes.definition (h : r.SameNodes s) : s.definition? = r.definition? := by
  funext v
  simp [Region.definition?, h.value]

theorem Region.SameNodes.ivs (h : r.SameNodes s) : s.ivs = r.ivs := by
  funext n
  simp [Region.ivs, h.kind]

theorem Region.Coherent.of_sameNodes (coherent : r.Coherent) (h : r.SameNodes s)
    (perm : s.body.Perm r.body) : s.Coherent := by
  have child : s.Child = r.Child := by
    funext p c
    simp [Region.Child, h.bodyOf]
  refine ⟨⟨fun n hn => ?_, perm.nodup_iff.mpr coherent.bodyNodup, fun n hn => ?_,
    fun p c hc => ?_, fun p => ?_, fun p c hc => ?_, fun p c hc => ?_⟩, fun i v hv => ?_,
    fun n i v hv => ?_, fun n v hv => ?_, fun n node hn => ?_, fun n mem kind hm => ?_⟩
  · rw [h.size]
    exact coherent.bodyKnown n (perm.mem_iff.mp hn)
  · rw [h.parent]
    exact coherent.bodyParent n (perm.mem_iff.mp hn)
  · rw [h.size]
    exact coherent.childKnown p c (child ▸ hc)
  · rw [h.bodyOf]
    exact coherent.childNodup p
  · rw [h.parent]
    exact coherent.childParent p c (child ▸ hc)
  · exact coherent.childDeeper p c (child ▸ hc)
  · rw [h.definition]
    exact coherent.argDefined i v (h.args ▸ hv)
  · rw [h.definition]
    exact coherent.resultDefined n i v (h.results ▸ hv)
  · rw [h.definition]
    exact coherent.ivDefined n v (h.ivs ▸ hv)
  · obtain ⟨old, ho⟩ := node?_eq_some (h.size ▸ index_lt_of_node? hn : n.index < r.nodes.size)
    have kind : some node.kind = some old.kind := by
      simpa [Region.kind?, hn, ho] using congrFun h.kind n
    have operands : node.operands = old.operands := by
      simpa [Region.operands, hn, ho] using congrFun h.operands n
    have results : node.results = old.results := by
      simpa [Region.results, hn, ho] using congrFun h.results n
    rw [Option.some.inj kind, operands, results]
    exact coherent.fits n old ho
  · have hm' : (mem, kind) ∈ r.touched n := by simpa [touched, h.kind, h.operands] using hm
    simpa [isMemref, h.value] using coherent.buffers n mem kind hm'

theorem Region.Forest.of_sameNodes (forest : r.Forest) (h : r.SameNodes s)
    (perm : s.body.Perm r.body) : s.Forest := by
  have child : s.Child = r.Child := by
    funext p c
    simp [Region.Child, h.bodyOf]
  have inner : ∀ p, s.block? (some p) = r.block? (some p) := fun p => by
    simp [block?, h.kind]
  refine ⟨fun block ns hb n hn => ?_, fun block ns hb => ?_, fun block ns hb n hn => ?_,
    fun p c hc hw => forest.acyclic p c (child ▸ hc) ?_⟩
  · rw [h.size]
    cases block with
    | none =>
      obtain rfl := Option.some.inj hb
      exact forest.bodyKnown (perm.mem_iff.mp hn)
    | some p => exact forest.known _ ns (inner p ▸ hb) n hn
  · cases block with
    | none =>
      obtain rfl := Option.some.inj hb
      exact perm.nodup_iff.mpr forest.bodyNodup
    | some p => exact forest.once _ ns (inner p ▸ hb)
  · rw [h.parent]
    cases block with
    | none =>
      obtain rfl := Option.some.inj hb
      exact forest.bodyParent (perm.mem_iff.mp hn)
    | some p => exact forest.named _ ns (inner p ▸ hb) n hn
  · rw [Region.Within, ← child]
    exact hw

/-- Operands stay defined before they are used where each node still stands behind those it reads
from. -/
theorem Region.Sound.scoped_of_sameNodes (sound : r.Sound) (h : r.SameNodes s)
    (perm : s.body.Perm r.body) (ordered : s.body.Pairwise fun x y => ¬ r.ReadsFrom x y) :
    s.Scoped s.args s.body := by
  rw [h.args]
  exact (sound.scoped_of_perm perm ordered).transfer (fun _ _ n _ => congrFun h.bodyOf n)
    (fun _ _ n _ => congrFun h.ivs n) (fun _ _ n _ => congrFun h.results n)
    fun _ _ n _ v hv => Or.inr ⟨h.operands ▸ hv, id⟩

theorem Region.Sound.of_sameNodes (sound : r.Sound) (h : r.SameNodes s) (perm : s.body.Perm r.body)
    (ordered : s.body.Pairwise fun x y => ¬ r.ReadsFrom x y) : s.Sound := by
  refine ⟨sound.toForest.of_sameNodes h perm, fun i v hv => ?_, fun n i v hv => ?_,
    fun n v hv => ?_, sound.scoped_of_sameNodes h perm ordered⟩
  · rw [h.definition]
    exact sound.argDefined i v (h.args ▸ hv)
  · rw [h.definition]
    exact sound.resultDefined n i v (h.results ▸ hv)
  · rw [h.definition]
    exact sound.ivDefined n v (h.ivs ▸ hv)

theorem Region.WellFormed.of_sameNodes (wf : r.WellFormed) (h : r.SameNodes s)
    (perm : s.body.Perm r.body) (ordered : s.body.Pairwise fun x y => ¬ r.ReadsFrom x y) :
    s.WellFormed :=
  ⟨wf.toCoherent.of_sameNodes h perm, wf.sound.scoped_of_sameNodes h perm ordered⟩

end SameNodes

/-- A region with other levels. -/
def Region.withLevels (r : Region) (level : NodeId → Option Nat) : Region :=
  { r with nodes := r.nodes.mapIdx fun i node => { node with level := level ⟨i⟩ } }

section Levels

variable (r : Region) (level : NodeId → Option Nat)

theorem Region.node?_withLevels (n : NodeId) :
    (r.withLevels level).node? n = (r.node? n).map fun node => { node with level := level n } := by
  simp [withLevels, node?]

theorem Region.level?_withLevels {n : NodeId} (h : n.index < r.nodes.size) :
    (r.withLevels level).level? n = level n := by
  obtain ⟨node, hn⟩ := node?_eq_some h
  simp [Region.level?, node?_withLevels, hn]

theorem Region.sameNodes_withLevels : r.SameNodes (r.withLevels level) := by
  refine ⟨by simp [withLevels], rfl, ?_, ?_, ?_, ?_, rfl⟩
  all_goals
    funext n
    simp only [kind?, operands, results, parent?, node?_withLevels]
    cases r.node? n <;> rfl

theorem Region.withLevels_level? : r.withLevels r.level? = r := by
  have nodes : (r.nodes.mapIdx fun i node => { node with level := r.level? ⟨i⟩ }) = r.nodes := by
    refine Array.ext_getElem? fun i => ?_
    cases h : r.nodes[i]? with
    | none => simp [h]
    | some node => simp [Region.level?, node?, h]
  unfold withLevels
  rw [nodes]

theorem Region.setLevel_withLevels (n : NodeId) (l : Option Nat) :
    (r.withLevels level).setLevel n l = r.withLevels (Function.update level n l) := by
  unfold setLevel modifyNode withLevels
  congr 1
  refine Array.ext_getElem? fun i => ?_
  rw [Array.getElem?_modify]
  by_cases hi : n.index = i
  · have hn : n = ⟨i⟩ := NodeId.ext hi
    subst hn
    simp only [Array.getElem?_mapIdx, if_true, Option.map_map, Function.update_self]
    rfl
  · have hn : (⟨i⟩ : NodeId) ≠ n := fun h => hi (h ▸ rfl)
    simp [hi, Function.update_of_ne hn]

theorem Region.setLevel_eq (n : NodeId) (l : Option Nat) :
    r.setLevel n l = r.withLevels (Function.update r.level? n l) := by
  conv_lhs => rw [← r.withLevels_level?]
  exact r.setLevel_withLevels r.level? n l

theorem Region.clearLevels_eq : r.clearLevels = r.withLevels fun _ => none := by
  unfold clearLevels withLevels
  congr 1
  refine Array.ext_getElem? fun i => ?_
  simp

end Levels

/-- Levels whose nodes are known, each entered once, are all written. -/
theorem Levels.applyTo_eq {levels : Levels} {r : Region} {start : NodeId → Option Nat}
    (nodup : (levels.entries.map Prod.fst).Nodup)
    (known : ∀ n ∈ levels.entries.map Prod.fst, n.index < r.nodes.size) :
    levels.applyTo (r.withLevels start) =
      some (r.withLevels fun n => (levels.get? n).or (start n)) := by
  obtain ⟨entries⟩ := levels
  unfold applyTo get?
  simp only at nodup known ⊢
  induction entries generalizing start with
  | nil => rfl
  | cons entry entries ih =>
    obtain ⟨n, l⟩ := entry
    obtain ⟨new, nodup⟩ := List.nodup_cons.mp nodup
    obtain ⟨node, hn⟩ := Region.node?_eq_some (known n (by simp))
    have step : (do
        let _ ← (r.withLevels start).node? n
        return (r.withLevels start).setLevel n (some l)) =
        some (r.withLevels (Function.update start n (some l))) := by
      simp [Region.node?_withLevels, hn, Region.setLevel_withLevels]
    rw [List.foldlM_cons, step]
    refine (ih nodup fun m hm => known m (List.mem_cons_of_mem _ hm)).trans ?_
    congr 2
    funext m
    by_cases hm : n = m
    · subst hm
      simp [Table.get?, Table.get?_eq_none new]
    · simp [Table.get?, hm, Function.update_of_ne (Ne.symm hm)]

/-- Restaging maps the levels of the body, and no others. -/
theorem Region.restage_eq {r : Region} (known : ∀ n ∈ r.body, n.index < r.nodes.size)
    (nodup : r.body.Nodup) (merges : List (Nat × Nat)) (gran : Nat) :
    (r.restage merges gran).1 = r.withLevels fun n =>
      if n ∈ r.body then (r.level? n).bind fun l => (stageMap r.topStage merges gran)[l]?
      else r.level? n := by
  have main : ∀ (stages : List Nat) (ns : List NodeId) (level : NodeId → Option Nat), ns.Nodup →
      (∀ n ∈ ns, n.index < r.nodes.size) →
      ns.foldl (restageNode stages) (r.withLevels level) = r.withLevels fun n =>
        if n ∈ ns then (level n).bind fun l => stages[l]? else level n := by
    intro stages ns
    induction ns with
    | nil => intro level _ _; simp
    | cons n ns ih =>
      intro level nodup known
      obtain ⟨new, nodup⟩ := List.nodup_cons.mp nodup
      have step : restageNode stages (r.withLevels level) n =
          r.withLevels (Function.update level n ((level n).bind fun l => stages[l]?)) := by
        unfold restageNode
        rw [level?_withLevels _ _ (known n (by simp))]
        cases hl : level n with
        | none =>
          dsimp only
          rw [Option.bind_none, ← hl, Function.update_eq_self]
        | some l => exact setLevel_withLevels r level n _
      rw [List.foldl_cons, step, ih _ nodup fun m hm => known m (List.mem_cons_of_mem _ hm)]
      congr 1
      funext m
      by_cases hm : m = n
      · subst hm
        simp [new]
      · simp [hm]
  have h := main (stageMap r.topStage merges gran) r.body r.level? nodup known
  rw [withLevels_level?] at h
  exact h

end Staging
