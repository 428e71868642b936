import Staging.Load
import Staging.Proofs.Building
import Staging.Proofs.Creating
import Staging.Proofs.Places

namespace Staging

/-- What holds of a region while it is made from a function: besides being coherent, it allocates
memrefs only. -/
structure Region.Lawful (r : Region) : Prop extends r.Coherent where
  allocated : ∀ n stack, r.kind? n = some (.alloc stack) → ∀ v ∈ r.results n, r.isMemref v = true

section Lawful

variable {r s : Region} {kind : NodeKind} {operands : List ValueId} {count : Nat} {n : NodeId}
  {block : Option NodeId}

theorem Region.Lawful.of_sameNodes (lawful : r.Lawful) (same : r.SameNodes s)
    (perm : s.body.Perm r.body) : s.Lawful := by
  refine ⟨lawful.toCoherent.of_sameNodes same perm, fun m stack hk v hv => ?_⟩
  simpa [isMemref, same.value] using
    lawful.allocated m stack (same.kind ▸ hk) v (same.results ▸ hv)

theorem Region.Lawful.created (lawful : r.Lawful) (h : r.Created kind operands count n s)
    (fits : kind.Fits operands.length count) (empty : kind.body = [])
    (buffers : ∀ mem access, (mem, access) ∈ s.touched n → s.isMemref mem = true)
    (memrefs : ∀ stack, kind = .alloc stack → ∀ v ∈ s.results n, s.isMemref v = true) :
    s.Lawful := by
  refine ⟨lawful.toCoherent.created h fits empty buffers, fun m stack hk v hv => ?_⟩
  rcases h.cases (kind?_known hk) with old | rfl
  · rw [h.ext.kind? old] at hk
    rw [h.ext.results old] at hv
    exact h.ext.isMemref (lawful.allocated m stack hk v hv)
  · exact memrefs stack (Option.some.inj (h.kind.symm.trans hk)) v hv

theorem Region.Lawful.loop (lawful : r.Lawful) {iv : ValueId} {lower upper : Int}
    (h : r.Created (.loop iv lower upper []) [] 0 n s) : s.Lawful := by
  refine lawful.created h ⟨rfl, rfl⟩ rfl (fun mem access hm => ?_) nofun
  simp [Region.touched, h.kind] at hm

theorem Region.Lawful.attached (lawful : r.Lawful) (h : r.Attached block n s)
    (known : n.index < r.nodes.size) (top : r.parent? n = none) (free : n ∉ r.body)
    (deeper : ∀ p, block = some p → p.index < n.index) : s.Lawful := by
  refine ⟨lawful.toCoherent.attached h known top free deeper, fun m stack hk v hv => ?_⟩
  obtain ⟨body, same⟩ := h.kind m
  have old : r.kind? m = some (.alloc stack) := by
    rw [hk] at same
    cases hr : r.kind? m with
    | none => simp [hr] at same
    | some kind => cases kind <;> simp_all [NodeKind.withBody]
  simpa [isMemref, h.value] using lawful.allocated m stack old v (h.results ▸ hv)

end Lawful

/-- Nodes were created, and those that were there say the same as before, but for what stands in
them. -/
structure Region.Retains (r s : Region) : Prop where
  args : s.args = r.args
  nodeCount : r.nodes.size ≤ s.nodes.size
  operands : ∀ m, m.index < r.nodes.size → s.operands m = r.operands m
  results : ∀ m, m.index < r.nodes.size → s.results m = r.results m
  ivs : ∀ m, m.index < r.nodes.size → s.ivs m = r.ivs m
  isLoop : ∀ m, m.index < r.nodes.size → s.isLoop m = r.isLoop m
  parent : ∀ m, m.index < r.nodes.size → s.parent? m = r.parent? m

/-- A region has grown: nodes were created, and `ns` were put at the end of a block. -/
structure Region.Grown (r : Region) (block : Option NodeId) (ns : List NodeId) (s : Region) : Prop
    extends r.Retains s where
  bodyOf : ∀ m, m.index < r.nodes.size →
    s.bodyOf m = if block = some m then r.bodyOf m ++ ns else r.bodyOf m
  body : s.body = if block = none then r.body ++ ns else r.body

section Grown

variable {r s t : Region} {block : Option NodeId} {ns : List NodeId}

theorem Region.Retains.refl (r : Region) : r.Retains r :=
  ⟨rfl, le_rfl, fun _ _ => rfl, fun _ _ => rfl, fun _ _ => rfl, fun _ _ => rfl, fun _ _ => rfl⟩

theorem Region.Retains.known (h : r.Retains s) {m : NodeId} (hm : m.index < r.nodes.size) :
    m.index < s.nodes.size :=
  lt_of_lt_of_le hm h.nodeCount

theorem Region.Retains.trans (h : r.Retains s) (h' : s.Retains t) : r.Retains t :=
  ⟨h'.args.trans h.args, h.nodeCount.trans h'.nodeCount,
    fun m hm => (h'.operands m (h.known hm)).trans (h.operands m hm),
    fun m hm => (h'.results m (h.known hm)).trans (h.results m hm),
    fun m hm => (h'.ivs m (h.known hm)).trans (h.ivs m hm),
    fun m hm => (h'.isLoop m (h.known hm)).trans (h.isLoop m hm),
    fun m hm => (h'.parent m (h.known hm)).trans (h.parent m hm)⟩

theorem Region.Retains.of_sameNodes (same : r.SameNodes s) : r.Retains s :=
  ⟨same.args, same.size.ge, fun m _ => congrFun same.operands m, fun m _ => congrFun same.results m,
    fun m _ => congrFun same.ivs m, fun m _ => congrFun same.isLoop m,
    fun m _ => congrFun same.parent m⟩

theorem Region.Grown.refl (r : Region) (block : Option NodeId) : r.Grown block [] r := by
  refine ⟨.refl r, fun m _ => ?_, ?_⟩ <;> simp

theorem Region.Grown.trans {ms : List NodeId} (h : r.Grown block ns s)
    (h' : s.Grown block ms t) : r.Grown block (ns ++ ms) t := by
  refine ⟨h.toRetains.trans h'.toRetains, fun m hm => ?_, ?_⟩
  · rw [h'.bodyOf m (h.known hm), h.bodyOf m hm]
    split <;> simp
  · rw [h'.body, h.body]
    split <;> simp

/-- What happens inside a new loop is not seen from outside. -/
theorem Region.Grown.inside {n : NodeId} (h : r.Grown block [] s) (new : r.nodes.size ≤ n.index)
    (h' : s.Grown (some n) ns t) : r.Grown block [] t := by
  refine ⟨h.toRetains.trans h'.toRetains, fun m hm => ?_, ?_⟩
  · have other : some n ≠ some m := by
      rintro ⟨⟩
      omega
    rw [h'.bodyOf m (h.known hm), if_neg other, h.bodyOf m hm]
  · rw [h'.body, if_neg (by simp), h.body]

theorem Region.Grown.of_extends (ext : r.Extends s) (count : r.nodes.size ≤ s.nodes.size)
    (body : s.body = r.body) (block : Option NodeId) : r.Grown block [] s := by
  refine ⟨⟨ext.args, count, fun m hm => ext.operands hm, fun m hm => ext.results hm,
    fun m hm => ext.ivs hm, fun m hm => by simp [Region.isLoop, ext.kind? hm],
    fun m hm => ext.parent? hm⟩, fun m hm => ?_, ?_⟩
  · simp [ext.bodyOf hm]
  · simp [body]

theorem Region.Grown.sameNodes (h : r.Grown block ns s) (same : s.SameNodes t)
    (body : t.body = s.body) : r.Grown block ns t :=
  ⟨h.toRetains.trans (.of_sameNodes same), fun m hm => same.bodyOf ▸ h.bodyOf m hm, body ▸ h.body⟩

theorem Region.Grown.attached {n : NodeId} (h : r.Grown block [] s) (new : r.nodes.size ≤ n.index)
    (h' : s.Attached block n t) : r.Grown block [n] t := by
  refine ⟨⟨h'.args.trans h.args, h'.nodeCount ▸ h.nodeCount,
    fun m hm => h'.operands ▸ h.operands m hm, fun m hm => h'.results ▸ h.results m hm,
    fun m hm => h'.ivs ▸ h.ivs m hm, fun m hm => h'.isLoop ▸ h.isLoop m hm, fun m hm => ?_⟩,
    fun m hm => ?_, ?_⟩
  · have other : m ≠ n := by
      rintro rfl
      omega
    rw [h'.parent, if_neg other, h.parent m hm]
  · rw [h'.bodyOf, h.bodyOf m hm]
    split <;> simp
  · rw [h'.body, h.body]
    split <;> simp

/-- A block of known nodes stays scoped while a block that is not in it grows. -/
theorem Region.Grown.scoped (h : r.Grown block ns s) {visible : List ValueId} {ms : List NodeId}
    (scope : r.Scoped visible ms) (known : ∀ t ∈ ms, ∀ m, r.Within t m → m.index < r.nodes.size)
    (apart : ∀ t ∈ ms, ∀ m, r.Within t m → block ≠ some m) : s.Scoped visible ms := by
  refine scope.transfer (fun t ht m hm => ?_) (fun t ht m hm => h.ivs m (known t ht m hm))
    (fun t ht m hm => h.results m (known t ht m hm)) fun t ht m hm v hv => Or.inr ⟨?_, id⟩
  · rw [h.bodyOf m (known t ht m hm), if_neg (apart t ht m hm)]
  · exact h.operands m (known t ht m hm) ▸ hv

end Grown

/-- Calls build the region, each new node and value with the identifier that was drawn for it. -/
def Region.Drawn (r : Region) : Prop :=
  ∃ w : Staging.Numbered, w.Built ∧ w.region = r

section Drawn

variable {r s : Region}

theorem Region.Drawn.call (drawn : r.Drawn) {c : Call} {answer : Answer} (allowed : c.Allowed r)
    (hollow : c.Hollow) (answered : c.perform r = some (answer, s)) : s.Drawn := by
  obtain ⟨w, built, rfl⟩ := drawn
  exact ⟨w.after c s, built.call allowed hollow answered, rfl⟩

theorem Region.Drawn.label (drawn : r.Drawn) (same : r.SameNodes s) (body : s.body = r.body) :
    s.Drawn := by
  obtain ⟨w, built, rfl⟩ := drawn
  exact ⟨{ w with region := s }, built.label same body, rfl⟩

end Drawn

/-- A new node takes the identifiers that come next, as does all that is put inside it. -/
theorem Region.Created.places {r s t : Region} {kind : NodeKind} {operands : List ValueId}
    {count : Nat} {n : NodeId} (created : r.Created kind operands count n s)
    (defs : t.defs n = s.defs n) (inside : t.Places .id s.supply (t.bodyOf n) t.supply) :
    t.Places .id r.supply [n] t.supply := by
  obtain ⟨k, numbers, size⟩ := created.numbers
  have length : (t.defs n).length = k := by
    rw [defs, Region.defs, numbers]
    simp
  refine .cons created.new ?_ ?_ .nil
  · rw [length, defs]
    exact (List.map_id _).trans numbers
  · rw [length]
    have supply : s.supply = ⟨r.supply.nodes + 1, r.supply.values + k⟩ := by
      simp [Region.supply, created.nodeCount, size]
    exact supply ▸ inside

/-- What is there once a statement has been lowered to a node that is in no block. -/
structure Region.Opened (r : Region) (visible : List ValueId) (n : NodeId) (s : Region) :
    Prop where
  lawful : s.Lawful
  grown : ∀ block, r.Grown block [] s
  new : r.nodes.size ≤ n.index
  known : n.index < s.nodes.size
  parent : s.parent? n = none
  inScope : s.Scoped visible [n]
  places : s.Places .id r.supply [n] s.supply
  drawn : r.Drawn → s.Drawn

/-- What is there once statements have been lowered to nodes at the end of a block. -/
structure Region.Filled (r : Region) (block : Option NodeId) (visible : List ValueId)
    (ns : List NodeId) (s : Region) : Prop where
  lawful : s.Lawful
  grown : r.Grown block ns s
  new : ∀ n ∈ ns, r.nodes.size ≤ n.index
  known : ∀ n ∈ ns, n.index < s.nodes.size
  inScope : s.Scoped visible ns
  places : s.Places .id r.supply ns s.supply
  drawn : r.Drawn → s.Drawn

section Blocks

variable {r s t : Region} {block : Option NodeId} {visible : List ValueId} {n : NodeId}
  {ms ns : List NodeId}

theorem Region.Opened.sameNodes (h : r.Opened visible n s) (same : s.SameNodes t)
    (body : t.body = s.body) : r.Opened visible n t := by
  refine ⟨h.lawful.of_sameNodes same (body ▸ List.Perm.refl _),
    fun block => (h.grown block).sameNodes same body, h.new, same.size ▸ h.known,
    same.parent ▸ h.parent, ?_, ?_, fun before => (h.drawn before).label same body⟩
  · exact h.inScope.transfer (fun _ _ m _ => congrFun same.bodyOf m)
      (fun _ _ m _ => congrFun same.ivs m) (fun _ _ m _ => congrFun same.results m)
      fun _ _ m _ v hv => Or.inr ⟨same.operands ▸ hv, id⟩
  · rw [supply_eq same.size same.value]
    exact h.places.transfer (fun _ _ m _ => congrFun same.bodyOf m)
      fun _ _ m _ => by rw [defs, defs, same.ivs, same.results]

theorem Region.Opened.free (h : r.Opened visible n s) (coherent : r.Coherent) : n ∉ s.body := by
  intro hn
  have old : n ∈ r.body := by simpa [(h.grown none).body] using hn
  have low := coherent.bodyKnown n old
  have high := h.new
  omega

/-- A node that is in no block can be put at the end of any block that was there before it. -/
theorem Region.Opened.attach (h : r.Opened visible n s) (coherent : r.Coherent)
    (loop : ∀ p, block = some p → r.isLoop p = true) :
    ∃ t, s.append block n = some (t, true) ∧ s.Attached block n t ∧
      r.Filled block visible [n] t := by
  have older : ∀ p, block = some p → p.index < r.nodes.size := fun p hp =>
    isLoop_known (loop p hp)
  have deeper : ∀ p, block = some p → p.index < n.index := fun p hp =>
    lt_of_lt_of_le (older p hp) h.new
  obtain ⟨t, made, attached⟩ : ∃ t, s.append block n = some (t, true) ∧ s.Attached block n t := by
    cases block with
    | none => exact append_body h.known h.parent
    | some p =>
      refine append_child ?_ h.known ?_
      · rw [(h.grown none).isLoop p (older p rfl)]
        exact loop p rfl
      · rintro rfl
        exact absurd (deeper p rfl) (lt_irrefl _)
  have apart : ∀ m ∈ [n], ∀ k, s.Within m k → block ≠ some k := by
    rintro m hm k hk rfl
    obtain rfl := List.mem_singleton.mp hm
    have low := h.lawful.index_le hk
    have high := deeper k rfl
    omega
  have answered : (Call.append block n).perform s = some (.done true, t) := by
    rw [Call.perform, made, Option.map_some]
  have takes : (Call.append block n).Allowed s :=
    ⟨h.lawful.forest.free (h.free coherent) h.parent, fun p hp within => apart n (by simp) p within hp⟩
  refine ⟨t, made, attached, h.lawful.attached attached h.known h.parent
    (h.free coherent) deeper, (h.grown block).attached h.new attached, by simpa using h.new,
    by simpa [attached.nodeCount] using h.known, attached.scoped h.inScope apart, ?_,
    fun before => (h.drawn before).call takes trivial answered⟩
  rw [supply_eq attached.nodeCount attached.value]
  refine h.places.transfer (fun m hm k hk => ?_) fun m _ k _ => ?_
  · rw [attached.bodyOf, if_neg (apart m hm k hk)]
  · rw [defs, defs, attached.ivs, attached.results]

theorem Region.Filled.nil (lawful : r.Lawful) (block : Option NodeId)
    (visible : List ValueId) : r.Filled block visible [] r :=
  ⟨lawful, Grown.refl r block, by simp, by simp, .nil, .nil, id⟩

theorem Region.Filled.append (h : r.Filled block visible ms s)
    (older : ∀ p, block = some p → p.index < r.nodes.size)
    (h' : s.Filled block (ms.flatMap s.results ++ visible) ns t) :
    r.Filled block visible (ms ++ ns) t := by
  have known : ∀ u ∈ ms, ∀ m, s.Within u m → m.index < s.nodes.size := fun u hu m hm =>
    h.lawful.known (h.known u hu) hm
  have results : ms.flatMap t.results = ms.flatMap s.results :=
    List.flatMap_congr fun m hm => h'.grown.results m (h.known m hm)
  have apart : ∀ u ∈ ms, ∀ m, s.Within u m → block ≠ some m := by
    rintro u hu m hm rfl
    have low := h.lawful.index_le hm
    have new := h.new u hu
    have old := older m rfl
    omega
  refine ⟨h'.lawful, h.grown.trans h'.grown, fun n hn => ?_, fun n hn => ?_,
    scoped_append.mpr ⟨h'.grown.scoped h.inScope known apart, results ▸ h'.inScope⟩,
    places_append.mpr ⟨s.supply, h.places.transfer (fun u hu m hm => ?_) fun u hu m hm => ?_,
      h'.places⟩, h'.drawn ∘ h.drawn⟩
  · rcases List.mem_append.mp hn with hn | hn
    · exact h.new n hn
    · exact h.grown.nodeCount.trans (h'.new n hn)
  · rcases List.mem_append.mp hn with hn | hn
    · exact lt_of_lt_of_le (h.known n hn) h'.grown.nodeCount
    · exact h'.known n hn
  · rw [h'.grown.bodyOf m (known u hu m hm), if_neg (apart u hu m hm)]
  · rw [defs, defs, h'.grown.ivs m (known u hu m hm), h'.grown.results m (known u hu m hm)]

theorem Region.Filled.opened {kind : NodeKind} (created : r.Created kind [] 0 n s)
    (empty : kind.body = []) (drawn : r.Drawn → s.Drawn)
    (h : s.Filled (some n) (s.ivs n ++ visible) ns t) : r.Opened visible n t := by
  have new : r.nodes.size ≤ n.index := by rw [created.new]
  have known : n.index < s.nodes.size := by
    rw [created.new, created.nodeCount]
    exact Nat.lt_succ_self _
  have grown (block : Option NodeId) : r.Grown block [] s :=
    Region.Grown.of_extends created.ext (by rw [created.nodeCount]; omega) created.body block
  have leaf : s.bodyOf n = [] := by simp [Region.bodyOf, created.kind, empty]
  have body : t.bodyOf n = ns := by simpa [leaf] using h.grown.bodyOf n known
  refine ⟨h.lawful, fun block => (grown block).inside new h.grown, new,
    lt_of_lt_of_le known h.grown.nodeCount, (h.grown.parent n known).trans created.parent,
    .cons (fun v hv => ?_) ?_ .nil, ?_, h.drawn ∘ drawn⟩
  · rw [h.grown.operands n known, created.operands] at hv
    simp at hv
  · rw [h.grown.ivs n known, body]
    exact h.inScope
  · have defs : t.defs n = s.defs n := by
      rw [Region.defs, Region.defs, h.grown.ivs n known, h.grown.results n known]
    exact created.places defs (body ▸ h.places)

end Blocks

namespace Lowering

/-- The outcome of a statement: a new node and its results in scope, or no change except that
some names are bound to nothing. -/
def Outcome (r : Region) (scopes : Scopes) (visible : List ValueId) (made : Option NodeId)
    (s : Region) (scopes' : Scopes) : Prop :=
  scopes'.tail = scopes.tail ∧
    match made with
    | none => s = r ∧ Shows scopes' visible
    | some n => r.Opened visible n s ∧ Shows scopes' (s.results n ++ visible)

variable {r : Region} {scopes : Scopes} {visible : List ValueId}

/-- All buffers that a node of some kind accesses through some operands are memrefs. -/
def Admits (r : Region) (kind : NodeKind) (operands : List ValueId) : Prop :=
  ∀ (s : Region) (n : NodeId) mem access, s.kind? n = some kind → s.operands n = operands →
    (mem, access) ∈ s.touched n → r.isMemref mem = true

theorem finish_spec (lawful : r.Lawful) (shows : Shows scopes visible) (results : List Name)
    (span : Span) {kind : NodeKind} (noLoop : kind.isLoop = false) {operands : List ValueId}
    {types : List ValueType} (count : results.length = types.length)
    (fits : kind.Fits operands.length types.length) (used : ∀ v ∈ operands, v ∈ visible)
    (admits : Admits r kind operands)
    (memrefs : ∀ stack, kind = .alloc stack → ∀ t ∈ types, t.isMemref = true) :
    Lower.Spec (finish results span kind operands types) r scopes
      (Outcome r scopes visible) := by
  let named := List.zipWith (fun (name : Name) type => (some name.text, type)) results types
  have length : named.length = types.length := by simp [named, count]
  refine (onRegion_spec fun r => r.addNode kind operands named span).bind ?_
  rintro n s _ ⟨rfl, rfl, rfl⟩
  have created := r.addNode_created noLoop operands named span
  have empty : kind.body = [] := by
    cases kind <;> simp_all [NodeKind.isLoop, NodeKind.body]
  have drawn : r.Drawn → (r.addNode kind operands named span).2.Drawn := fun before =>
    before.call (c := .addNode kind operands named span) trivial empty rfl
  have typed : ∀ v ∈ (r.addNode kind operands named span).2.results
      (r.addNode kind operands named span).1, ∃ t ∈ types, ∃ value,
      (r.addNode kind operands named span).2.value? v = some value ∧ value.type = t := by
    have entries : named = _ := zipWith_named results types
    intro v hv
    rw [created.new, entries] at hv
    obtain ⟨e, he, value, found, type⟩ := r.addNode_types kind operands _ span hv
    exact ⟨e.2, (List.of_mem_zip he).2, value, entries ▸ found, type⟩
  generalize (r.addNode kind operands named span).1 = n at created typed ⊢
  generalize (r.addNode kind operands named span).2 = s at created drawn typed ⊢
  have known : n.index < s.nodes.size := by
    rw [created.new, created.nodeCount]
    exact Nat.lt_succ_self _
  have lawful' : s.Lawful := by
    refine lawful.created created (length ▸ fits) empty (fun mem access hm => ?_) ?_
    · exact created.ext.isMemref (admits s n mem access created.kind created.operands hm)
    · rintro stack alloc v hv
      obtain ⟨t, ht, value, found, rfl⟩ := typed v hv
      simpa [Region.isMemref, found] using memrefs stack alloc _ ht
  have opened : r.Opened visible n s := by
    have leaf : s.bodyOf n = [] := by simp [Region.bodyOf, created.kind, empty]
    refine ⟨lawful', Region.Grown.of_extends created.ext (by rw [created.nodeCount]; omega)
      created.body, by rw [created.new], known, created.parent, ?_,
      created.places rfl (leaf ▸ .nil), drawn⟩
    refine .cons (fun v hv => used v (created.operands ▸ hv)) ?_ .nil
    rw [leaf]
    exact .nil
  refine get_quiet.bind ?_
  rintro state ⟨rfl, -⟩
  refine (bindAll_spec (shows.mono fun v hv => List.mem_append_right _ hv) results
    (state.region.results n) fun v hv => List.mem_append_left _ hv).bind ?_
  rintro _ _ scopes' ⟨rfl, tail, shows'⟩
  exact Lower.Spec.pure ⟨tail, opened, shows'⟩

theorem lowerOp_spec (lawful : r.Lawful) (shows : Shows scopes visible) (results : List Name)
    (span : Span) (op : Op) :
    Lower.Spec (lowerOp results span op) r scopes (Outcome r scopes visible) := by
  intro s hr hs
  rcases lowerOp_builds r scopes results span op s hr hs with ⟨⟨region, names, -⟩, none⟩ |
    ⟨kind, operands, types, t, makes, count, ⟨region, names, -⟩, same⟩
  · rw [region, names, none, hr, hs]
    exact ⟨rfl, rfl, shows⟩
  · rw [same]
    refine finish_spec lawful shows results span makes.noLoop count makes.fits (fun v hv => ?_)
      (fun _ _ _ _ hk ho => makes.buffers hk ho) makes.memrefs t (region.trans hr) (names.trans hs)
    obtain ⟨name, found⟩ := makes.found v hv
    exact shows.find? found

theorem onNode_spec (n : NodeId) (f : Node → Node) (keeps : ∀ node, (f node).kind = node.kind ∧
    (f node).operands = node.operands ∧ (f node).results = node.results ∧
    (f node).parent = node.parent) :
    Lower.Spec (onNode n f) r scopes fun _ s scopes' =>
      r.SameNodes s ∧ s.body = r.body ∧ scopes' = scopes := by
  rintro s rfl rfl
  cases hn : s.region.node? n with
  | some node =>
    rw [onNode_eq hn]
    exact ⟨Region.sameNodes_modifyNode keeps, rfl, rfl⟩
  | none =>
    rw [onNode_eq_none hn]
    exact ⟨Region.SameNodes.refl _, rfl, rfl⟩

theorem applyAttrs_spec (n : NodeId) (attrs : List AttrEntry) :
    Lower.Spec (applyAttrs n attrs) r scopes fun _ s scopes' =>
      r.SameNodes s ∧ s.body = r.body ∧ scopes' = scopes := by
  induction attrs generalizing r with
  | nil => exact Lower.Spec.pure ⟨Region.SameNodes.refl r, rfl, rfl⟩
  | cons entry entries ih =>
    have next : ∀ s : Region, r.SameNodes s → s.body = r.body →
        Lower.Spec (applyAttrs n entries) s scopes fun _ t scopes' =>
          r.SameNodes t ∧ t.body = r.body ∧ scopes' = scopes := by
      intro s same body
      refine (@ih s).mono ?_
      rintro _ t _ ⟨same', body', rfl⟩
      exact ⟨same.trans same', body'.trans body, rfl⟩
    have skip (d : Diagnostic) := (report_quiet d).bind fun _ _ =>
      next r (Region.SameNodes.refl r) rfl
    unfold applyAttrs
    split
    · split
      · split
        · refine (onNode_spec n _ ?_).bind ?_
          · exact fun _ => ⟨rfl, rfl, rfl, rfl⟩
          · rintro _ s _ ⟨same, body, rfl⟩
            exact next s same body
        · exact skip _
      · exact skip _
    · refine (onNode_spec n _ ?_).bind ?_
      · exact fun _ => ⟨rfl, rfl, rfl, rfl⟩
      · rintro _ s _ ⟨same, body, rfl⟩
        exact next s same body

theorem attach_spec {block : Option NodeId} {n : NodeId} {s : Region}
    (h : r.append block n = some (s, true)) :
    Lower.Spec (attach block n) r scopes fun _ t scopes' => t = s ∧ scopes' = scopes := by
  rintro state rfl rfl
  rw [attach_eq h]
  exact ⟨rfl, rfl⟩

/-- The outcome of the start of a loop: a new node without a body and its induction variable in
a scope of its own, or no change. -/
def Entered (r : Region) (scopes : Scopes) (iv : Name) (lower upper : Int)
    (made : Option NodeId) (s : Region) (scopes' : Scopes) : Prop :=
  match made with
  | none => s = r ∧ scopes' = scopes
  | some n => r.Created (.loop ⟨r.values.size⟩ lower upper []) [] 0 n s ∧ (r.Drawn → s.Drawn) ∧
      scopes' = [(iv.text, some ⟨r.values.size⟩)] :: scopes

theorem enterLoop_spec (results : List Name) (iv : Name) (lower upper : Int) (span : Span) :
    Lower.Spec (enterLoop results iv lower upper span) r scopes
      (Entered r scopes iv lower upper) := by
  refine (expectResults_quiet results span 0 "loop").bind fun _ _ =>
    Lower.Spec.guard ⟨rfl, rfl⟩ fun _ => (checkNew_quiet iv).bind fun _ _ =>
      Lower.Spec.guard ⟨rfl, rfl⟩ fun _ => get_quiet.bind ?_
  rintro state ⟨rfl, -⟩
  refine (onRegion_spec _).bind ?_
  rintro n s _ ⟨rfl, rfl, rfl⟩ after hregion hscopes
  have created := state.region.addLoop_created (some iv.text) lower upper span
  have drawn : state.region.Drawn → (state.region.addLoop (some iv.text) lower upper span).2.Drawn :=
    fun before => before.call (c := .addLoop (some iv.text) lower upper span) trivial trivial rfl
  rw [← hregion] at created drawn
  exact ⟨created, drawn, by rw [← hscopes]; rfl⟩

theorem closeScope_spec : Lower.Spec closeScope r scopes fun _ s scopes' =>
    s = r ∧ scopes' = scopes.tail := by
  rintro s rfl rfl
  exact ⟨rfl, rfl⟩

mutual

theorem lowerBlock_spec {r : Region} {scopes : Scopes} {visible : List ValueId}
    (lawful : r.Lawful) (shows : Shows scopes visible) (block : Option NodeId)
    (loop : ∀ p, block = some p → r.isLoop p = true) : ∀ stmts : List Stmt,
    Lower.Spec (lowerBlock block stmts) r scopes fun _ s scopes' =>
      ∃ ns, r.Filled block visible ns s ∧ scopes'.tail = scopes.tail ∧
        Shows scopes' (ns.flatMap s.results ++ visible)
  | [] => by
    unfold lowerBlock
    exact Lower.Spec.pure ⟨[], Region.Filled.nil lawful block visible, rfl, shows⟩
  | stmt :: stmts => by
    unfold lowerBlock
    refine (lowerStmt_spec lawful shows stmt).bind ?_
    rintro made s scopes' ⟨tail, outcome⟩
    cases made with
    | none =>
      obtain ⟨rfl, shows'⟩ := outcome
      refine (lowerBlock_spec lawful shows' block loop stmts).mono ?_
      rintro _ t scopes'' ⟨ns, filled, tail', shows''⟩
      exact ⟨ns, filled, tail'.trans tail, shows''⟩
    | some n =>
      obtain ⟨opened, shows'⟩ := outcome
      obtain ⟨t, made, attached, first⟩ := opened.attach lawful.toCoherent loop
      refine (attach_spec made).bind ?_
      rintro _ _ _ ⟨rfl, rfl⟩
      have older : ∀ p, block = some p → p.index < r.nodes.size := fun p hp =>
        Region.isLoop_known (loop p hp)
      refine (lowerBlock_spec first.lawful (attached.results ▸ shows') block ?_ stmts).mono ?_
      · intro p hp
        rw [first.grown.isLoop p (older p hp)]
        exact loop p hp
      · rintro _ u scopes'' ⟨ns, rest, tail', shows''⟩
        refine ⟨[n] ++ ns, first.append older (by simpa using rest), tail'.trans tail,
          shows''.mono fun v hv => ?_⟩
        have known := first.known n (by simp)
        simp only [List.mem_append, List.flatMap_append, List.flatMap_cons, List.flatMap_nil,
          List.append_nil, rest.grown.results n known] at hv ⊢
        tauto

theorem lowerStmt_spec {r : Region} {scopes : Scopes} {visible : List ValueId}
    (lawful : r.Lawful) (shows : Shows scopes visible) : ∀ stmt : Stmt,
    Lower.Spec (lowerStmt stmt) r scopes (Outcome r scopes visible)
  | .op results op attrs span => by
    have settle : ∀ made s scopes', Outcome r scopes visible made s scopes' →
        Lower.Spec (do
          match made with
          | some n => applyAttrs n attrs
          | none => poison results
          return made) s scopes' (Outcome r scopes visible) := by
      rintro made s scopes' ⟨tail, outcome⟩
      cases made with
      | none =>
        obtain ⟨rfl, shows'⟩ := outcome
        refine (poison_spec shows' results).bind ?_
        rintro _ _ scopes'' ⟨rfl, tail', shows''⟩
        exact Lower.Spec.pure ⟨tail'.trans tail, rfl, shows''⟩
      | some n =>
        obtain ⟨opened, shows'⟩ := outcome
        refine (applyAttrs_spec n attrs).bind ?_
        rintro _ t _ ⟨same, body, rfl⟩
        exact Lower.Spec.pure ⟨tail, opened.sameNodes same body, same.results ▸ shows'⟩
    unfold lowerStmt
    refine (checkAllNew_quiet results).bind fun new _ => ?_
    cases new with
    | true => exact (lowerOp_spec lawful shows results span op).bind settle
    | false => exact settle none r scopes ⟨rfl, rfl, shows⟩
  | .loop results iv lower upper body attrs span => by
    have settle : ∀ made s scopes', Entered r scopes iv lower upper made s scopes' →
        Lower.Spec (do
          match made with
          | some n =>
            lowerBlock (some n) body
            closeScope
            applyAttrs n attrs
          | none => poison results
          return made) s scopes' (Outcome r scopes visible) := by
      intro made s scopes' entered
      cases made with
      | none =>
        obtain ⟨rfl, rfl⟩ := entered
        refine (poison_spec shows results).bind ?_
        rintro _ _ scopes'' ⟨rfl, tail, shows'⟩
        exact Lower.Spec.pure ⟨tail, rfl, shows'⟩
      | some n =>
        obtain ⟨created, entered, rfl⟩ := entered
        have loop : ∀ p, some n = some p → s.isLoop p = true := by
          rintro p ⟨⟩
          simp [Region.isLoop, created.kind, NodeKind.isLoop]
        have ivs : s.ivs n = [⟨r.values.size⟩] := by
          simp [Region.ivs, created.kind, NodeKind.inductionVar?]
        have shows' := shows.enter iv.text ⟨r.values.size⟩
        refine (lowerBlock_spec (lawful.loop created) (ivs ▸ shows') (some n) loop body).bind ?_
        rintro _ t scopes'' ⟨ns, filled, tail, -⟩
        have opened := filled.opened created rfl entered
        have noResults : t.results n = [] := by
          rw [filled.grown.results n (Region.isLoop_known (loop n rfl))]
          exact List.length_eq_zero_iff.mp created.resultCount
        refine closeScope_spec.bind ?_
        rintro _ _ _ ⟨rfl, rfl⟩
        refine (applyAttrs_spec n attrs).bind ?_
        rintro _ u _ ⟨same, body, rfl⟩
        rw [tail]
        refine Lower.Spec.pure ⟨rfl, opened.sameNodes same body, ?_⟩
        rw [same.results, noResults]
        exact shows
    unfold lowerStmt
    refine (checkAllNew_quiet results).bind fun new _ => ?_
    cases new with
    | true => exact (enterLoop_spec results iv lower upper span).bind settle
    | false => exact settle none r scopes ⟨rfl, rfl⟩

end

/-- A region that has arguments at most. -/
structure Bare (r : Region) : Prop where
  nodes : r.nodes.size = 0
  body : r.body = []
  args : r.args = (List.range' 0 r.values.size).map ValueId.mk
  argDefined : ∀ i v, r.args[i]? = some v → r.definition? v = some (.arg i)

theorem Bare.lawful (bare : Bare r) : r.Lawful := by
  have none (n : NodeId) : r.node? n = none := Region.node?_eq_none (bare.nodes ▸ Nat.zero_le _)
  refine ⟨⟨⟨by simp [bare.body], by simp [bare.body], by simp [bare.body], ?_, ?_, ?_, ?_⟩,
    bare.argDefined, ?_, ?_, ?_, ?_⟩, ?_⟩ <;>
  simp [Region.Child, Region.bodyOf, Region.kind?, Region.results, Region.ivs, Region.touched, none]

theorem Bare.addArg (bare : Bare r) (name : String) (type : ValueType) :
    Bare (r.addArg name type).2 ∧ (r.addArg name type).2.args = r.args ++ [(r.addArg name type).1] := by
  refine ⟨⟨bare.nodes, bare.body, ?_, fun i v hv => ?_⟩, rfl⟩
  · change r.args ++ [(⟨r.values.size⟩ : ValueId)] = _
    rw [bare.args]
    simp [Region.addArg, Region.addValue, List.range'_concat]
  change (r.args ++ [(⟨r.values.size⟩ : ValueId)])[i]? = some v at hv
  change Option.map Value.definition (r.values.push ⟨name, type, .arg r.args.length⟩)[v.index]? =
    some (.arg i)
  rcases Nat.lt_trichotomy i r.args.length with low | rfl | high
  · rw [List.getElem?_append_left low] at hv
    obtain ⟨value, hvalue, hd⟩ := Option.map_eq_some_iff.mp (bare.argDefined i v hv)
    have known : v.index < r.values.size := Region.index_lt_of_value? hvalue
    unfold Region.value? at hvalue
    simp [Array.getElem?_push, Nat.ne_of_lt known, hvalue, hd]
  · obtain rfl : (⟨r.values.size⟩ : ValueId) = v := by simpa using hv
    simp
  · rw [List.getElem?_eq_none (by simpa using high)] at hv
    simp at hv

theorem lowerArgs_spec (bare : Bare r) (shows : Shows scopes r.args) (args : List ArgDecl) :
    Lower.Spec (lowerArgs args) r scopes fun _ s scopes' =>
      Bare s ∧ Shows scopes' s.args ∧ (r.Drawn → s.Drawn) := by
  induction args generalizing r scopes with
  | nil => exact Lower.Spec.pure ⟨bare, shows, id⟩
  | cons arg args ih =>
    refine (lowerType_quiet arg.type).bind fun type _ => (checkNew_quiet arg.name).bind fun new _ => ?_
    cases new with
    | false => exact ih bare shows
    | true =>
      cases type with
      | none =>
        refine (bind_spec shows arg.name none (by simp)).bind ?_
        rintro _ _ scopes' ⟨rfl, -, shows'⟩
        exact ih bare shows'
      | some type =>
        obtain ⟨bare', args'⟩ := bare.addArg arg.name.text type
        refine (onRegion_spec fun r => r.addArg arg.name.text type).bind ?_
        rintro v s _ ⟨rfl, rfl, rfl⟩
        have shown := shows.mono fun v hv => args' ▸ List.mem_append_left _ hv
        refine (bind_spec shown arg.name (some (r.addArg arg.name.text type).1) ?_).bind ?_
        · rintro v ⟨⟩
          exact args' ▸ List.mem_append_right _ (List.mem_singleton_self _)
        · rintro _ _ scopes' ⟨rfl, -, shows'⟩
          refine (ih bare' shows').mono ?_
          rintro _ s scopes'' ⟨bare'', shows'', drawn⟩
          refine ⟨bare'', shows'', fun before => drawn ?_⟩
          exact before.call (c := .addArg arg.name.text type) trivial trivial rfl

theorem applyFuncAttrs_spec (attrs : List AttrEntry) :
    Lower.Spec (applyFuncAttrs attrs) r scopes fun _ s scopes' =>
      r.SameNodes s ∧ s.body = r.body ∧ scopes' = scopes := by
  induction attrs generalizing r with
  | nil => exact Lower.Spec.pure ⟨Region.SameNodes.refl r, rfl, rfl⟩
  | cons entry entries ih =>
    have next : ∀ s : Region, r.SameNodes s → s.body = r.body →
        Lower.Spec (applyFuncAttrs entries) s scopes fun _ t scopes' =>
          r.SameNodes t ∧ t.body = r.body ∧ scopes' = scopes := by
      intro s same body
      refine (@ih s).mono ?_
      rintro _ t _ ⟨same', body', rfl⟩
      exact ⟨same.trans same', body'.trans body, rfl⟩
    unfold applyFuncAttrs
    split
    · split
      · refine (onRegion_spec _).bind ?_
        rintro _ _ _ ⟨-, rfl, rfl⟩
        exact next _ ⟨rfl, rfl, rfl, rfl, rfl, rfl, rfl⟩ rfl
      · exact (report_quiet _).bind fun _ _ => next r (Region.SameNodes.refl r) rfl
    · refine (onRegion_spec _).bind ?_
      rintro _ _ _ ⟨-, rfl, rfl⟩
      exact next _ ⟨rfl, rfl, rfl, rfl, rfl, rfl, rfl⟩ rfl

end Lowering

/-- Whatever is wrong with a function, the region made of it is well-formed, its nodes and values are
numbered as they stand, and calls build it. -/
theorem Func.lower_spec (f : Func) :
    f.lower.1.Lawful ∧ f.lower.1.Scoped f.lower.1.args f.lower.1.body ∧ f.lower.1.Numbered ∧
      f.lower.1.Drawn := by
  have bare : Lowering.Bare (.empty f.name.text f.span) :=
    ⟨rfl, rfl, by simp [Region.empty], by simp [Region.empty]⟩
  have shows : Lowering.Shows [[]] (Region.empty f.name.text f.span).args := by
    simp [Lowering.Shows]
  have spec : Lower.Spec (Lowering.lowerFunc f) (.empty f.name.text f.span) [[]]
      fun _ s _ => s.Lawful ∧ s.Scoped s.args s.body ∧ s.Numbered ∧ s.Drawn := by
    refine (Lowering.lowerArgs_spec bare shows f.args).bind ?_
    rintro _ r scopes ⟨bare, shows, drawn⟩
    refine (Lowering.applyFuncAttrs_spec f.attrs).bind ?_
    rintro _ s _ ⟨same, body, rfl⟩
    have lawful : s.Lawful := bare.lawful.of_sameNodes same (body ▸ List.Perm.refl _)
    refine (Lowering.lowerBlock_spec lawful (same.args ▸ shows) none (by simp) f.body).mono ?_
    rintro _ t _ ⟨ns, filled, -, -⟩
    have whole : t.body = ns := by simpa [body, bare.body] using filled.grown.body
    have args : t.args = r.args := filled.grown.args.trans same.args
    have count : r.args.length = r.values.size := by simp [bare.args]
    have start : s.supply = ⟨0, t.args.length⟩ := by
      rw [Region.supply_eq same.size same.value, Region.supply, bare.nodes, args, count]
    have empty : (Region.empty f.name.text f.span).Drawn := ⟨.new f.name.text f.span, .new _ _, rfl⟩
    refine ⟨filled.lawful, ?_, ⟨?_, ?_⟩, filled.drawn ((drawn empty).label same body)⟩
    · rw [whole, filled.grown.args]
      exact filled.inScope
    · rw [args, count]
      exact bare.args
    · rw [whole, ← start]
      exact filled.places
  exact spec (.start f) rfl rfl

theorem Func.lower_wellFormed (f : Func) : f.lower.1.WellFormed :=
  ⟨f.lower_spec.1.toCoherent, f.lower_spec.2.1⟩

theorem mem_lowerItems {taken : List (String × Span)} {items : List Item} {r : Region}
    (h : r ∈ (lowerItems taken items).1) : ∃ f, .func f ∈ items ∧ r = f.lower.1 := by
  induction items generalizing taken with
  | nil => simp [lowerItems] at h
  | cons item items ih =>
    have later {taken : List (String × Span)} (h : r ∈ (lowerItems taken items).1) :
        ∃ f, .func f ∈ item :: items ∧ r = f.lower.1 := by
      obtain ⟨f, hf, hr⟩ := ih h
      exact ⟨f, by simp [hf], hr⟩
    cases item with
    | setting setting => exact later h
    | func f =>
      unfold lowerItems at h
      split at h
      · exact later h
      · rcases List.mem_cons.mp h with rfl | h
        · exact ⟨f, by simp, rfl⟩
        · exact later h

/-- Every region of a source text is that of one of its functions. -/
theorem func_of_load {source : String} {loaded : Loaded} (h : load source = .ok loaded)
    {r : Region} (hr : r ∈ loaded.regions) : ∃ program f,
      (parse source).program = some program ∧ .func f ∈ program.items ∧ r = f.lower.1 := by
  simp only [load] at h
  split at h
  next program found _ =>
    split at h
    · cases h
    · obtain rfl := Except.ok.inj h
      obtain ⟨f, hf, hr⟩ := mem_lowerItems hr
      exact ⟨program, f, found, hf, hr⟩
  next => cases h

/-- Every region of a source text is well-formed. -/
theorem load_wellFormed {source : String} {loaded : Loaded} (h : load source = .ok loaded) :
    ∀ r ∈ loaded.regions, r.WellFormed := by
  intro r hr
  obtain ⟨-, f, -, -, rfl⟩ := func_of_load h hr
  exact f.lower_wellFormed

/-- A region that comes from a source text, perhaps by way of passes that made it legal. -/
inductive Region.Reachable : Region → Prop
  | load {source : String} {loaded : Loaded} {r : Region} (h : Staging.load source = .ok loaded)
      (hr : r ∈ loaded.regions) : Reachable r
  | legalize {r out : Region} {o : Options} {report : Report} (hr : Reachable r)
      (h : r.legalize o = .ok (report, out)) : Reachable out

/-- What `parse` makes of the characters of a source text. A text literal is the text of its
characters, so what is computed from them is checked without decoding the text. -/
def parseChars (cs : List Char) : Parsed :=
  let lexing := lexFrom 0 cs
  let bad := lexing.bad.map BadText.toError
  match parseTokens lexing.tokens (byteLength cs) with
  | .ok program => ⟨some program, bad⟩
  | .error e => ⟨none, bad ++ [e]⟩

theorem parse_eq_parseChars {source : String} {cs : List Char} (spelled : source = .ofList cs) :
    parse source = parseChars cs := by
  rw [spelled, parse, lex, String.toList_ofList]
  rfl

/-- What `load` makes of the characters of a source text. -/
def loadChars (cs : List Char) : Except (List Diagnostic) Loaded :=
  match (parseChars cs).program, (parseChars cs).errors with
  | some program, [] =>
    let ds := program.options.2 ++ program.lower.2
    if anyError ds then .error ds else .ok ⟨program.lower.1, program.options.1, ds⟩
  | _, errors => .error (errors.map ParseError.toDiagnostic)

theorem load_eq_loadChars {source : String} {cs : List Char} (spelled : source = .ofList cs) :
    load source = loadChars cs := by
  rw [load, parse_eq_parseChars spelled]
  rfl

/-- Whether a test accepts the regions of the source text of some characters. -/
def anyLoaded (cs : List Char) (test : List Region → Bool) : Bool :=
  match loadChars cs with
  | .ok loaded => test loaded.regions
  | .error _ => false

theorem exists_of_anyLoaded {source : String} {cs : List Char} (spelled : source = .ofList cs)
    {test : List Region → Bool} (h : anyLoaded cs test = true) :
    ∃ loaded, load source = .ok loaded ∧ test loaded.regions = true := by
  unfold anyLoaded at h
  split at h
  next loaded loads => exact ⟨loaded, (load_eq_loadChars spelled).trans loads, h⟩
  next => cases h

end Staging
