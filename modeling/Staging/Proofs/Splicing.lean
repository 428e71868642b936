import Staging.Proofs.Forwarding

namespace Staging

theorem before_flatMap {α β : Type} {f : α → List β} {l : List α} {a b : β} :
    Before (l.flatMap f) a b ↔
      (∃ x y, Before l x y ∧ a ∈ f x ∧ b ∈ f y) ∨ ∃ x ∈ l, Before (f x) a b := by
  induction l with
  | nil => simp [before_nil]
  | cons c l ih =>
    rw [List.flatMap_cons, before_append, ih]
    simp only [before_cons, List.mem_flatMap, List.exists_mem_cons_iff]
    constructor
    · rintro (h | ⟨ha, y, hy, hb⟩ | ⟨x, y, h, ha, hb⟩ | ⟨x, hx, h⟩)
      · exact Or.inr (Or.inl h)
      · exact Or.inl ⟨c, y, Or.inl ⟨rfl, hy⟩, ha, hb⟩
      · exact Or.inl ⟨x, y, Or.inr h, ha, hb⟩
      · exact Or.inr (Or.inr ⟨x, hx, h⟩)
    · rintro (⟨x, y, ⟨rfl, hy⟩ | h, ha, hb⟩ | h | ⟨x, hx, h⟩)
      · exact Or.inr (Or.inl ⟨ha, y, hy, hb⟩)
      · exact Or.inr (Or.inr (Or.inl ⟨x, y, h, ha, hb⟩))
      · exact Or.inl h
      · exact Or.inr (Or.inr (Or.inr ⟨x, hx, h⟩))

theorem before_map {α β : Type} {f : α → β} {l : List α} {a b : α} (h : Before l a b) :
    Before (l.map f) (f a) (f b) :=
  List.Sublist.map f h

section Order

variable {r : Region} {level : NodeId → Option Nat} {built wired : List BuiltChain}
  {s : Forwarding} {b : BuiltChain} {k l : Link} {x y n : NodeId}

theorem Forwarding.Built.sublist (h : s.Built r level built wired) :
    r.body.Sublist s.region.body := by
  rw [h.body]
  refine List.Sublist.trans ?_ (List.sublist_append_right _ _)
  conv_lhs => rw [← List.flatMap_singleton' r.body]
  exact List.Sublist.flatMap_right _ fun n _ => List.sublist_append_right _ _

theorem Forwarding.Built.before_old (h : s.Built r level built wired) (nested : r.Nested)
    (hx : x ∈ r.body) (hy : y ∈ r.body) : Before s.region.body x y ↔ Before r.body x y :=
  ⟨fun hb => hb.of_sublist (h.bodyNodup nested) h.sublist hx hy, fun hb => hb.sublist h.sublist⟩

theorem Forwarding.Built.copy_before_consumer (h : s.Built r level built wired)
    (hb : b ∈ built) (hl : l ∈ b.links) : Before s.region.body l.copy b.chain.consumer := by
  rw [h.body]
  refine before_append.mpr (Or.inr (Or.inr (before_flatMap.mpr (Or.inr
    ⟨_, h.rewritten.consumers b hb, before_append.mpr (Or.inr (Or.inl ⟨?_, by simp⟩))⟩))))
  exact mem_copiesFor.mpr ⟨b, hb, rfl, l, hl, rfl⟩

/-- A copy stands behind all that its consumer stood behind, and nothing else that was there. -/
theorem Forwarding.Built.before_copy (h : s.Built r level built wired) (nested : r.Nested)
    (hb : b ∈ built) (hl : l ∈ b.links) (hx : x ∈ r.body) :
    Before s.region.body x l.copy ↔ Before r.body x b.chain.consumer := by
  have nodup := h.bodyNodup nested
  have hc := h.rewritten.consumers b hb
  have ahead := h.copy_before_consumer hb hl
  constructor
  · intro hxl
    exact (h.before_old nested hx hc).mp (hxl.trans nodup ahead)
  · intro hxc
    rw [h.body]
    refine before_append.mpr (Or.inr (Or.inr (before_flatMap.mpr (Or.inl
      ⟨x, b.chain.consumer, hxc, by simp, List.mem_append_left _ ?_⟩))))
    exact mem_copiesFor.mpr ⟨b, hb, rfl, l, hl, rfl⟩

theorem Forwarding.Built.link_before (h : s.Built r level built wired) (hb : b ∈ built)
    (hkl : Before b.links k l) : Before s.region.body k.copy l.copy := by
  rw [h.body]
  refine before_append.mpr (Or.inr (Or.inr (before_flatMap.mpr (Or.inr
    ⟨_, h.rewritten.consumers b hb, before_append.mpr (Or.inl ?_)⟩))))
  refine before_flatMap.mpr (Or.inr ⟨b, List.mem_filter.mpr ⟨hb, by simp⟩, before_map hkl⟩)

theorem Forwarding.Built.buffer_before (h : s.Built r level built wired) (hb : b ∈ built)
    (hl : l ∈ b.links) (hn : l.buffer = some n) :
    Before s.region.body n l.copy := by
  rw [h.body]
  refine before_append.mpr (Or.inr (Or.inl ⟨mem_newBuffers.mpr ⟨b, hb, l, hl, hn⟩, ?_⟩))
  refine List.mem_flatMap.mpr ⟨_, h.rewritten.consumers b hb, List.mem_append_left _ ?_⟩
  exact mem_copiesFor.mpr ⟨b, hb, rfl, l, hl, rfl⟩

/-- What a link writes is defined ahead of all that stands behind its copy. -/
theorem Forwarding.Built.delivered (h : s.Built r level built wired) (nested : r.Nested)
    (hb : b ∈ built) (hl : l ∈ b.links) (hx : Before s.region.body l.copy x) :
    ∃ y, Before s.region.body y x ∧ l.target ∈ s.region.results y := by
  obtain ⟨_, _, link⟩ := h.rewritten.hasLink hb hl
  cases hbuf : l.buffer with
  | some n =>
    refine ⟨n, (h.buffer_before hb hl hbuf).trans (h.bodyNodup nested) hx, ?_⟩
    rw [(link.buffer n hbuf).2.2.1]
    simp
  | none => exact ⟨l.copy, hx, by simp [link.results, hbuf]⟩

end Order

section Types

variable {r s : Region} {built wired : List BuiltChain}

theorem Region.Rewritten.type_target (h : r.Rewritten built wired s) {b : BuiltChain} {l : Link}
    (hb : b ∈ built) (hl : l ∈ b.links) :
    (s.value? l.target).map Value.type = (r.value? b.chain.carrier.id).map Value.type := by
  obtain ⟨value, hv, link⟩ := h.hasLink hb hl
  obtain ⟨name, hn⟩ := link.target
  simp [hv, hn]

theorem Region.Rewritten.type_rewired (h : r.Rewritten built wired s) {v : ValueId}
    (hv : v.index < r.values.size) (t : NodeId) :
    (s.value? (rewired wired t v)).map Value.type = (r.value? v).map Value.type := by
  cases hf : wired.find? fun b => b.chain.carries t v with
  | none => rw [rewired_of_none hf, h.value v hv]
  | some b =>
    obtain ⟨he, hb, _, hc⟩ := rewired_of_some hf
    obtain ⟨hbuilt, ne⟩ := h.ready b hb
    obtain ⟨l, hl, _, hend⟩ := @endOf_mem v b.links ne
    rw [he, hend, h.type_target hbuilt hl, hc]

theorem Region.isMemref_eq (v : ValueId) :
    r.isMemref v = ((r.value? v).map Value.type).any ValueType.isMemref := by
  simp [isMemref, Option.any_map]

theorem Region.isShaped_eq (v : ValueId) :
    r.isShaped v = ((r.value? v).map Value.type).any ValueType.isShaped := by
  simp [isShaped, Option.any_map]

theorem Region.Rewritten.type_source (h : r.Rewritten built wired s) {b : BuiltChain} {l : Link}
    (hb : b ∈ built) (hl : l ∈ b.links) :
    (s.value? l.source).map Value.type = (r.value? b.chain.carrier.id).map Value.type := by
  rcases (h.linked b hb).source_cases hl with ⟨_, hs⟩ | ⟨k, hkl, hs⟩
  · obtain ⟨value, hv, _⟩ := h.hasLink hb hl
    rw [hs, h.value _ (index_lt_of_value? hv)]
  · rw [hs, h.type_target hb (Before.mem_left hkl.sublist)]

theorem Region.Rewritten.definition_target (h : r.Rewritten built wired s) {b : BuiltChain}
    {l : Link} (hb : b ∈ built) (hl : l ∈ b.links) :
    s.definition? l.target = some (.result (l.buffer.getD l.copy) 0) := by
  obtain ⟨_, _, link⟩ := h.hasLink hb hl
  obtain ⟨name, hn⟩ := link.target
  simp [definition?, hn]

theorem Region.Rewritten.definition_old (h : r.Rewritten built wired s) {v : ValueId}
    {d : Definition} (hd : r.definition? v = some d) : s.definition? v = some d := by
  rw [← hd]
  simp [definition?, h.value v (known_of_definition? hd)]

end Types

theorem Region.Rewritten.operands_length {r s : Region} {built wired : List BuiltChain}
    (h : r.Rewritten built wired s) {n : NodeId} (hn : n.index < r.nodes.size) :
    (s.operands n).length = (r.operands n).length := by
  by_cases loose : ∀ t ∈ r.body, ¬ r.Within t n
  · rw [h.loose n hn loose]
  · push Not at loose
    obtain ⟨t, ht, hw⟩ := loose
    rw [h.operands t ht n hw, List.length_map]

theorem Region.Rewritten.memref_touched {r s : Region} {built wired : List BuiltChain}
    (h : r.Rewritten built wired s) (wf : r.WellFormed) {n : NodeId} {mem : ValueId}
    {kind : AccessKind} (hm : (mem, kind) ∈ s.touched n) : s.isMemref mem = true := by
  have old : ∀ m k, (m, k) ∈ r.touched n → m.index < r.values.size ∧ r.isMemref m = true := by
    intro m k hmk
    have hmem := wf.buffers n m k hmk
    refine ⟨?_, hmem⟩
    by_contra hk
    simp [isMemref, value?_eq_none (Nat.le_of_not_lt hk)] at hmem
  rcases Nat.lt_or_ge n.index r.nodes.size with hn | hn
  · by_cases loose : ∀ t ∈ r.body, ¬ r.Within t n
    · have same : s.touched n = r.touched n := by
        simp [Region.touched, h.kind n hn, h.loose n hn loose]
      obtain ⟨known, hmem⟩ := old mem kind (same ▸ hm)
      rw [isMemref_eq, h.value mem known, ← isMemref_eq, hmem]
    · push Not at loose
      obtain ⟨t, ht, hw⟩ := loose
      obtain ⟨⟨m, k⟩, hmt, he⟩ := List.mem_map.mp (h.touched wf.toNested ht hw ▸ hm)
      cases he
      obtain ⟨known, hmem⟩ := old m k hmt
      rw [isMemref_eq, h.type_rewired known t, ← isMemref_eq, hmem]
  · rcases h.new_cases hn with ⟨b, hb, l, hl, rfl⟩ | ⟨b, hb, l, hl, hbuf⟩ | hs
    · obtain ⟨value, hv, link⟩ := h.hasLink hb hl
      unfold Region.touched at hm
      rw [link.kind, link.operands] at hm
      split at hm
      all_goals simp_all only [reduceCtorEq, Option.some.injEq, List.not_mem_nil]
      next source target _ ho =>
        split at ho
        next filled =>
          cases ho
          rw [link.filled] at filled
          simp only [List.mem_cons, Prod.mk.injEq, List.not_mem_nil, or_false] at hm
          rcases hm with ⟨rfl, _⟩ | ⟨rfl, _⟩
          · rw [isMemref_eq, h.type_source hb hl, hv]
            exact filled
          · rw [isMemref_eq, h.type_target hb hl, hv]
            exact filled
        next => simp at ho
    · obtain ⟨_, _, link⟩ := h.hasLink hb hl
      simp [Region.touched, (link.buffer n hbuf).1] at hm
    · simp [Region.touched, Region.kind?, node?_eq_none hs] at hm

section WellFormed

variable {r : Region} {level : NodeId → Option Nat} {built : List BuiltChain}

theorem Region.Rewritten.result_defined {s : Region} (h : r.Rewritten built built s)
    (wf : r.WellFormed) {n : NodeId} {i : Nat} {v : ValueId} (hv : (s.results n)[i]? = some v) :
    s.definition? v = some (.result n i) := by
  rcases Nat.lt_or_ge n.index r.nodes.size with hn | hn
  · exact h.definition_old (wf.resultDefined n i v (h.results n hn ▸ hv))
  · rcases h.new_cases hn with ⟨b, hb, l, hl, rfl⟩ | ⟨b, hb, l, hl, hbuf⟩ | hs
    · obtain ⟨_, _, link⟩ := h.hasLink hb hl
      rw [link.results] at hv
      cases hbuf : l.buffer with
      | some n => simp [hbuf] at hv
      | none =>
        obtain ⟨rfl, rfl⟩ : i = 0 ∧ l.target = v := by
          simpa [hbuf, List.getElem?_singleton] using hv
        simp [h.definition_target hb hl, hbuf]
    · obtain ⟨_, _, link⟩ := h.hasLink hb hl
      rw [(link.buffer n hbuf).2.2.1] at hv
      obtain ⟨rfl, rfl⟩ : i = 0 ∧ l.target = v := by
        simpa [List.getElem?_singleton] using hv
      simp [h.definition_target hb hl, hbuf]
    · simp [Region.results, node?_eq_none hs] at hv

theorem Region.Rewritten.ivs_new {s : Region} (h : r.Rewritten built built s) {n : NodeId}
    (hn : r.nodes.size ≤ n.index) : s.ivs n = [] := by
  rcases h.new_cases hn with ⟨b, hb, l, hl, rfl⟩ | ⟨b, hb, l, hl, hbuf⟩ | hs
  · obtain ⟨_, _, link⟩ := h.hasLink hb hl
    simp [ivs, link.kind, NodeKind.inductionVar?]
  · obtain ⟨_, _, link⟩ := h.hasLink hb hl
    simp [ivs, (link.buffer n hbuf).1, NodeKind.inductionVar?]
  · simp [ivs, Region.kind?, node?_eq_none hs]

theorem Region.Rewritten.fits {s : Region} (h : r.Rewritten built built s) (wf : r.WellFormed)
    {n : NodeId} {node : Node} (hn : s.node? n = some node) :
    node.kind.Fits node.operands.length node.results.length := by
  have kind : s.kind? n = some node.kind := by simp [Region.kind?, hn]
  have operands : s.operands n = node.operands := by simp [Region.operands, hn]
  have results : s.results n = node.results := by simp [Region.results, hn]
  rcases Nat.lt_or_ge n.index r.nodes.size with known | new
  · obtain ⟨old, ho⟩ := node?_eq_some known
    have oldKind : r.kind? n = some old.kind := by simp [Region.kind?, ho]
    rw [h.kind n known, oldKind] at kind
    rw [← operands, ← results, h.operands_length known, h.results n known,
      ← Option.some.inj kind]
    simpa [Region.operands, Region.results, ho] using wf.fits n old ho
  · rcases h.new_cases new with ⟨b, hb, l, hl, rfl⟩ | ⟨b, hb, l, hl, hbuf⟩ | hs
    · obtain ⟨_, _, link⟩ := h.hasLink hb hl
      rw [link.kind] at kind
      rw [← operands, ← results, ← Option.some.inj kind, link.operands, link.results]
      cases l.buffer <;> simp [NodeKind.Fits]
    · obtain ⟨_, _, link⟩ := h.hasLink hb hl
      obtain ⟨hk, ho, hr, _⟩ := link.buffer n hbuf
      rw [hk] at kind
      rw [← operands, ← results, ← Option.some.inj kind, ho, hr]
      simp [NodeKind.Fits]
    · simp [node?_eq_none hs] at hn

theorem mem_of_before_split {α : Type} {before behind : List α} {x y : α}
    (nodup : (before ++ x :: behind).Nodup) (h : Before (before ++ x :: behind) y x) :
    y ∈ before := by
  rcases List.mem_append.mp h.mem_left with hy | hy
  · exact hy
  · rcases List.mem_cons.mp hy with rfl | hy
    · exact absurd rfl (h.ne nodup)
    · exact absurd h (Before.asymm nodup (before_iff_append.mpr ⟨_, _, rfl, hy⟩))

variable {s : Forwarding}

/-- A new node reads the carrier of its chain, what the link before it writes, or its own
buffer. -/
theorem Forwarding.Built.defined_of_new (h : s.Built r level built built) (wf : r.WellFormed)
    (visible : ∀ b ∈ built, b.chain.carrier.id ∈ r.args ∨
      ∃ y, Before r.body y b.chain.consumer ∧ b.chain.carrier.id ∈ r.results y)
    {n : NodeId} {v : ValueId} (hn : n ∈ newNodes built) (hv : v ∈ s.region.operands n) :
    v ∈ s.region.args ∨ ∃ y, Before s.region.body y n ∧ v ∈ s.region.results y := by
  have rew := h.rewritten
  obtain ⟨b, hb, l, hl, hbuf | rfl⟩ := mem_newNodes.mp hn
  · obtain ⟨_, _, link⟩ := rew.hasLink hb hl
    simp [(link.buffer n hbuf).2.1] at hv
  · obtain ⟨_, _, link⟩ := rew.hasLink hb hl
    have cases : v = l.source ∨ ∃ n, l.buffer = some n ∧ v = l.target := by
      rw [link.operands] at hv
      cases hbuf : l.buffer <;> simpa [hbuf] using hv
    rcases cases with rfl | ⟨n, hbuf, rfl⟩
    · rcases (rew.linked b hb).source_cases hl with ⟨_, hs⟩ | ⟨k, hkl, hs⟩
      · rw [hs]
        rcases visible b hb with harg | ⟨y, hy, hvy⟩
        · exact Or.inl (rew.args ▸ harg)
        · refine Or.inr ⟨y, (h.before_copy wf.toNested hb hl hy.mem_left).mpr hy, ?_⟩
          rw [rew.results y (wf.bodyKnown y hy.mem_left)]
          exact hvy
      · rw [hs]
        have hkl : Before b.links k l := hkl.sublist
        exact Or.inr (h.delivered wf.toNested hb hkl.mem_left (h.link_before hb hkl))
    · refine Or.inr ⟨n, h.buffer_before hb hl hbuf, ?_⟩
      rw [(link.buffer n hbuf).2.2.1]
      simp

/-- In a region with chains, every node stands behind what it reads. -/
theorem Forwarding.Built.inScope (h : s.Built r level built built) (wf : r.WellFormed)
    (visible : ∀ b ∈ built, b.chain.carrier.id ∈ r.args ∨
      ∃ y, Before r.body y b.chain.consumer ∧ b.chain.carrier.id ∈ r.results y) :
    s.region.Scoped s.region.args s.region.body := by
  have rew := h.rewritten
  refine Region.scoped_iff_split.mpr fun earlier n later hbody => ?_
  have nodup := h.bodyNodup wf.toNested
  have shown : ∀ y v, Before s.region.body y n → v ∈ s.region.results y →
      v ∈ earlier.flatMap s.region.results ++ s.region.args := by
    intro y v hy hv
    rw [hbody] at hy nodup
    exact List.mem_append_left _
      (List.mem_flatMap.mpr ⟨y, mem_of_before_split nodup hy, hv⟩)
  rcases h.mem_body.mp (show n ∈ s.region.body by rw [hbody]; simp) with hn | hn
  · obtain ⟨before, behind, hsplit⟩ := List.append_of_mem hn
    have inside : ∀ t ∈ [n], ∀ m, r.Within t m → m.index < r.nodes.size := by
      intro t ht m hm
      obtain rfl := List.mem_singleton.mp ht
      exact wf.known (wf.bodyKnown t hn) hm
    refine (Region.scoped_iff_split.mp wf.inScope before n behind hsplit).transfer
      (fun t ht m hm => rew.bodyOf (inside t ht m hm)) (fun t ht m hm => ?_)
      (fun t ht m hm => rew.results m (inside t ht m hm)) fun t ht m hm v hv => ?_
    · simp [Region.ivs, rew.kind m (inside t ht m hm)]
    · obtain rfl := List.mem_singleton.mp ht
      rw [rew.operands t hn m hm] at hv
      obtain ⟨u, hu, rfl⟩ := List.mem_map.mp hv
      -- An old operand is still visible; one that a chain carries is defined by its last copy.
      cases hf : built.find? fun b => b.chain.carries t u with
      | none =>
        rw [rewired_of_none hf]
        refine Or.inr ⟨hu, fun hvis => ?_⟩
        rcases List.mem_append.mp hvis with hres | harg
        · obtain ⟨y, hy, huy⟩ := List.mem_flatMap.mp hres
          have hyt : Before r.body y t := by
            rw [hsplit]
            exact before_append.mpr (Or.inr (Or.inl ⟨hy, by simp⟩))
          refine shown y u ((h.before_old wf.toNested hyt.mem_left hn).mpr hyt) ?_
          rw [rew.results y (wf.bodyKnown y hyt.mem_left)]
          exact huy
        · exact List.mem_append_right _ (rew.args ▸ harg)
      | some b =>
        obtain ⟨he, hb, rfl, _⟩ := rewired_of_some hf
        obtain ⟨l, hl, _, hend⟩ := @endOf_mem u b.links (rew.ready b hb).2
        obtain ⟨y, hy, hvy⟩ := h.delivered wf.toNested hb hl (h.copy_before_consumer hb hl)
        rw [he, hend]
        exact Or.inl (shown y l.target hy hvy)
  · have empty := rew.bodyOf_new hn
    refine .cons (fun v hv => ?_) (by rw [empty]; exact .nil) .nil
    rcases h.defined_of_new wf visible hn hv with harg | ⟨y, hy, hvy⟩
    · exact List.mem_append_right _ harg
    · exact shown y v hy hvy

/-- A region stays well-formed when chains are added that carry values from the arguments and
the nodes ahead of their consumers. -/
theorem Forwarding.Built.wellFormed (h : s.Built r level built built) (wf : r.WellFormed)
    (visible : ∀ b ∈ built, b.chain.carrier.id ∈ r.args ∨
      ∃ y, Before r.body y b.chain.consumer ∧ b.chain.carrier.id ∈ r.results y) :
    s.region.WellFormed := by
  have rew := h.rewritten
  refine ⟨⟨h.nested wf.toNested,
    fun i v hv => rew.definition_old (wf.argDefined i v (rew.args ▸ hv)),
    fun n i v hv => rew.result_defined wf hv, fun n v hv => ?_,
    fun n node hn => rew.fits wf hn, fun n mem kind hm => rew.memref_touched wf hm⟩,
    h.inScope wf visible⟩
  rcases Nat.lt_or_ge n.index r.nodes.size with hn | hn
  · have old : v ∈ r.ivs n := by simpa [Region.ivs, rew.kind n hn] using hv
    exact rew.definition_old (wf.ivDefined n v old)
  · simp [rew.ivs_new hn] at hv

end WellFormed

end Staging
