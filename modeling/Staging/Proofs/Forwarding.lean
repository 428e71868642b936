import Staging.Proofs.Insertion

namespace Staging

/-- While chains are being built, the region has all links so far: the buffers at its entry, and
the copies directly in front of their consumers. -/
structure Forwarding.Built (r : Region) (level : NodeId → Option Nat)
    (built wired : List BuiltChain) (s : Forwarding) : Prop where
  rewritten : r.Rewritten built wired s.region
  body : s.region.body = newBuffers built ++ r.body.flatMap fun n => copiesFor built n ++ [n]
  slot : s.slot = (newBuffers built).length
  valueCount : s.region.values.size = r.values.size + (newValues built).length
  level : ∀ n, n.index < r.nodes.size → s.region.level? n = level n
  linkLevel : ∀ b ∈ built, ∀ l ∈ b.links, s.region.level? l.copy = some l.level ∧
    ∀ n, l.buffer = some n → s.region.level? n = none

section Extend

variable {r : Region} {level : NodeId → Option Nat} {done : List BuiltChain} {chain : CopyChain}
  {links : List Link} {l : Link}

theorem newNodes_extend : newNodes (done ++ [⟨chain, links ++ [l]⟩]) =
    newNodes (done ++ [⟨chain, links⟩]) ++ l.nodes := by
  simp [newNodes]

theorem newValues_extend : newValues (done ++ [⟨chain, links ++ [l]⟩]) =
    newValues (done ++ [⟨chain, links⟩]) ++ [l.target] := by
  simp [newValues]

theorem newBuffers_extend : newBuffers (done ++ [⟨chain, links ++ [l]⟩]) =
    newBuffers (done ++ [⟨chain, links⟩]) ++ l.buffer.toList := by
  simp [newBuffers]

theorem copiesFor_extend (n : NodeId) : copiesFor (done ++ [⟨chain, links ++ [l]⟩]) n =
    copiesFor (done ++ [⟨chain, links⟩]) n ++ if chain.consumer = n then [l.copy] else [] := by
  by_cases h : chain.consumer = n <;> simp [copiesFor, h]

theorem range'_map_append {α : Type} (mk : Nat → α) {start : Nat} {xs ys : List α}
    (hx : xs = (List.range' start xs.length).map mk)
    (hy : ys = (List.range' (start + xs.length) ys.length).map mk) :
    xs ++ ys = (List.range' start (xs ++ ys).length).map mk := by
  rw [List.length_append, List.range'_append_1.symm, List.map_append, ← hx, ← hy]

theorem Forwarding.Built.known {built wired : List BuiltChain} {s : Forwarding}
    (h : s.Built r level built wired) {b : BuiltChain} (hb : b ∈ built) (hl : l ∈ b.links) :
    (∀ n ∈ l.nodes, n.index < s.region.nodes.size) ∧ l.target.index < s.region.values.size := by
  constructor
  · intro n hn
    refine (h.rewritten.mem_newNodes_iff.mp (mem_newNodes.mpr ⟨b, hb, l, hl, ?_⟩)).2
    simpa [Link.nodes, eq_comm] using hn
  · have hv := mem_newValues.mpr ⟨b, hb, l, hl, rfl⟩
    rw [h.rewritten.values] at hv
    obtain ⟨i, hi, he⟩ := List.mem_map.mp hv
    have := (List.mem_range'_1.mp hi).2
    rw [h.valueCount, ← he]
    exact this

/-- A link is one from before, or the new one at the end of the last chain. -/
theorem extended_cases {b : BuiltChain} (hb : b ∈ done ++ [⟨chain, links ++ [l]⟩]) {k : Link}
    (hk : k ∈ b.links) : (∃ b' ∈ done ++ [⟨chain, links⟩], b'.chain = b.chain ∧ k ∈ b'.links) ∨
      (b.chain = chain ∧ k = l) := by
  rcases List.mem_append.mp hb with hb | hb
  · exact Or.inl ⟨b, List.mem_append_left _ hb, rfl, hk⟩
  · obtain rfl := List.mem_singleton.mp hb
    rcases List.mem_append.mp hk with hk | hk
    · exact Or.inl ⟨⟨chain, links⟩, by simp, rfl, hk⟩
    · exact Or.inr ⟨rfl, List.mem_singleton.mp hk⟩

theorem extended_chain {b : BuiltChain} (hb : b ∈ done ++ [⟨chain, links ++ [l]⟩]) :
    ∃ b' ∈ done ++ [⟨chain, links⟩], b'.chain = b.chain := by
  rcases List.mem_append.mp hb with hb | hb
  · exact ⟨b, List.mem_append_left _ hb, rfl⟩
  · exact ⟨⟨chain, links⟩, by simp, by simp [List.mem_singleton.mp hb]⟩

section Gains

variable {s s' : Forwarding} {value : Value} {before behind : List NodeId}

/-- The nodes of a new link are put beside those that are there. -/
theorem Forwarding.Built.rewritten_extend (nested : r.Nested)
    (h : s.Built r level (done ++ [⟨chain, links⟩]) done)
    (hv : r.value? chain.carrier.id = some value)
    (gains : s.Gains value.type l chain.consumer (newBuffers (done ++ [⟨chain, links⟩])) before
      behind s')
    (source : l.source = endOf chain.carrier.id links) :
    r.Rewritten (done ++ [⟨chain, links ++ [l]⟩]) done s'.region := by
  have ext := gains.ext
  have rew := h.rewritten
  have old {n : NodeId} (hn : n.index < r.nodes.size) : n.index < s.region.nodes.size := by
    rw [rew.nodeCount]
    omega
  constructor
  case args => exact ext.args.trans rew.args
  case kind => exact fun n hn => (ext.kind? (old hn)).trans (rew.kind n hn)
  case results => exact fun n hn => (ext.results (old hn)).trans (rew.results n hn)
  case parent => exact fun n hn => (ext.parent? (old hn)).trans (rew.parent n hn)
  case operands =>
    intro t ht n hn
    rw [ext.operands (old (nested.known (nested.bodyKnown t ht) hn)), rew.operands t ht n hn]
  case loose => exact fun n hn loose => (ext.operands (old hn)).trans (rew.loose n hn loose)
  case value =>
    intro v known
    refine (ext.value v ?_).trans (rew.value v known)
    rw [h.valueCount]
    omega
  case links =>
    intro b hb
    obtain ⟨b', hb', same⟩ := extended_chain hb
    obtain ⟨carried, hc, -⟩ := rew.links b' hb'
    refine ⟨carried, same ▸ hc, fun k hk => ?_⟩
    rcases extended_cases hb hk with ⟨b'', hb'', same', hk'⟩ | ⟨last, rfl⟩
    · obtain ⟨carried', hc', link⟩ := rew.hasLink hb'' hk'
      rw [same', ← same, hc] at hc'
      cases hc'
      exact ext.hasLink link (h.known hb'' hk').1 (h.known hb'' hk').2
    · rw [same, last, hv] at hc
      cases hc
      exact gains.link
  case linked =>
    intro b hb
    rcases List.mem_append.mp hb with hb | hb
    · exact rew.linked b (List.mem_append_left _ hb)
    · obtain rfl := List.mem_singleton.mp hb
      exact linked_append.mpr ⟨rew.linked ⟨chain, links⟩ (by simp), source⟩
  case consumers =>
    intro b hb
    obtain ⟨b', hb', same⟩ := extended_chain hb
    exact same ▸ rew.consumers b' hb'
  case ready => exact fun b hb => ⟨List.mem_append_left _ hb, (rew.ready b hb).2⟩
  case nodes =>
    rw [newNodes_extend]
    refine range'_map_append NodeId.mk rew.nodes ?_
    rw [← rew.nodeCount]
    exact gains.nodes
  case values =>
    rw [newValues_extend]
    refine range'_map_append ValueId.mk rew.values ?_
    rw [gains.target, h.valueCount]
    rfl
  case nodeCount =>
    rw [gains.nodeCount, rew.nodeCount, newNodes_extend, List.length_append, Nat.add_assoc]

theorem Forwarding.Built.extend (nested : r.Nested)
    (h : s.Built r level (done ++ [⟨chain, links⟩]) done)
    (hv : r.value? chain.carrier.id = some value)
    (gains : s.Gains value.type l chain.consumer (newBuffers (done ++ [⟨chain, links⟩])) before
      behind s')
    (source : l.source = endOf chain.carrier.id links)
    (body : (r.body.flatMap fun n => copiesFor (done ++ [⟨chain, links⟩]) n ++
      (if chain.consumer = n then [l.copy] else []) ++ [n]) =
        before ++ l.copy :: chain.consumer :: behind) :
    s'.Built r level (done ++ [⟨chain, links ++ [l]⟩]) done := by
  have ext := gains.ext
  constructor
  case rewritten => exact h.rewritten_extend nested hv gains source
  case body =>
    rw [gains.body, newBuffers_extend, ← body]
    simp only [copiesFor_extend]
  case slot => rw [gains.slot, h.slot, newBuffers_extend, List.length_append]
  case valueCount =>
    rw [gains.valueCount, h.valueCount, newValues_extend, List.length_append]
    rfl
  case level =>
    intro n hn
    refine (ext.level? ?_).trans (h.level n hn)
    rw [h.rewritten.nodeCount]
    omega
  case linkLevel =>
    intro b hb k hk
    rcases extended_cases hb hk with ⟨b', hb', -, hk'⟩ | ⟨-, rfl⟩
    · obtain ⟨known, -⟩ := h.known hb' hk'
      obtain ⟨copy, buffer⟩ := h.linkLevel b' hb' k hk'
      refine ⟨by rw [ext.level? (known k.copy (by simp [Link.nodes])), copy], fun n hn => ?_⟩
      rw [ext.level? (known n (by simp [Link.nodes, hn])), buffer n hn]
    · exact gains.levels

end Gains

/-- Where the consumer of a chain stands while chains are being built. -/
theorem Forwarding.Built.split {built wired : List BuiltChain} {s : Forwarding}
    (h : s.Built r level built wired) (nested : r.Nested) {x : NodeId} (hx : x ∈ r.body) :
    ∃ before behind, s.region.body = newBuffers built ++ (before ++ x :: behind) ∧
      x ∉ newBuffers built ++ before ∧ ∀ new : List NodeId,
        (r.body.flatMap fun n => copiesFor built n ++ (if x = n then new else []) ++ [n]) =
          before ++ (new ++ x :: behind) := by
  obtain ⟨pre, post, hb⟩ := List.append_of_mem hx
  have nodup := nested.bodyNodup
  rw [hb] at nodup
  obtain ⟨_, hpost, apart⟩ := List.nodup_append.mp nodup
  have notPre : x ∉ pre := fun hp => apart x hp x (by simp) rfl
  have notPost : x ∉ post := (List.nodup_cons.mp hpost).1
  have same : ∀ new ns : List NodeId, x ∉ ns →
      (ns.flatMap fun n => copiesFor built n ++ (if x = n then new else []) ++ [n]) =
        ns.flatMap fun n => copiesFor built n ++ [n] := by
    intro new ns hns
    refine List.flatMap_congr fun n hn => ?_
    have ne : x ≠ n := fun he => hns (he ▸ hn)
    simp [ne]
  have isOld : x ∉ newNodes built := by
    intro hn
    have := (h.rewritten.mem_newNodes_iff.mp hn).1
    have := nested.bodyKnown x hx
    omega
  have notCopy : ∀ n, x ∉ copiesFor built n := by
    intro n hc
    obtain ⟨b, hb, _, l, hl, hc⟩ := mem_copiesFor.mp hc
    exact isOld (mem_newNodes.mpr ⟨b, hb, l, hl, Or.inr hc.symm⟩)
  refine ⟨pre.flatMap (fun n => copiesFor built n ++ [n]) ++ copiesFor built x,
    post.flatMap fun n => copiesFor built n ++ [n], ?_, ?_, fun new => ?_⟩
  · rw [h.body, hb]
    simp
  · intro hmem
    rcases List.mem_append.mp hmem with hmem | hmem
    · obtain ⟨b, hb, l, hl, hbuf⟩ := mem_newBuffers.mp hmem
      exact isOld (mem_newNodes.mpr ⟨b, hb, l, hl, Or.inl hbuf⟩)
    · rcases List.mem_append.mp hmem with hmem | hmem
      · obtain ⟨n, hn, hmem⟩ := List.mem_flatMap.mp hmem
        rcases List.mem_append.mp hmem with hmem | hmem
        · exact notCopy n hmem
        · exact notPre (List.mem_singleton.mp hmem ▸ hn)
      · exact notCopy x hmem
  · rw [hb, List.flatMap_append, List.flatMap_cons, same new pre notPre, same new post notPost]
    simp

theorem Forwarding.Built.addCopy {s : Forwarding} {value : Value} (nested : r.Nested)
    (h : s.Built r level (done ++ [⟨chain, links⟩]) done)
    (hv : r.value? chain.carrier.id = some value) (needs : chain.needsAlloc = value.type.isMemref)
    (span : Span) (upper : Nat) :
    ∃ s' l, Forwarding.addCopy chain value.type span (s, endOf chain.carrier.id links) upper =
        some (s', endOf chain.carrier.id (links ++ [l])) ∧ l.level = upper ∧
      s'.Built r level (done ++ [⟨chain, links ++ [l]⟩]) done := by
  have hx : chain.consumer ∈ r.body := h.rewritten.consumers ⟨chain, links⟩ (by simp)
  have hk := nested.bodyKnown _ hx
  have known : chain.consumer.index < s.region.nodes.size := by
    rw [h.rewritten.nodeCount]
    omega
  have top : s.region.parent? chain.consumer = none := by
    rw [h.rewritten.parent _ hk]
    exact nested.bodyParent _ hx
  obtain ⟨before, behind, hb, first, whole⟩ := h.split nested hx
  obtain ⟨s', l, hadd, hlevel, source, gains⟩ := addCopy_gains hb h.slot first known top needs span
    (endOf chain.carrier.id links) upper
  refine ⟨s', l, ?_, hlevel, h.extend nested hv gains source (whole [l.copy])⟩
  rw [endOf_append]
  exact hadd

theorem Forwarding.Built.addCopies {s : Forwarding} {value : Value} (nested : r.Nested)
    (h : s.Built r level (done ++ [⟨chain, links⟩]) done)
    (hv : r.value? chain.carrier.id = some value) (needs : chain.needsAlloc = value.type.isMemref)
    (span : Span) (levels : List Nat) :
    ∃ s' links', levels.foldlM (Forwarding.addCopy chain value.type span)
        (s, endOf chain.carrier.id links) = some (s', endOf chain.carrier.id links') ∧
      links'.map Link.level = links.map Link.level ++ levels ∧
      s'.Built r level (done ++ [⟨chain, links'⟩]) done := by
  induction levels generalizing s links with
  | nil => exact ⟨s, links, rfl, by simp, h⟩
  | cons upper levels ih =>
    obtain ⟨s₁, l, hadd, hlevel, built⟩ := h.addCopy nested hv needs span upper
    obtain ⟨s', links', hfold, hlevels, built'⟩ := ih built
    refine ⟨s', links', ?_, by simpa [hlevel] using hlevels, built'⟩
    rw [List.foldlM_cons, hadd]
    exact hfold

end Extend

theorem newBuffers_sublist (built : List BuiltChain) :
    (newBuffers built).Sublist (newNodes built) :=
  List.Sublist.flatMap_right _ fun _ _ =>
    List.Sublist.flatMap_right _ fun _ _ => List.sublist_append_left _ _

theorem copiesFor_sublist (built : List BuiltChain) (n : NodeId) :
    (copiesFor built n).Sublist (newNodes built) := by
  refine (List.filter_sublist.flatMap _).trans (List.Sublist.flatMap_right _ fun b _ => ?_)
  rw [← List.flatMap_singleton' (b.links.map Link.copy), List.flatMap_map]
  exact List.Sublist.flatMap_right _ fun l _ => List.sublist_append_right _ _

section Body

variable {r : Region} {level : NodeId → Option Nat} {built wired : List BuiltChain} {s : Forwarding}

theorem Forwarding.Built.mem_body (h : s.Built r level built wired) {n : NodeId} :
    n ∈ s.region.body ↔ n ∈ r.body ∨ n ∈ newNodes built := by
  rw [h.body, List.mem_append, List.mem_flatMap]
  simp only [List.mem_append, List.mem_singleton, mem_newBuffers, mem_copiesFor, mem_newNodes]
  constructor
  · rintro (⟨b, hb, l, hl, hn⟩ | ⟨m, hm, ⟨b, hb, _, l, hl, hn⟩ | rfl⟩)
    · exact Or.inr ⟨b, hb, l, hl, Or.inl hn⟩
    · exact Or.inr ⟨b, hb, l, hl, Or.inr hn.symm⟩
    · exact Or.inl hm
  · rintro (hn | ⟨b, hb, l, hl, hn | rfl⟩)
    · exact Or.inr ⟨n, hn, Or.inr rfl⟩
    · exact Or.inl ⟨b, hb, l, hl, hn⟩
    · exact Or.inr ⟨b.chain.consumer, h.rewritten.consumers b hb, Or.inl ⟨b, hb, rfl, l, hl, rfl⟩⟩

theorem Region.Rewritten.disjoint {t : Region} (h : r.Rewritten built wired t) (nested : r.Nested)
    {n m : NodeId} (hn : n ∈ newNodes built) (hm : m ∈ r.body) : n ≠ m := by
  rintro rfl
  have := (h.mem_newNodes_iff.mp hn).1
  have := nested.bodyKnown n hm
  omega

theorem Region.Rewritten.copy_ne_buffer {t : Region} (h : r.Rewritten built wired t)
    {b b' : BuiltChain} {l l' : Link} (hb : b ∈ built) (hb' : b' ∈ built) (hl : l ∈ b.links)
    (hl' : l' ∈ b'.links) : l.buffer ≠ some l'.copy := by
  intro he
  obtain ⟨rfl, rfl⟩ := h.link_of_node hb hb' hl hl' (n := l'.copy) (by simp [Link.nodes, he])
    (by simp [Link.nodes])
  have nodup := (List.nodup_flatMap.mp ((List.nodup_flatMap.mp h.nodes_nodup).1 b hb)).1 l hl
  simp [Link.nodes, he] at nodup

theorem Forwarding.Built.bodyNodup (h : s.Built r level built wired) (nested : r.Nested) :
    s.region.body.Nodup := by
  have rew := h.rewritten
  have isNew : ∀ n c, c ∈ copiesFor built n → c ∈ newNodes built := fun n c hc =>
    (copiesFor_sublist built n).subset hc
  rw [h.body]
  refine List.nodup_append.mpr ⟨rew.nodes_nodup.sublist (newBuffers_sublist built),
    List.nodup_flatMap.mpr ⟨fun n hn => ?_, ?_⟩, ?_⟩
  · refine List.nodup_append.mpr ⟨rew.nodes_nodup.sublist (copiesFor_sublist built n),
      List.nodup_singleton n, fun c hc m hm => ?_⟩
    exact rew.disjoint nested (isNew n c hc) (List.mem_singleton.mp hm ▸ hn)
  · refine (List.pairwise_iff_forall_sublist.mpr fun {n m} hnm => ?_)
    have hn : n ∈ r.body := hnm.subset (by simp)
    have hm : m ∈ r.body := hnm.subset (by simp)
    have ne : n ≠ m := Before.ne nested.bodyNodup hnm
    intro c hc hc'
    rcases List.mem_append.mp hc with hc | hc
    · rcases List.mem_append.mp hc' with hc' | hc'
      · obtain ⟨b, hb, rfl, l, hl, rfl⟩ := mem_copiesFor.mp hc
        obtain ⟨b', hb', rfl, l', hl', he⟩ := mem_copiesFor.mp hc'
        obtain ⟨rfl, _⟩ := rew.link_of_copy hb hb' hl hl' he.symm
        exact ne rfl
      · exact rew.disjoint nested (isNew n c hc) hm (List.mem_singleton.mp hc')
    · rcases List.mem_append.mp hc' with hc' | hc'
      · exact rew.disjoint nested (isNew m c hc') hn (List.mem_singleton.mp hc)
      · exact ne ((List.mem_singleton.mp hc).symm.trans (List.mem_singleton.mp hc'))
  · intro n hn c hc he
    obtain ⟨b, hb, l, hl, hbuf⟩ := mem_newBuffers.mp hn
    obtain ⟨m, hm, hc⟩ := List.mem_flatMap.mp hc
    rcases List.mem_append.mp hc with hc | hc
    · obtain ⟨b', hb', _, l', hl', hcopy⟩ := mem_copiesFor.mp hc
      exact rew.copy_ne_buffer hb hb' hl hl' (by rw [hbuf, he, hcopy])
    · obtain rfl := List.mem_singleton.mp hc
      exact rew.disjoint nested (mem_newNodes.mpr ⟨b, hb, l, hl, Or.inl hbuf⟩) hm he

theorem Forwarding.Built.nested (h : s.Built r level built wired) (nested : r.Nested) :
    s.region.Nested := by
  have rew := h.rewritten
  have parentNew : ∀ n ∈ newNodes built, s.region.parent? n = none := by
    intro n hn
    obtain ⟨b, hb, l, hl, hbuf | rfl⟩ := mem_newNodes.mp hn
    · obtain ⟨_, _, link⟩ := rew.hasLink hb hl
      exact (link.buffer n hbuf).2.2.2
    · obtain ⟨_, _, link⟩ := rew.hasLink hb hl
      exact link.parent
  refine ⟨fun n hn => ?_, h.bodyNodup nested, fun n hn => ?_, fun p c hc => ?_, fun p => ?_,
    fun p c hc => ?_, fun p c hc => nested.childDeeper p c (rew.child.mp hc)⟩
  · rcases h.mem_body.mp hn with hn | hn
    · have := nested.bodyKnown n hn
      rw [rew.nodeCount]
      omega
    · exact (rew.mem_newNodes_iff.mp hn).2
  · rcases h.mem_body.mp hn with hn | hn
    · rw [rew.parent n (nested.bodyKnown n hn)]
      exact nested.bodyParent n hn
    · exact parentNew n hn
  · have := nested.childKnown p c (rew.child.mp hc)
    rw [rew.nodeCount]
    omega
  · by_cases hp : p.index < r.nodes.size
    · rw [rew.bodyOf hp]
      exact nested.childNodup p
    · by_cases hs : p.index < s.region.nodes.size
      · rw [rew.bodyOf_new ((rew.node_cases hs).resolve_left hp)]
        exact List.nodup_nil
      · rw [Region.bodyOf_eq_nil (Nat.le_of_not_lt hs)]
        exact List.nodup_nil
  · have hc' := rew.child.mp hc
    rw [rew.parent c (nested.childKnown p c hc')]
    exact nested.childParent p c hc'

end Body

/-- One value in the place of another. -/
def swap (old new v : ValueId) : ValueId :=
  if v = old then new else v

theorem swap_swap (old new v : ValueId) : swap old new (swap old new v) = swap old new v := by
  by_cases h : v = old
  · by_cases hn : new = old <;> simp [swap, h, hn]
  · simp [swap, h]

/-- In some nodes of a region, one value is used in the place of another. -/
structure Region.Redirected (r : Region) (ns : List NodeId) (old new : ValueId) (s : Region) :
    Prop where
  rest : s = { r with nodes := s.nodes }
  size : s.nodes.size = r.nodes.size
  node : ∀ n, s.node? n = if n ∈ ns then
    (r.node? n).map fun node => { node with operands := node.operands.map (swap old new) }
    else r.node? n

section Redirected

variable {r s t : Region} {ns ms : List NodeId} {old new : ValueId} {n : NodeId}

theorem Region.Redirected.refl (r : Region) (old new : ValueId) : r.Redirected [] old new r :=
  ⟨rfl, rfl, fun n => by simp⟩

theorem Region.Redirected.trans (h : r.Redirected ns old new s) (h' : s.Redirected ms old new t) :
    r.Redirected (ns ++ ms) old new t := by
  refine ⟨by rw [h'.rest, h.rest], h'.size.trans h.size, fun n => ?_⟩
  rw [h'.node, h.node]
  by_cases hn : n ∈ ns <;> by_cases hm : n ∈ ms <;> simp [hn, hm, Function.comp_def, swap_swap]

theorem Region.replaceOperand_redirected (r : Region) (old new : ValueId) (n : NodeId) :
    r.Redirected [n] old new (r.replaceOperand old new n).1 := by
  refine ⟨rfl, Array.size_modify, fun m => ?_⟩
  simp only [List.mem_singleton]
  exact node?_modifyNode m

theorem Region.replaceOperands_redirected (r : Region) (old new : ValueId) (ns : List NodeId)
    (count : Nat) : ∃ s count', ns.foldl (fun (state : Region × Nat) n =>
        ((state.1.replaceOperand old new n).1, state.2 + (state.1.replaceOperand old new n).2))
      (r, count) = (s, count') ∧ r.Redirected ns old new s := by
  induction ns generalizing r count with
  | nil => exact ⟨r, count, rfl, .refl r old new⟩
  | cons n ns ih =>
    obtain ⟨s, count', run, rest⟩ := ih (r.replaceOperand old new n).1
      (count + (r.replaceOperand old new n).2)
    exact ⟨s, count', run, (r.replaceOperand_redirected old new n).trans rest⟩

/-- Replacing uses changes operands in the scope, and nothing else. -/
theorem Region.replaceUses_redirected {scope : NodeId} (known : scope.index < r.nodes.size) :
    ∃ s count, r.replaceUses old new scope = some (s, count) ∧
      r.Redirected (r.walk scope) old new s := by
  obtain ⟨node, hn⟩ := node?_eq_some known
  obtain ⟨s, count, run, redirected⟩ := r.replaceOperands_redirected old new (r.walk scope) 0
  refine ⟨s, count, ?_, redirected⟩
  simp only [replaceUses, hn, bind, Option.bind]
  exact congrArg some run

theorem Region.Redirected.kind? (h : r.Redirected ns old new s) (n : NodeId) :
    s.kind? n = r.kind? n := by
  simp only [Region.kind?, h.node]
  split <;> cases r.node? n <;> rfl

theorem Region.Redirected.results (h : r.Redirected ns old new s) (n : NodeId) :
    s.results n = r.results n := by
  simp only [Region.results, h.node]
  split <;> cases r.node? n <;> rfl

theorem Region.Redirected.parent? (h : r.Redirected ns old new s) (n : NodeId) :
    s.parent? n = r.parent? n := by
  simp only [Region.parent?, h.node]
  split <;> cases r.node? n <;> rfl

theorem Region.Redirected.level? (h : r.Redirected ns old new s) (n : NodeId) :
    s.level? n = r.level? n := by
  simp only [Region.level?, h.node]
  split <;> cases r.node? n <;> rfl

theorem Region.Redirected.value? (h : r.Redirected ns old new s) (v : ValueId) :
    s.value? v = r.value? v := by
  rw [h.rest]
  rfl

theorem Region.Redirected.operands (h : r.Redirected ns old new s) (hn : n ∈ ns) :
    s.operands n = (r.operands n).map (swap old new) := by
  simp only [Region.operands, h.node, if_pos hn]
  cases r.node? n <;> rfl

theorem Region.Redirected.operands_outside (h : r.Redirected ns old new s) (hn : n ∉ ns) :
    s.operands n = r.operands n := by
  simp only [Region.operands, h.node, if_neg hn]

theorem Region.Redirected.hasLink (h : r.Redirected ns old new s) {type : ValueType} {l : Link}
    (link : r.HasLink type l) (outside : ∀ n ∈ l.nodes, n ∉ ns) : s.HasLink type l := by
  refine ⟨(h.kind? _).trans link.kind, ?_, (h.results _).trans link.results,
    (h.parent? _).trans link.parent, fun n hn => ?_, link.filled, ?_⟩
  · rw [h.operands_outside (outside _ (by simp [Link.nodes])), link.operands]
  · rw [h.kind?, h.results, h.parent?, h.operands_outside (outside _ (by simp [Link.nodes, hn]))]
    exact link.buffer n hn
  · rw [h.value?]
    exact link.target

end Redirected

theorem rewired_append {done : List BuiltChain} {b : BuiltChain} {t : NodeId} {v : ValueId} :
    rewired (done ++ [b]) t v =
      if done.find? (fun b => b.chain.carries t v) = none ∧ b.chain.carries t v = true then
        endOf v b.links else rewired done t v := by
  unfold rewired
  rw [List.find?_append]
  cases done.find? fun b => b.chain.carries t v with
  | some b' => simp
  | none => by_cases h : b.chain.carries t v = true <;> simp [h]

section Wire

variable {r t : Region} {level : NodeId → Option Nat} {done : List BuiltChain} {b : BuiltChain}
  {s : Forwarding}

theorem Forwarding.Built.swap_rewired (h : s.Built r level (done ++ [b]) done) (v : ValueId) :
    swap b.chain.carrier.id (endOf b.chain.carrier.id b.links) (rewired done b.chain.consumer v) =
      rewired (done ++ [b]) b.chain.consumer v := by
  obtain ⟨value, hv, _⟩ := h.rewritten.links b (by simp)
  have known := Region.index_lt_of_value? hv
  rw [rewired_append]
  cases hf : done.find? fun c => c.chain.carries b.chain.consumer v with
  | none =>
    rw [rewired_of_none hf]
    by_cases he : v = b.chain.carrier.id
    · subst he
      simp [swap, CopyChain.carries]
    · have miss : ¬ b.chain.carries b.chain.consumer v = true := fun hc =>
        he (CopyChain.carries_iff.mp hc).2.symm
      simp [swap, he, miss]
  | some c =>
    obtain ⟨he, hc, _, _⟩ := rewired_of_some hf
    obtain ⟨hbuilt, ne⟩ := h.rewritten.ready c hc
    obtain ⟨l, hl, _, hend⟩ := @endOf_mem v c.links ne
    have new := h.rewritten.target_new hbuilt hl
    have other : rewired done b.chain.consumer v ≠ b.chain.carrier.id := by
      rw [he, hend]
      rintro hsame
      rw [hsame] at new
      omega
    simp [swap, other]

/-- What is inside a node of the body was there before, and no link is inside it. -/
theorem Forwarding.Built.mem_walk (nested : r.Nested) (h : s.Built r level (done ++ [b]) done)
    {x n : NodeId} (hx : x ∈ r.body) : n ∈ s.region.walk x ↔ r.Within x n := by
  have hs := h.nested nested
  rw [hs.mem_walk (hs.bodyKnown x (h.mem_body.mpr (Or.inl hx))), h.rewritten.within]

/-- The consumer of a chain that is complete reads its end. -/
theorem Forwarding.Built.rewritten_wire (nested : r.Nested)
    (h : s.Built r level (done ++ [b]) done) (ne : b.links ≠ [])
    (red : s.region.Redirected (s.region.walk b.chain.consumer) b.chain.carrier.id
      (endOf b.chain.carrier.id b.links) t) : r.Rewritten (done ++ [b]) (done ++ [b]) t := by
  have rew := h.rewritten
  have hx : b.chain.consumer ∈ r.body := rew.consumers b (by simp)
  have inner {n : NodeId} := @mem_walk r level done b s nested h b.chain.consumer n hx
  constructor
  case args => exact (congrArg Region.args red.rest).trans rew.args
  case kind => exact fun n hn => (red.kind? n).trans (rew.kind n hn)
  case results => exact fun n hn => (red.results n).trans (rew.results n hn)
  case parent => exact fun n hn => (red.parent? n).trans (rew.parent n hn)
  case operands =>
    intro u hu n hn
    by_cases same : u = b.chain.consumer
    · subst same
      rw [red.operands (inner.mpr hn), rew.operands _ hu n hn, List.map_map]
      exact List.map_congr_left fun v _ => h.swap_rewired v
    · have outside : ¬ r.Within b.chain.consumer n := fun hw =>
        same (nested.forest.top_unique hu hx hn hw)
      rw [red.operands_outside fun hw => outside (inner.mp hw), rew.operands u hu n hn]
      refine List.map_congr_left fun v _ => ?_
      have miss : ¬ b.chain.carries u v = true := fun hc =>
        same (CopyChain.carries_iff.mp hc).1.symm
      rw [rewired_append, if_neg fun hc => miss hc.2]
  case loose =>
    intro n hn loose
    rw [red.operands_outside fun hw => loose _ hx (inner.mp hw), rew.loose n hn loose]
  case value => exact fun v hv => (red.value? v).trans (rew.value v hv)
  case links =>
    intro c hc
    obtain ⟨value, hv, links⟩ := rew.links c hc
    refine ⟨value, hv, fun l hl => red.hasLink (links l hl) fun n hn hw => ?_⟩
    have old := nested.known (nested.bodyKnown _ hx) (inner.mp hw)
    have new : n ∈ newNodes (done ++ [b]) :=
      List.mem_flatMap.mpr ⟨c, hc, List.mem_flatMap.mpr ⟨l, hl, hn⟩⟩
    have := (rew.mem_newNodes_iff.mp new).1
    omega
  case linked => exact rew.linked
  case consumers => exact rew.consumers
  case ready =>
    intro c hc
    rcases List.mem_append.mp hc with hc | hc
    · exact ⟨List.mem_append_left _ hc, (rew.ready c hc).2⟩
    · obtain rfl := List.mem_singleton.mp hc
      exact ⟨by simp, ne⟩
  case nodes => exact rew.nodes
  case values => exact rew.values
  case nodeCount => exact red.size.trans rew.nodeCount

theorem Forwarding.Built.wire (nested : r.Nested) (h : s.Built r level (done ++ [b]) done)
    (ne : b.links ≠ []) (red : s.region.Redirected (s.region.walk b.chain.consumer)
      b.chain.carrier.id (endOf b.chain.carrier.id b.links) t) (counts : Forwarded) :
    Forwarding.Built r level (done ++ [b]) (done ++ [b]) ⟨t, s.slot, counts⟩ := by
  refine ⟨h.rewritten_wire nested ne red, (congrArg Region.body red.rest).trans h.body, h.slot,
    (congrArg (fun r => r.values.size) red.rest).trans h.valueCount,
    fun n hn => (red.level? n).trans (h.level n hn), fun c hc l hl => ?_⟩
  obtain ⟨copy, buffer⟩ := h.linkLevel c hc l hl
  exact ⟨(red.level? _).trans copy, fun n hn => (red.level? n).trans (buffer n hn)⟩

end Wire

/-- What a chain has to be for it to be built in a region. -/
structure CopyChain.Fits (chain : CopyChain) (r : Region) : Prop where
  consumer : chain.consumer ∈ r.body
  producer : chain.producer.index < r.nodes.size
  carrier : chain.carrier.id.index < r.values.size
  levels : chain.levels ≠ []
  needsAlloc : chain.needsAlloc = r.isMemref chain.carrier.id

section Chains

variable {r : Region} {level : NodeId → Option Nat} {done : List BuiltChain} {s : Forwarding}

/-- A chain without links changes nothing yet. -/
theorem Forwarding.Built.begin (h : s.Built r level done done) {chain : CopyChain} {value : Value}
    (hx : chain.consumer ∈ r.body) (hv : r.value? chain.carrier.id = some value) :
    s.Built r level (done ++ [⟨chain, []⟩]) done := by
  obtain ⟨rew, body, slot, valueCount, level, linkLevel⟩ := h
  have nodes : newNodes (done ++ [⟨chain, []⟩]) = newNodes done := by simp [newNodes]
  have values : newValues (done ++ [⟨chain, []⟩]) = newValues done := by simp [newValues]
  have buffers : newBuffers (done ++ [⟨chain, []⟩]) = newBuffers done := by simp [newBuffers]
  have copies : copiesFor (done ++ [⟨chain, []⟩]) = copiesFor done := by
    funext n
    by_cases hc : chain.consumer = n <;> simp [copiesFor, hc]
  have cases : ∀ b ∈ done ++ [⟨chain, []⟩], b ∈ done ∨ b = ⟨chain, []⟩ := fun b hb =>
    (List.mem_append.mp hb).imp_right List.mem_singleton.mp
  have rewritten : r.Rewritten (done ++ [⟨chain, []⟩]) done s.region := by
    refine ⟨rew.args, rew.kind, rew.results, rew.parent, rew.operands, rew.loose, rew.value,
      fun b hb => ?links, fun b hb => ?linked, fun b hb => ?consumers,
      fun b hb => ⟨List.mem_append_left _ hb, (rew.ready b hb).2⟩, nodes.symm ▸ rew.nodes,
      values.symm ▸ rew.values, nodes.symm ▸ rew.nodeCount⟩
    all_goals rcases cases b hb with hb | rfl
    case links.inl => exact rew.links b hb
    case links.inr => exact ⟨value, hv, by simp⟩
    case linked.inl => exact rew.linked b hb
    case linked.inr => trivial
    case consumers.inl => exact rew.consumers b hb
    case consumers.inr => exact hx
  refine ⟨rewritten, ?body, buffers.symm ▸ slot, values.symm ▸ valueCount, level,
    fun b hb l hl => ?linkLevel⟩
  case body =>
    rw [buffers, copies]
    exact body
  case linkLevel =>
    rcases cases b hb with hb | rfl
    · exact linkLevel b hb l hl
    · simp at hl

theorem Forwarding.Built.addChain (h : s.Built r level done done) (nested : r.Nested)
    {chain : CopyChain} (fits : chain.Fits r) :
    ∃ s' links, s.addChain chain = some s' ∧ links.map Link.level = chain.levels ∧
      s'.Built r level (done ++ [⟨chain, links⟩]) (done ++ [⟨chain, links⟩]) := by
  obtain ⟨value, hv⟩ := Region.value?_eq_some fits.carrier
  have known : ∀ n : NodeId, n.index < r.nodes.size → n.index < s.region.nodes.size := by
    intro n hn
    rw [h.rewritten.nodeCount]
    omega
  obtain ⟨producer, hp⟩ := Region.node?_eq_some (known _ fits.producer)
  have needs : chain.needsAlloc = value.type.isMemref := by
    rw [fits.needsAlloc]
    simp [Region.isMemref, hv]
  obtain ⟨s₁, links, hfold, hlevels, built⟩ :=
    (h.begin fits.consumer hv).addCopies nested hv needs producer.span chain.levels
  have ne : links ≠ [] := by
    rintro rfl
    exact fits.levels (by simpa using hlevels.symm)
  obtain ⟨t, count, hreplace, redirected⟩ := @Region.replaceUses_redirected s₁.region
    chain.carrier.id (endOf chain.carrier.id links) chain.consumer (by
      rw [built.rewritten.nodeCount]
      have := nested.bodyKnown _ fits.consumer
      omega)
  refine ⟨_, links, ?_, by simpa using hlevels, built.wire nested ne redirected
    { s₁.done with rewired := s₁.done.rewired + count }⟩
  have value' : s.region.value? chain.carrier.id = some value := by
    rw [h.rewritten.value _ fits.carrier, hv]
  have start' : chain.carrier.id = endOf chain.carrier.id [] := rfl
  unfold Forwarding.addChain
  simp only [value', hp, bind, Option.bind]
  rw [show chain.levels.foldlM (Forwarding.addCopy chain value.type producer.span)
    (s, chain.carrier.id) = _ from hfold]
  simp only [hreplace]
  rfl

theorem Forwarding.Built.addChains (h : s.Built r level done done) (nested : r.Nested)
    {chains : List CopyChain} (fits : ∀ chain ∈ chains, chain.Fits r) :
    ∃ s' more, chains.foldlM Forwarding.addChain s = some s' ∧
      more.map BuiltChain.chain = chains ∧
      (∀ b ∈ more, b.links.map Link.level = b.chain.levels) ∧
      s'.Built r level (done ++ more) (done ++ more) := by
  induction chains generalizing s done with
  | nil => exact ⟨s, [], rfl, rfl, by simp, by simpa using h⟩
  | cons chain chains ih =>
    obtain ⟨s₁, links, hadd, hlevels, built⟩ := h.addChain nested (fits chain (by simp))
    obtain ⟨s', more, hfold, hchains, levels, built'⟩ :=
      ih built fun c hc => fits c (List.mem_cons_of_mem _ hc)
    refine ⟨s', ⟨chain, links⟩ :: more, ?_, by simp [hchains], ?_, by simpa using built'⟩
    · rw [List.foldlM_cons, hadd]
      exact hfold
    · intro b hb
      rcases List.mem_cons.mp hb with rfl | hb
      · exact hlevels
      · exact levels b hb

end Chains

/-- Forwarding succeeds on levels and chains that fit a region, and builds all of the chains. -/
theorem Region.Nested.forward {r : Region} (nested : r.Nested) {levels : Levels} {b : Bypasses}
    (nodup : (levels.entries.map Prod.fst).Nodup)
    (known : ∀ n ∈ levels.entries.map Prod.fst, n.index < r.nodes.size)
    (fits : ∀ chain ∈ b.chains, chain.Fits r) :
    ∃ (s : Forwarding) (built : List BuiltChain),
      r.forward levels b = some (s.region, s.done) ∧
      built.map BuiltChain.chain = b.chains ∧
      (∀ c ∈ built, c.links.map Link.level = c.chain.levels) ∧
      s.Built r levels.get? built built := by
  have apply : levels.applyTo r.clearLevels = some (r.withLevels levels.get?) := by
    rw [clearLevels_eq, Levels.applyTo_eq nodup known]
    simp
  have same := r.sameNodes_withLevels levels.get?
  have start : (Forwarding.start (r.withLevels levels.get?)).Built r levels.get? [] [] := by
    refine ⟨⟨same.args, fun n _ => congrFun same.kind n, fun n _ => congrFun same.results n,
      fun n _ => congrFun same.parent n, fun t _ n _ => ?_, fun n _ _ => congrFun same.operands n,
      fun v _ => congrFun same.value v, by simp, by simp, by simp, by simp, rfl, rfl, same.size⟩,
      ?_, rfl, rfl, fun n hn => r.level?_withLevels _ hn, by simp⟩
    · have keep : rewired [] t = id := rfl
      rw [keep, List.map_id]
      exact congrFun same.operands n
    · have body : (fun n => copiesFor [] n ++ [n]) = fun n : NodeId => [n] := rfl
      rw [body, List.flatMap_singleton']
      rfl
  obtain ⟨s, built, hfold, chains, levels', done⟩ := start.addChains nested fits
  refine ⟨s, built, ?_, chains, levels', by simpa using done⟩
  simp only [Region.forward, apply, hfold, bind, Option.bind]
  rfl

end Staging
