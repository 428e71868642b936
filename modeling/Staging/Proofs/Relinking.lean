import Staging.Proofs.Legal

namespace Staging

/-- The chain whose end a node of the body reads in place of a value. -/
def chainTo (built : List BuiltChain) (t : NodeId) (v : ValueId) : Option BuiltChain :=
  built.find? fun b => b.chain.carries t v

/-- A node writes a buffer: a loop at any depth, an array copy the one that it copies into. -/
def Region.Stores (r : Region) (n : NodeId) (mem : ValueId) : Prop :=
  (r.isLoop n = true ∧ r.Touches n mem .write) ∨ r.copyTarget? n = some mem

/-- A node depends on one that writes a buffer as soon as it stands behind it. -/
def Region.Awaits (r : Region) (w : NodeId) (mem : ValueId) (c : NodeId) : Prop :=
  (r.isLoop w = true ∧ r.Touches w mem .write ∧ r.copiesOut mem c = true) ∨
    (r.copyTarget? w = some mem ∧ r.isDataflow c = true ∧ r.Mentions c mem)

/-- The pairs of nodes between which dependences are found once chains have been built. -/
inductive Region.Relinked (r : Region) (level : NodeId → Option Nat) (built : List BuiltChain) :
    NodeId → NodeId → Prop
  /-- A dependence of before by way of a value that both ends still use. -/
  | kept {p c : NodeId} {carrier : Carrier} (feeds : r.Feeds p carrier c)
      (reads : chainTo built c carrier.id = none)
      (writes : carrier.isMemory = true → chainTo built p carrier.id = none) :
      Relinked r level built p c
  /-- A node that writes a buffer has come to stand in front of one that uses it. -/
  | overtaken {p c : NodeId} {mem : ValueId} {upper lower : Nat} (awaits : r.Awaits p mem c)
      (earlier : Before r.body c p) (hu : level p = some upper) (hl : level c = some lower)
      (hlt : lower < upper) (reads : chainTo built c mem = none)
      (writes : chainTo built p mem = none) : Relinked r level built p c
  /-- The first copy of a chain reads what a node writes that stands in front of it. -/
  | stored {p : NodeId} {b : BuiltChain} {l : Link} {upper : Nat} (hb : b ∈ built)
      (hl : b.links.head? = some l) (hp : p ∈ r.body) (stores : r.Stores p b.chain.carrier.id)
      (writes : chainTo built p b.chain.carrier.id = none) (hu : level p = some upper)
      (ahead : l.level < upper ∨ l.level = upper ∧ Before r.body p b.chain.consumer) :
      Relinked r level built p l.copy
  /-- The first copy of a chain reads the result of a node. -/
  | computed {p : NodeId} {b : BuiltChain} {l : Link} (hb : b ∈ built)
      (hl : b.links.head? = some l) (hp : p ∈ r.body) (scheduled : r.isDataflow p = true)
      (noLoop : r.isLoop p = false) (results : b.chain.carrier.id ∈ r.results p)
      (shaped : r.isShaped b.chain.carrier.id = true) : Relinked r level built p l.copy
  /-- A copy of a chain reads what the one before it writes. -/
  | handed {b : BuiltChain} {k l : Link} (hb : b ∈ built) (hkl : [k, l] <:+: b.links) :
      Relinked r level built k.copy l.copy
  /-- A consumer reads the last copy of the first chain that carries a value to it. -/
  | delivered {b : BuiltChain} {l : Link} (hb : b ∈ built) (hl : b.links.getLast? = some l)
      (first : chainTo built b.chain.consumer b.chain.carrier.id = some b) :
      Relinked r level built l.copy b.chain.consumer

theorem Region.Awaits.feeds {r : Region} {w c : NodeId} {mem : ValueId} (h : r.Awaits w mem c)
    (later : Before r.body w c) : r.Feeds w (.memory mem) c := by
  rcases h with ⟨loop, writes, copies⟩ | ⟨target, scheduled, mentions⟩
  · exact .copyOut loop writes copies later
  · exact .copyIn target scheduled mentions later

theorem Region.Awaits.isDataflow {r : Region} {w c : NodeId} {mem : ValueId}
    (h : r.Awaits w mem c) : r.isDataflow w = true ∧ r.isDataflow c = true := by
  rcases h with ⟨loop, _, copies⟩ | ⟨target, scheduled, _⟩
  · exact ⟨isDataflow_of_isLoop loop, isDataflow_of_copiesOut copies⟩
  · exact ⟨(isLoop_of_copyTarget? target).2, scheduled⟩

section Rewritten

variable {r s : Region} {built : List BuiltChain} {b : BuiltChain} {k l : Link} {t : NodeId}
  {v w : ValueId}

/-- What a node of the body mentions was mentioned before and is carried by no chain, or it is
the end of the first chain that carries something there. -/
theorem Region.Rewritten.mention_cases (h : r.Rewritten built built s) (wf : r.WellFormed)
    (ht : t ∈ r.body) (hw : s.Mentions t w) :
    (w.index < r.values.size ∧ r.Mentions t w ∧ chainTo built t w = none) ∨
      ∃ b ∈ built, ∃ l, b.links.getLast? = some l ∧ l.target = w ∧ b.chain.consumer = t ∧
        chainTo built t b.chain.carrier.id = some b := by
  obtain ⟨v, hv, he⟩ := (h.mentions_iff ht).mp hw
  cases hf : chainTo built t v with
  | none =>
    obtain rfl : v = w := (rewired_of_none hf).symm.trans he
    exact Or.inl ⟨wf.sound.known_of_mentions ht hv, hv, hf⟩
  | some b =>
    obtain ⟨hend, hb, rfl, rfl⟩ := rewired_of_some hf
    obtain ⟨l, _, hlast, hl⟩ := @endOf_mem b.chain.carrier.id b.links (h.ready b hb).2
    exact Or.inr ⟨b, hb, l, hlast, hl.symm.trans (hend.symm.trans he), rfl, hf⟩

/-- A node of the body that mentions what a link writes is the consumer of its chain, and the
link is the last one. -/
theorem Region.Rewritten.mentions_target (h : r.Rewritten built built s) (wf : r.WellFormed)
    (ht : t ∈ r.body) (hb : b ∈ built) (hl : l ∈ b.links) (hm : s.Mentions t l.target) :
    b.links.getLast? = some l ∧ b.chain.consumer = t ∧
      chainTo built t b.chain.carrier.id = some b := by
  rcases h.mention_cases wf ht hm with ⟨low, _⟩ | ⟨b', hb', l', hlast, he, hc, first⟩
  · have := h.target_new hb hl
    omega
  · obtain ⟨rfl, rfl⟩ := h.link_of_target hb hb' hl (List.mem_of_getLast? hlast) he.symm
    exact ⟨hlast, hc, first⟩

/-- What two nodes of the body mention was mentioned by both, and is carried to neither. -/
theorem Region.Rewritten.mentions_both (h : r.Rewritten built built s) (wf : r.WellFormed)
    {t' : NodeId} (ht : t ∈ r.body) (ht' : t' ∈ r.body) (ne : t ≠ t') (hm : s.Mentions t w)
    (hm' : s.Mentions t' w) :
    w.index < r.values.size ∧ chainTo built t w = none ∧ chainTo built t' w = none := by
  rcases h.mention_cases wf ht hm with ⟨low, _, free⟩ | ⟨b, hb, l, hlast, rfl, hc, _⟩
  · exact ⟨low, free, ((h.mentions_old ht' low).mp hm').2⟩
  · obtain ⟨_, hc', _⟩ := h.mentions_target wf ht' hb (List.mem_of_getLast? hlast) hm'
    exact absurd (hc.symm.trans hc') ne

theorem Region.Rewritten.copiesOut_old (h : r.Rewritten built built s) (wf : r.WellFormed)
    (ht : t ∈ r.body) (hw : w.index < r.values.size) :
    s.copiesOut w t = true ↔ r.copiesOut w t = true ∧ chainTo built t w = none := by
  rw [copiesOut_iff, copiesOut_iff, h.kind t (wf.bodyKnown t ht),
    h.operands t ht t (Within.refl r t), and_assoc]
  refine and_congr_right fun _ => ?_
  constructor
  · rintro ⟨target, ho⟩
    obtain ⟨source, target', hop, hs, _⟩ : ∃ a b, r.operands t = [a, b] ∧
        rewired built t a = w ∧ rewired built t b = target := by
      simpa [List.map_eq_cons_iff] using ho
    obtain ⟨rfl, free⟩ := (h.rewired_old hw).mp hs
    exact ⟨⟨target', hop⟩, free⟩
  · rintro ⟨⟨target, ho⟩, free⟩
    exact ⟨rewired built t target, by simp [ho, rewired_of_none free]⟩

theorem Region.Rewritten.copyTarget?_old (h : r.Rewritten built built s) (wf : r.WellFormed)
    (ht : t ∈ r.body) (hw : w.index < r.values.size) :
    s.copyTarget? t = some w ↔ r.copyTarget? t = some w ∧ chainTo built t w = none := by
  rw [copyTarget?_iff, copyTarget?_iff, h.kind t (wf.bodyKnown t ht),
    h.operands t ht t (Within.refl r t), and_assoc]
  refine and_congr_right fun _ => ?_
  constructor
  · rintro ⟨source, ho⟩
    obtain ⟨source', target, hop, _, hs⟩ : ∃ a b, r.operands t = [a, b] ∧
        rewired built t a = source ∧ rewired built t b = w := by
      simpa [List.map_eq_cons_iff] using ho
    obtain ⟨rfl, free⟩ := (h.rewired_old hw).mp hs
    exact ⟨⟨source', hop⟩, free⟩
  · rintro ⟨⟨source, ho⟩, free⟩
    exact ⟨rewired built t source, by simp [ho, rewired_of_none free]⟩

theorem Region.Rewritten.copiesOut_copy (h : r.Rewritten built built s) (hb : b ∈ built)
    (hl : l ∈ b.links) : s.copiesOut w l.copy = true ↔ l.buffer.isSome = true ∧ l.source = w := by
  obtain ⟨_, _, link⟩ := h.hasLink hb hl
  rw [copiesOut_iff, link.kind, link.operands]
  split <;> simp_all

theorem Region.Rewritten.copyTarget?_copy (h : r.Rewritten built built s) (hb : b ∈ built)
    (hl : l ∈ b.links) :
    s.copyTarget? l.copy = some w ↔ l.buffer.isSome = true ∧ l.target = w := by
  obtain ⟨_, _, link⟩ := h.hasLink hb hl
  rw [copyTarget?_iff, link.kind, link.operands]
  split <;> simp_all

theorem Region.Rewritten.isLoop_old (h : r.Rewritten built built s) (wf : r.WellFormed)
    (ht : t ∈ r.body) : s.isLoop t = r.isLoop t := by
  simp [Region.isLoop, h.kind t (wf.bodyKnown t ht)]

theorem Region.Rewritten.isDataflow_old (h : r.Rewritten built built s) (wf : r.WellFormed)
    (ht : t ∈ r.body) : s.isDataflow t = r.isDataflow t := by
  simp [Region.isDataflow, h.kind t (wf.bodyKnown t ht)]

theorem Region.Rewritten.isShaped_old (h : r.Rewritten built built s)
    (hw : w.index < r.values.size) : s.isShaped w = r.isShaped w := by
  simp [Region.isShaped, h.value w hw]

end Rewritten

section Legalized

variable {r out : Region} {o : Options} {plan : Plan} {built : List BuiltChain} {s : Forwarding}
  {b : BuiltChain} {k l : Link} {x y : NodeId} {lx ly : Nat}

theorem Region.Legalized.rewritten (h : r.Legalized o plan built s out) :
    r.Rewritten built built out :=
  h.threaded.rewritten.sameNodes h.same

theorem Region.Legalized.mem_cases (h : r.Legalized o plan built s out) {n : NodeId}
    (hn : n ∈ out.body) (scheduled : out.isDataflow n = true) :
    n ∈ r.body ∨ ∃ b ∈ built, ∃ l ∈ b.links, n = l.copy := by
  rcases h.threaded.built.mem_body.mp (h.mem_body.mp hn) with hn | hn
  · exact Or.inl hn
  · obtain ⟨b, hb, l, hl, hbuf | rfl⟩ := mem_newNodes.mp hn
    · obtain ⟨_, _, link⟩ := h.rewritten.hasLink hb hl
      simp [Region.isDataflow, (link.buffer n hbuf).1, NodeKind.isDataflow] at scheduled
    · exact Or.inr ⟨b, hb, l, hl, rfl⟩

theorem Region.Legalized.mem_old (h : r.Legalized o plan built s out) {n : NodeId}
    (hn : n ∈ r.body) : n ∈ out.body :=
  h.mem_body.mpr (h.threaded.built.sublist.subset hn)

theorem Region.Legalized.mem_copy (h : r.Legalized o plan built s out) (hb : b ∈ built)
    (hl : l ∈ b.links) : l.copy ∈ out.body :=
  h.mem_body.mpr
    (h.threaded.built.mem_body.mpr (Or.inr (mem_newNodes.mpr ⟨b, hb, l, hl, Or.inr rfl⟩)))

theorem Region.Legalized.nodup (h : r.Legalized o plan built s out) : out.body.Nodup :=
  h.wellFormed.bodyNodup

/-- Nodes stand by level, highest level first, and within a level in the order that they had. -/
theorem Region.Legalized.before_iff (h : r.Legalized o plan built s out)
    (hx : x ∈ s.region.body) (hy : y ∈ s.region.body) (hlx : s.region.level? x = some lx)
    (hly : s.region.level? y = some ly) :
    Before out.body x y ↔ ly < lx ∨ ly = lx ∧ Before s.region.body x y := by
  have nodup := h.nodup
  constructor
  · intro hxy
    rcases Nat.lt_or_eq_of_le (h.gathered.sorted x y lx ly hxy hlx hly) with hlt | rfl
    · exact Or.inl hlt
    · refine Or.inr ⟨rfl, ?_⟩
      rcases before_total hx hy (hxy.ne nodup) with hs | hs
      · exact hs
      · exact absurd (h.gathered.stable y x ly hly hlx hs) (hxy.asymm nodup)
  · rintro (hlt | ⟨rfl, hs⟩)
    · have ne : x ≠ y := by
        rintro rfl
        rw [hlx] at hly
        cases hly
        omega
      rcases before_total (h.mem_body.mpr hx) (h.mem_body.mpr hy) ne with
        hxy | hyx
      · exact hxy
      · have := h.gathered.sorted y x ly lx hyx hly hlx
        omega
    · exact h.gathered.stable x y ly hlx hly hs

theorem Region.Legalized.level_old (h : r.Legalized o plan built s out) (hx : x ∈ r.body) :
    s.region.level? x = plan.levels.get? x :=
  h.threaded.level_old (h.threaded.wf.bodyKnown x hx)

theorem Region.Legalized.planned_level (h : r.Legalized o plan built s out) (hx : x ∈ r.body)
    (scheduled : r.isDataflow x = true) : ∃ level, plan.levels.get? x = some level :=
  Option.isSome_iff_exists.mp ((h.threaded.sound.schedule.leveled x).mpr ⟨hx, scheduled⟩)

theorem Region.Legalized.before_old_iff (h : r.Legalized o plan built s out) (hx : x ∈ r.body)
    (hy : y ∈ r.body) (hlx : plan.levels.get? x = some lx) (hly : plan.levels.get? y = some ly) :
    Before out.body x y ↔ ly < lx ∨ ly = lx ∧ Before r.body x y := by
  have sub := h.threaded.built.sublist
  rw [h.before_iff (sub.subset hx) (sub.subset hy) ((h.level_old hx).trans hlx)
    ((h.level_old hy).trans hly), h.threaded.built.before_old h.threaded.wf.toNested hx hy]

theorem Region.Legalized.before_copy_iff (h : r.Legalized o plan built s out) (hx : x ∈ r.body)
    (hlx : plan.levels.get? x = some lx) (hb : b ∈ built) (hl : l ∈ b.links) :
    Before out.body x l.copy ↔
      l.level < lx ∨ l.level = lx ∧ Before r.body x b.chain.consumer := by
  have hm := h.threaded.built.mem_body.mpr (Or.inr (mem_newNodes.mpr ⟨b, hb, l, hl, Or.inr rfl⟩))
  rw [h.before_iff (h.threaded.built.sublist.subset hx) hm ((h.level_old hx).trans hlx)
    (h.threaded.level_copy hb hl), h.threaded.built.before_copy h.threaded.wf.toNested hb hl hx]

theorem Region.Legalized.copy_before_consumer (h : r.Legalized o plan built s out)
    (hb : b ∈ built) (hl : l ∈ b.links) : Before out.body l.copy b.chain.consumer := by
  have hc := h.rewritten.consumers b hb
  obtain ⟨_, lower, _, hlow, hlt, _⟩ := h.threaded.link_level hb hl
  refine (h.before_iff (h.mem_body.mp (h.mem_copy hb hl)) (h.mem_body.mp (h.mem_old hc))
    (h.threaded.level_copy hb hl) ((h.level_old hc).trans hlow)).mpr (Or.inl hlt)

theorem Region.Legalized.link_before (h : r.Legalized o plan built s out) (hb : b ∈ built)
    (hkl : Before b.links k l) : Before out.body k.copy l.copy :=
  (h.before_iff (h.mem_body.mp (h.mem_copy hb hkl.mem_left))
    (h.mem_body.mp (h.mem_copy hb hkl.mem_right)) (h.threaded.level_copy hb hkl.mem_left)
    (h.threaded.level_copy hb hkl.mem_right)).mpr (Or.inl (h.threaded.link_falls hb hkl))

theorem Region.Coherent.shaped_of_touches {r : Region} (coherent : r.Coherent) {t : NodeId}
    {mem : ValueId} {kind : AccessKind} (h : r.Touches t mem kind) : r.isShaped mem = true := by
  obtain ⟨n, _, hm⟩ := h
  have memref := coherent.buffers n mem kind hm
  rw [isMemref_eq] at memref
  rw [isShaped_eq]
  cases hv : (r.value? mem).map Value.type with
  | none => simp [hv] at memref
  | some type => cases type <;> simp_all [ValueType.isMemref, ValueType.isShaped]

theorem Region.touches_of_copyTarget? {r : Region} {n : NodeId} {mem : ValueId}
    (h : r.copyTarget? n = some mem) : r.Touches n mem .write := by
  obtain ⟨hk, source, ho⟩ := copyTarget?_iff.mp h
  exact ⟨n, Within.refl r n, by simp [Region.touched, hk, ho]⟩

theorem Region.Stores.touches {r : Region} {n : NodeId} {mem : ValueId} (h : r.Stores n mem) :
    r.Touches n mem .write := by
  rcases h with ⟨_, writes⟩ | target
  · exact writes
  · exact touches_of_copyTarget? target

theorem Region.Feeds.shaped {r : Region} (coherent : r.Coherent) {p c : NodeId}
    {carrier : Carrier} (h : r.Feeds p carrier c) : r.isShaped carrier.id = true := by
  cases h with
  | loop _ _ _ _ _ writes => exact coherent.shaped_of_touches writes
  | copyOut _ writes => exact coherent.shaped_of_touches writes
  | copyIn target => exact coherent.shaped_of_touches (touches_of_copyTarget? target)
  | result _ _ _ _ _ _ shaped => exact shaped

/-- A copy feeds every node behind it that mentions what the copy writes. -/
theorem Region.Legalized.feeds_of_target (h : r.Legalized o plan built s out) (hb : b ∈ built)
    (hl : l ∈ b.links) {c : NodeId} (scheduled : out.isDataflow c = true)
    (mentions : out.Mentions c l.target) (later : Before out.body l.copy c) :
    ∃ carrier, out.Feeds l.copy carrier c := by
  have rew := h.rewritten
  obtain ⟨_, _, link⟩ := rew.hasLink hb hl
  cases hbuf : l.buffer with
  | some n =>
    have target : out.copyTarget? l.copy = some l.target :=
      (rew.copyTarget?_copy hb hl).mpr ⟨by simp [hbuf], rfl⟩
    exact ⟨_, .copyIn target scheduled mentions later⟩
  | none =>
    obtain ⟨_, _, feeds, _⟩ := h.threaded.edge hb
    have shaped : out.isShaped l.target = true := by
      rw [isShaped_eq, rew.type_target hb hl, ← isShaped_eq]
      exact feeds.shaped h.threaded.wf.toCoherent
    exact ⟨_, .result later.mem_left later.mem_right link.isDataflow.1 link.isDataflow.2
      (later.ne h.nodup).symm (by simp [link.results, hbuf]) shaped scheduled mentions⟩

/-- Only the next copy of a chain and its consumer mention what a copy writes. -/
theorem Region.Legalized.relinked_of_target (h : r.Legalized o plan built s out) (hb : b ∈ built)
    (hl : l ∈ b.links) {c : NodeId} (hc : c ∈ out.body) (scheduled : out.isDataflow c = true)
    (mentions : out.Mentions c l.target) (ne : c ≠ l.copy) :
    r.Relinked plan.levels.get? built l.copy c := by
  have rew := h.rewritten
  rcases h.mem_cases hc scheduled with hc | ⟨b', hb', l', hl', rfl⟩
  · obtain ⟨hlast, rfl, first⟩ := rew.mentions_target h.threaded.wf hc hb hl mentions
    exact .delivered hb hlast first
  · rcases (rew.mentions_copy hb' hl').mp mentions with he | ⟨_, he⟩
    · rcases (rew.linked b' hb').source_cases hl' with ⟨_, hs⟩ | ⟨k, hkl, hs⟩
      · obtain ⟨_, hv, _⟩ := rew.hasLink hb' hl'
        have low := index_lt_of_value? hv
        have high := rew.target_new hb hl
        rw [he, hs] at high
        omega
      · obtain ⟨rfl, rfl⟩ := rew.link_of_target hb hb' hl (Before.mem_left hkl.sublist)
          (he.trans hs)
        exact .handed hb hkl
    · obtain ⟨rfl, rfl⟩ := rew.link_of_target hb hb' hl hl' he
      exact absurd rfl ne

/-- A copy that stands behind a node of the body mentions no more of what that node mentions than
its chain carries, and is the first one of the chain then. -/
theorem Region.Legalized.mentions_copy_behind (h : r.Legalized o plan built s out)
    (hx : x ∈ r.body) (hb : b ∈ built) (hl : l ∈ b.links) {w : ValueId}
    (later : Before out.body x l.copy) (hm : out.Mentions x w) (hm' : out.Mentions l.copy w) :
    b.links.head? = some l ∧ w = b.chain.carrier.id ∧ chainTo built x w = none := by
  have rew := h.rewritten
  have wf := h.threaded.wf
  have notTarget : ∀ k ∈ b.links, w ≠ k.target := by
    rintro k hk rfl
    obtain ⟨_, rfl, _⟩ := rew.mentions_target wf hx hb hk hm
    exact later.asymm h.nodup (h.copy_before_consumer hb hl)
  rcases (rew.mentions_copy hb hl).mp hm' with he | ⟨_, he⟩
  · rcases (rew.linked b hb).source_cases hl with ⟨hhead, hs⟩ | ⟨k, hkl, hs⟩
    · obtain ⟨_, hv, _⟩ := rew.hasLink hb hl
      refine ⟨hhead, he.trans hs, ?_⟩
      rw [he, hs] at hm ⊢
      exact ((rew.mentions_old hx (index_lt_of_value? hv)).mp hm).2
    · exact absurd (he.trans hs) (notTarget k (Before.mem_left hkl.sublist))
  · exact absurd he (notTarget l hl)

theorem Region.Legalized.loop_old (h : r.Legalized o plan built s out) {n : NodeId}
    (hn : n ∈ out.body) (loop : out.isLoop n = true) : n ∈ r.body ∧ r.isLoop n = true := by
  rcases h.mem_cases hn (isDataflow_of_isLoop loop) with hn | ⟨b, hb, l, hl, rfl⟩
  · exact ⟨hn, h.rewritten.isLoop_old h.threaded.wf hn ▸ loop⟩
  · obtain ⟨_, _, link⟩ := h.rewritten.hasLink hb hl
    simp [link.isDataflow.2] at loop

/-- A dependence that comes of the order of the body is one of before, or came with the move. -/
theorem Region.Legalized.relinked_of_awaits (h : r.Legalized o plan built s out)
    {p c : NodeId} {mem : ValueId} (hp : p ∈ r.body) (hc : c ∈ r.body) (awaits : r.Awaits p mem c)
    (reads : chainTo built c mem = none) (writes : chainTo built p mem = none)
    (later : Before out.body p c) : r.Relinked plan.levels.get? built p c := by
  obtain ⟨upper, hu⟩ := h.planned_level hp awaits.isDataflow.1
  obtain ⟨lower, hl⟩ := h.planned_level hc awaits.isDataflow.2
  rcases before_total hp hc (later.ne h.nodup) with hpc | hcp
  · exact .kept (awaits.feeds hpc) reads fun _ => writes
  · rcases (h.before_old_iff hp hc hu hl).mp later with hlt | ⟨_, hpc⟩
    · exact .overtaken awaits hcp hu hl hlt reads writes
    · exact .kept (awaits.feeds hpc) reads fun _ => writes

theorem Region.Legalized.relinked_of_stores (h : r.Legalized o plan built s out) {p : NodeId}
    {mem : ValueId} (hp : p ∈ r.body) (hb : b ∈ built) (hl : l ∈ b.links)
    (stores : mem.index < r.values.size → r.Stores p mem) (hm : out.Mentions p mem)
    (hm' : out.Mentions l.copy mem) (scheduled : r.isDataflow p = true)
    (later : Before out.body p l.copy) : r.Relinked plan.levels.get? built p l.copy := by
  obtain ⟨hhead, rfl, free⟩ := h.mentions_copy_behind hp hb hl later hm hm'
  obtain ⟨_, hv, _⟩ := h.rewritten.hasLink hb hl
  obtain ⟨upper, hu⟩ := h.planned_level hp scheduled
  exact .stored hb hhead hp (stores (index_lt_of_value? hv)) free hu
    ((h.before_copy_iff hp hu hb hl).mp later)

theorem Region.Legalized.relinked_of_result (h : r.Legalized o plan built s out) {p c : NodeId}
    {v : ValueId} (hp : p ∈ r.body) (hc : c ∈ out.body) (scheduledP : r.isDataflow p = true)
    (noLoop : r.isLoop p = false) (ne : c ≠ p) (results : v ∈ r.results p)
    (shaped : out.isShaped v = true) (scheduled : out.isDataflow c = true)
    (mentions : out.Mentions c v) : r.Relinked plan.levels.get? built p c := by
  have rew := h.rewritten
  have wf := h.threaded.wf
  obtain ⟨_, hd⟩ := wf.sound.result_defined results
  have known := known_of_definition? hd
  have shaped : r.isShaped v = true := rew.isShaped_old known ▸ shaped
  rcases h.mem_cases hc scheduled with hc | ⟨b, hb, l, hl, rfl⟩
  · obtain ⟨hm, free⟩ := (rew.mentions_old hc known).mp mentions
    exact .kept (.result hp hc scheduledP noLoop ne results shaped
      (rew.isDataflow_old wf hc ▸ scheduled) hm) free (by simp [Carrier.isMemory])
  · have notTarget : ∀ k ∈ b.links, v ≠ k.target := by
      rintro k hk rfl
      have := rew.target_new hb hk
      omega
    rcases (rew.mentions_copy hb hl).mp mentions with he | ⟨_, he⟩
    · rcases (rew.linked b hb).source_cases hl with ⟨hhead, hs⟩ | ⟨k, hkl, hs⟩
      · obtain rfl := he.trans hs
        exact .computed hb hhead hp scheduledP noLoop results shaped
      · exact absurd (he.trans hs) (notTarget k (Before.mem_left hkl.sublist))
    · exact absurd he (notTarget l hl)

/-- All dependences of a region that was made legal are accounted for. -/
theorem Region.Legalized.relinked_of_feeds (h : r.Legalized o plan built s out) {p c : NodeId}
    {carrier : Carrier} (feeds : out.Feeds p carrier c) :
    r.Relinked plan.levels.get? built p c := by
  have rew := h.rewritten
  have wf := h.threaded.wf
  cases feeds with
  | @loop _ mem hp hc loopP loopC ne writes reads keeps =>
    obtain ⟨hp, loopP⟩ := h.loop_old hp loopP
    obtain ⟨hc, loopC⟩ := h.loop_old hc loopC
    obtain ⟨known, freeC, freeP⟩ := rew.mentions_both wf hc hp ne reads.mentions writes.mentions
    have old := fun (t : NodeId) (ht : t ∈ r.body) (kind : AccessKind) =>
      @Region.Rewritten.touches_old r out built built rew wf.toNested t ht mem kind known
    refine .kept (.loop hp hc loopP loopC ne ((old p hp .write).mp writes).1
      ((old c hc .read).mp reads).1 fun hw => keeps ((old c hc .write).mpr ⟨hw, freeC⟩)) freeC
      fun _ => freeP
  | @copyOut _ mem loopP writes copies later =>
    obtain ⟨hp, loopP⟩ := h.loop_old later.mem_left loopP
    have stores : mem.index < r.values.size → r.Touches p mem .write := fun known =>
      ((rew.touches_old wf.toNested hp known).mp writes).1
    rcases h.mem_cases later.mem_right (isDataflow_of_copiesOut copies) with
      hc | ⟨b, hb, l, hl, rfl⟩
    · obtain ⟨known, freeP, freeC⟩ := rew.mentions_both wf hp hc (later.ne h.nodup)
        writes.mentions (mentions_of_copiesOut copies)
      exact h.relinked_of_awaits hp hc
        (Or.inl ⟨loopP, stores known, ((rew.copiesOut_old wf hc known).mp copies).1⟩) freeC freeP
        later
    · exact h.relinked_of_stores hp hb hl (fun known => Or.inl ⟨loopP, stores known⟩)
        writes.mentions (mentions_of_copiesOut copies) (isDataflow_of_isLoop loopP) later
  | @copyIn _ mem target scheduled mentions later =>
    have mentionsP := mentions_of_copyTarget? target
    rcases h.mem_cases later.mem_left (isLoop_of_copyTarget? target).2 with
      hp | ⟨b, hb, l, hl, rfl⟩
    · have stores : mem.index < r.values.size → r.copyTarget? p = some mem := fun known =>
        ((rew.copyTarget?_old wf hp known).mp target).1
      rcases h.mem_cases later.mem_right scheduled with hc | ⟨b, hb, l, hl, rfl⟩
      · obtain ⟨known, freeP, freeC⟩ := rew.mentions_both wf hp hc (later.ne h.nodup) mentionsP
          mentions
        exact h.relinked_of_awaits hp hc
          (Or.inr ⟨stores known, rew.isDataflow_old wf hc ▸ scheduled,
            ((rew.mentions_old hc known).mp mentions).1⟩) freeC freeP later
      · exact h.relinked_of_stores hp hb hl (fun known => Or.inr (stores known)) mentionsP
          mentions (rew.isDataflow_old wf hp ▸ (isLoop_of_copyTarget? target).2) later
    · obtain ⟨_, rfl⟩ := (rew.copyTarget?_copy hb hl).mp target
      exact h.relinked_of_target hb hl later.mem_right scheduled mentions
        (later.ne h.nodup).symm
  | result hp hc scheduledP noLoop ne results shaped scheduled mentions =>
    rcases h.mem_cases hp scheduledP with hp | ⟨b, hb, l, hl, rfl⟩
    · exact h.relinked_of_result hp hc (rew.isDataflow_old wf hp ▸ scheduledP)
        (rew.isLoop_old wf hp ▸ noLoop) ne (rew.results p (wf.bodyKnown p hp) ▸ results) shaped
        scheduled mentions
    · obtain ⟨_, _, link⟩ := rew.hasLink hb hl
      rw [link.results] at results
      split at results
      next => simp at results
      next =>
        obtain rfl := List.mem_singleton.mp results
        exact h.relinked_of_target hb hl hc scheduled mentions ne

theorem Region.Legalized.awaits (h : r.Legalized o plan built s out) {p c : NodeId}
    {mem : ValueId} (hp : p ∈ r.body) (hc : c ∈ r.body) (awaits : r.Awaits p mem c)
    (reads : chainTo built c mem = none) (writes : chainTo built p mem = none) :
    out.Awaits p mem c := by
  have rew := h.rewritten
  have wf := h.threaded.wf
  rcases awaits with ⟨loop, touches, copies⟩ | ⟨target, scheduled, mentions⟩
  · have known := wf.sound.known_of_mentions hp touches.mentions
    exact Or.inl ⟨(rew.isLoop_old wf hp).trans loop,
      (rew.touches_old wf.toNested hp known).mpr ⟨touches, writes⟩,
      (rew.copiesOut_old wf hc known).mpr ⟨copies, reads⟩⟩
  · have known := wf.sound.known_of_mentions hc mentions
    exact Or.inr ⟨(rew.copyTarget?_old wf hp known).mpr ⟨target, writes⟩,
      (rew.isDataflow_old wf hc).trans scheduled, (rew.mentions_old hc known).mpr ⟨mentions, reads⟩⟩

theorem Region.Legalized.feeds_of_kept (h : r.Legalized o plan built s out) {p c : NodeId}
    {carrier : Carrier} (feeds : r.Feeds p carrier c)
    (reads : chainTo built c carrier.id = none)
    (writes : carrier.isMemory = true → chainTo built p carrier.id = none) :
    out.Feeds p carrier c := by
  have rew := h.rewritten
  have wf := h.threaded.wf
  have known := wf.sound.known_of_mentions feeds.mem_right feeds.mentions
  obtain ⟨upper, lower, hu, hl, hlt, _⟩ := h.threaded.sound.drops p carrier c feeds
  have later : Before out.body p c :=
    (h.before_old_iff feeds.mem_left feeds.mem_right hu hl).mpr (Or.inl hlt)
  have hp := h.mem_old feeds.mem_left
  have hc := h.mem_old feeds.mem_right
  cases feeds with
  | loop hp' hc' loopP loopC ne touches touched keeps =>
    refine .loop hp hc ((rew.isLoop_old wf hp').trans loopP) ((rew.isLoop_old wf hc').trans loopC)
      ne ((rew.touches_old wf.toNested hp' known).mpr ⟨touches, writes rfl⟩)
      ((rew.touches_old wf.toNested hc' known).mpr ⟨touched, reads⟩) fun hw => keeps ?_
    exact ((rew.touches_old wf.toNested hc' known).mp hw).1
  | copyOut loopP touches copies before =>
    exact (h.awaits before.mem_left before.mem_right (Or.inl ⟨loopP, touches, copies⟩) reads
      (writes rfl)).feeds later
  | copyIn target scheduled mentions before =>
    exact (h.awaits before.mem_left before.mem_right (Or.inr ⟨target, scheduled, mentions⟩) reads
      (writes rfl)).feeds later
  | result hp' hc' scheduledP noLoop ne results shaped scheduled mentions =>
    exact .result hp hc ((rew.isDataflow_old wf hp').trans scheduledP)
      ((rew.isLoop_old wf hp').trans noLoop) ne
      (by rw [rew.results p (wf.bodyKnown p hp')]; exact results)
      ((rew.isShaped_old known).trans shaped) ((rew.isDataflow_old wf hc').trans scheduled)
      ((rew.mentions_old hc' known).mpr ⟨mentions, reads⟩)

/-- What a node writes reaches a first copy that stands behind it. -/
theorem Region.Legalized.feeds_of_stores (h : r.Legalized o plan built s out) {p : NodeId}
    (hp : p ∈ r.body) (hb : b ∈ built) (hl : b.links.head? = some l)
    (stores : r.Stores p b.chain.carrier.id)
    (writes : chainTo built p b.chain.carrier.id = none) (later : Before out.body p l.copy) :
    out.Feeds p (.memory b.chain.carrier.id) l.copy := by
  have rew := h.rewritten
  have wf := h.threaded.wf
  have hm := List.mem_of_mem_head? hl
  have known := wf.sound.known_of_mentions hp stores.touches.mentions
  have source := (rew.linked b hb).source_head hl
  obtain ⟨value, hv, link⟩ := rew.hasLink hb hm
  have filled : l.buffer.isSome = true := by
    obtain ⟨n, _, ht⟩ := stores.touches
    have memref := wf.buffers n _ _ ht
    rw [link.filled]
    simpa [Region.isMemref, hv] using memref
  refine Region.Awaits.feeds ?_ later
  rcases stores with ⟨loop, touches⟩ | target
  · exact Or.inl ⟨(rew.isLoop_old wf hp).trans loop,
      (rew.touches_old wf.toNested hp known).mpr ⟨touches, writes⟩,
      (rew.copiesOut_copy hb hm).mpr ⟨filled, source⟩⟩
  · exact Or.inr ⟨(rew.copyTarget?_old wf hp known).mpr ⟨target, writes⟩, link.isDataflow.1,
      (rew.mentions_copy hb hm).mpr (Or.inl source.symm)⟩

theorem Region.Legalized.feeds_of_relinked (h : r.Legalized o plan built s out) {p c : NodeId}
    (relinked : r.Relinked plan.levels.get? built p c) : ∃ carrier, out.Feeds p carrier c := by
  have rew := h.rewritten
  have wf := h.threaded.wf
  cases relinked with
  | kept feeds reads writes => exact ⟨_, h.feeds_of_kept feeds reads writes⟩
  | overtaken awaits earlier hu hl hlt reads writes =>
    have hp := earlier.mem_right
    have hc := earlier.mem_left
    exact ⟨_, (h.awaits hp hc awaits reads writes).feeds
      ((h.before_old_iff hp hc hu hl).mpr (Or.inl hlt))⟩
  | stored hb hl hp stores writes hu ahead =>
    exact ⟨_, h.feeds_of_stores hp hb hl stores writes
      ((h.before_copy_iff hp hu hb (List.mem_of_mem_head? hl)).mpr ahead)⟩
  | @computed _ b l hb hl hp scheduled noLoop results shaped =>
    have hm := List.mem_of_mem_head? hl
    obtain ⟨_, hv, link⟩ := rew.hasLink hb hm
    have ne : l.copy ≠ p := by
      rintro rfl
      have low := wf.bodyKnown _ hp
      have high := (rew.copy_new hb hm).1
      omega
    exact ⟨_, .result (h.mem_old hp) (h.mem_copy hb hm)
      ((rew.isDataflow_old wf hp).trans scheduled) ((rew.isLoop_old wf hp).trans noLoop) ne
      (by rw [rew.results p (wf.bodyKnown p hp)]; exact results)
      ((rew.isShaped_old (index_lt_of_value? hv)).trans shaped) link.isDataflow.1
      ((rew.mentions_copy hb hm).mpr (Or.inl ((rew.linked b hb).source_head hl).symm))⟩
  | @handed b k l hb hkl =>
    have before : Before b.links k l := hkl.sublist
    obtain ⟨_, _, link⟩ := rew.hasLink hb before.mem_right
    exact h.feeds_of_target hb before.mem_left link.isDataflow.1
      ((rew.mentions_copy hb before.mem_right).mpr
        (Or.inl ((rew.linked b hb).source_next hkl).symm)) (h.link_before hb before)
  | @delivered b l hb hl first =>
    have hm := List.mem_of_getLast? hl
    have hc := rew.consumers b hb
    obtain ⟨_, hv, _⟩ := rew.hasLink hb hm
    obtain ⟨_, _, feeds, _⟩ := h.threaded.edge hb
    refine h.feeds_of_target hb hm ((rew.isDataflow_old wf hc).trans feeds.isDataflow_right)
      ((rew.mentions_iff hc).mpr ⟨_, feeds.mentions, ?_⟩) (h.copy_before_consumer hb hm)
    exact (rew.rewired_new (index_lt_of_value? hv) hb hm).mpr ⟨first, hl⟩

/-- Two nodes of a region that was made legal depend on each other just where they are accounted
for. -/
theorem Region.Legalized.feeds_iff (h : r.Legalized o plan built s out) {p c : NodeId} :
    (∃ carrier, out.Feeds p carrier c) ↔ r.Relinked plan.levels.get? built p c :=
  ⟨fun ⟨_, feeds⟩ => h.relinked_of_feeds feeds, h.feeds_of_relinked⟩

end Legalized

end Staging
