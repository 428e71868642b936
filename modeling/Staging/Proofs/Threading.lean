import Staging.Proofs.Gathering
import Staging.Proofs.Planning
import Staging.Proofs.Splicing
import Staging.Proofs.StageMap

namespace Staging

/-- A region with the chains of a plan built in it. -/
structure Region.Threaded (r : Region) (o : Options) (plan : Plan) (built : List BuiltChain)
    (s : Forwarding) : Prop where
  wf : r.WellFormed
  sound : Plan.Sound r o plan
  chains : built.map BuiltChain.chain = plan.bypasses.chains
  levels : ∀ b ∈ built, b.links.map Link.level = b.chain.levels
  built : s.Built r plan.levels.get? built built

theorem mem_levelsDown {upper lower level : Nat} :
    level ∈ levelsDown upper lower ↔ lower < level ∧ level ≤ upper := by
  simp only [levelsDown, List.mem_map, List.mem_range]
  constructor
  · rintro ⟨i, hi, rfl⟩
    omega
  · exact fun h => ⟨upper - level, by omega, by omega⟩

theorem levelsDown_falls (upper lower : Nat) :
    (levelsDown upper lower).Pairwise fun a b => b < a := by
  refine List.pairwise_map.mpr (List.pairwise_lt_range.imp_of_mem fun {i j} _ hj hij => ?_)
  have := List.mem_range.mp hj
  omega

theorem levelsDown_head? {upper lower level : Nat} (h : (levelsDown upper lower).head? = some level) :
    level = upper := by
  simp only [levelsDown, List.head?_map, List.head?_range] at h
  split at h
  next => simp at h
  next => simpa using h.symm

theorem levelsDown_getLast? {upper lower level : Nat}
    (h : (levelsDown upper lower).getLast? = some level) : level = lower + 1 := by
  simp only [levelsDown, List.getLast?_map, List.getLast?_range] at h
  split at h
  next => simp at h
  next =>
    simp only [Option.map_some, Option.some.injEq] at h
    omega

theorem levelsDown_infix {upper lower a b : Nat} (h : [a, b] <:+: levelsDown upper lower) :
    a = b + 1 := by
  obtain ⟨pair, hpair, he⟩ := List.infix_map_iff.mp h
  obtain ⟨i, hi, places⟩ := List.infix_iff_getElem?.mp hpair
  have two : pair.length = 2 := by
    have := congrArg List.length he
    simpa using this.symm
  obtain ⟨x, y, rfl⟩ := List.length_eq_two.mp two
  simp only [List.length_cons, List.length_nil, List.length_range] at hi
  have hx := places 0 (by simp)
  have hy := places 1 (by simp)
  rw [List.getElem?_range (by omega)] at hx hy
  simp only [Option.some.injEq, List.getElem_cons_zero, List.getElem_cons_succ] at hx hy
  simp only [List.map_cons, List.map_nil, List.cons.injEq, and_true] at he
  omega

/-- The levels of a skipped edge go down to the one above its consumer. -/
theorem Region.chainOf_levels (r : Region) {e : Bypass} (h : e.lower < e.upper) :
    (r.chainOf e).levels = levelsDown e.upper e.lower := by
  simp [chainOf, Bypass.copyLevels?, h.le]

theorem Region.WellFormed.levels_known {r : Region} (wf : r.WellFormed) {levels : Levels}
    (h : r.levels r.deps = .ok levels) :
    ∀ n ∈ levels.entries.map Prod.fst, n.index < r.nodes.size := by
  intro n hn
  obtain ⟨l, hl⟩ := Table.get?_of_mem_keys hn
  have leveled : (levels.get? n).isSome = true := by
    unfold Levels.get?
    simp [hl]
  exact wf.bodyKnown n (((levels_spec wf.ordered h).1.leveled n).mp leveled).1

theorem Region.WellFormed.forward {r : Region} (wf : r.WellFormed) {o : Options} {plan : Plan}
    (h : r.plan o = .ok plan) : ∃ (s : Forwarding) (built : List BuiltChain),
      r.forward plan.levels plan.bypasses = some (s.region, s.done) ∧
      r.Threaded o plan built s := by
  have sound := plan_sound wf h
  obtain ⟨hl, _, _⟩ := plan_eq_ok h
  obtain ⟨s, built, hforward, chains, levels, done⟩ := wf.toNested.forward (levels_nodup hl)
    (wf.levels_known hl) (fun chain hchain => by
      rw [sound.chains] at hchain
      split at hchain
      next =>
        obtain ⟨e, he, rfl⟩ := List.mem_map.mp hchain
        obtain ⟨feeds, _, _, hlt⟩ := (sound.skips e).mp he
        refine ⟨feeds.mem_right, wf.bodyKnown _ feeds.mem_left,
          wf.sound.known_of_mentions feeds.mem_right feeds.mentions, ?_, rfl⟩
        rw [chainOf_levels r hlt]
        exact List.ne_nil_of_mem (mem_levelsDown.mpr ⟨hlt, le_rfl⟩)
      next => simp at hchain)
  exact ⟨s, built, hforward, wf, sound, chains, levels, done⟩

section Threaded

variable {r : Region} {o : Options} {plan : Plan} {built : List BuiltChain} {s : Forwarding}
  {b : BuiltChain} {k l : Link}

theorem Region.Threaded.rewritten (h : r.Threaded o plan built s) :
    r.Rewritten built built s.region :=
  h.built.rewritten

theorem Region.Threaded.edge (h : r.Threaded o plan built s) (hb : b ∈ built) :
    ∃ upper lower, r.Feeds b.chain.producer b.chain.carrier b.chain.consumer ∧
      plan.levels.get? b.chain.producer = some (upper + 1) ∧
      plan.levels.get? b.chain.consumer = some lower ∧ lower < upper ∧
      b.links.map Link.level = levelsDown upper lower := by
  have hc : b.chain ∈ plan.bypasses.chains := h.chains ▸ List.mem_map.mpr ⟨b, hb, rfl⟩
  rw [h.sound.chains] at hc
  split at hc
  next =>
    obtain ⟨e, he, hchain⟩ := List.mem_map.mp hc
    obtain ⟨feeds, hu, hl, hlt⟩ := (h.sound.skips e).mp he
    refine ⟨e.upper, e.lower, ?_, ?_, ?_, hlt, ?_⟩
    · rw [← hchain]
      exact feeds
    · rw [← hchain]
      exact hu
    · rw [← hchain]
      exact hl
    · rw [h.levels b hb, ← hchain, chainOf_levels r hlt]
  next => simp at hc

theorem Region.Threaded.wellFormed (h : r.Threaded o plan built s) : s.region.WellFormed := by
  refine h.built.wellFormed h.wf fun b hb => ?_
  obtain ⟨_, _, feeds, _⟩ := h.edge hb
  exact h.wf.carrier_visible feeds

theorem Region.Threaded.link_falls (h : r.Threaded o plan built s) (hb : b ∈ built)
    (hkl : Before b.links k l) : l.level < k.level := by
  obtain ⟨upper, lower, _, _, _, _, levels⟩ := h.edge hb
  have hm : Before (levelsDown upper lower) k.level l.level := levels ▸ before_map hkl
  exact pairwise_iff_before.mp (levelsDown_falls upper lower) _ _ hm

theorem Region.Threaded.link_level (h : r.Threaded o plan built s) (hb : b ∈ built)
    (hl : l ∈ b.links) : ∃ upper lower, plan.levels.get? b.chain.producer = some (upper + 1) ∧
      plan.levels.get? b.chain.consumer = some lower ∧ lower < l.level ∧ l.level ≤ upper := by
  obtain ⟨upper, lower, _, hu, hlow, _, levels⟩ := h.edge hb
  have hm : l.level ∈ levelsDown upper lower := levels ▸ List.mem_map.mpr ⟨l, hl, rfl⟩
  exact ⟨upper, lower, hu, hlow, mem_levelsDown.mp hm⟩

/-- The first link is one level below the producer. -/
theorem Region.Threaded.level_head (h : r.Threaded o plan built s) (hb : b ∈ built)
    (hl : b.links.head? = some l) : plan.levels.get? b.chain.producer = some (l.level + 1) := by
  obtain ⟨upper, lower, _, hu, _, _, levels⟩ := h.edge hb
  have head : (levelsDown upper lower).head? = some l.level := by
    rw [← levels, List.head?_map, hl]
    rfl
  rw [levelsDown_head? head, hu]

/-- The last link is one level above the consumer. -/
theorem Region.Threaded.level_last (h : r.Threaded o plan built s) (hb : b ∈ built)
    (hl : b.links.getLast? = some l) :
    ∃ lower, plan.levels.get? b.chain.consumer = some lower ∧ l.level = lower + 1 := by
  obtain ⟨upper, lower, _, _, hlow, _, levels⟩ := h.edge hb
  have last : (levelsDown upper lower).getLast? = some l.level := by
    rw [← levels, List.getLast?_map, hl]
    rfl
  exact ⟨lower, hlow, levelsDown_getLast? last⟩

theorem Region.Threaded.level_next (h : r.Threaded o plan built s) (hb : b ∈ built)
    (hkl : [k, l] <:+: b.links) : k.level = l.level + 1 := by
  obtain ⟨upper, lower, _, _, _, _, levels⟩ := h.edge hb
  have pair : [k.level, l.level] <:+: levelsDown upper lower := levels ▸ hkl.map Link.level
  exact levelsDown_infix pair

theorem Region.Threaded.level_old (h : r.Threaded o plan built s) {n : NodeId}
    (hn : n.index < r.nodes.size) : s.region.level? n = plan.levels.get? n :=
  h.built.level n hn

theorem Region.Threaded.level_copy (h : r.Threaded o plan built s) (hb : b ∈ built)
    (hl : l ∈ b.links) : s.region.level? l.copy = some l.level :=
  (h.built.linkLevel b hb l hl).1

theorem Region.Threaded.level_cases (h : r.Threaded o plan built s) {n : NodeId} {level : Nat}
    (hn : n ∈ s.region.body) (hl : s.region.level? n = some level) :
    (n ∈ r.body ∧ plan.levels.get? n = some level) ∨
      ∃ b ∈ built, ∃ l ∈ b.links, n = l.copy ∧ level = l.level := by
  rcases h.built.mem_body.mp hn with hn | hn
  · rw [h.level_old (h.wf.bodyKnown n hn)] at hl
    exact Or.inl ⟨hn, hl⟩
  · obtain ⟨b, hb, l, hlb, hbuf | rfl⟩ := mem_newNodes.mp hn
    · simp [(h.built.linkLevel b hb l hlb).2 n hbuf] at hl
    · rw [h.level_copy hb hlb] at hl
      exact Or.inr ⟨b, hb, l, hlb, rfl, (Option.some.inj hl).symm⟩

theorem Region.Threaded.positive (h : r.Threaded o plan built s) {n : NodeId} {level : Nat}
    (hn : n ∈ s.region.body) (hl : s.region.level? n = some level) : 1 ≤ level := by
  rcases h.level_cases hn hl with ⟨_, hl⟩ | ⟨b, hb, l, hlb, _, rfl⟩
  · exact h.sound.schedule.positive n level hl
  · obtain ⟨_, lower, _, _, hlt, _⟩ := h.link_level hb hlb
    omega

/-- In a region with chains, too, every level is followed by all lower ones. -/
theorem Region.Threaded.descends_to (h : r.Threaded o plan built s) {n : NodeId}
    {upper lower : Nat} (hn : n ∈ s.region.body) (hu : s.region.level? n = some upper)
    (pos : 1 ≤ lower) (hlt : lower < upper) :
    ∃ x, Before s.region.body n x ∧ s.region.level? x = some lower := by
  have nodup := h.built.bodyNodup h.wf.toNested
  have old : ∀ {m : NodeId} {top : Nat}, m ∈ r.body → plan.levels.get? m = some top →
      lower < top → ∃ x, Before s.region.body m x ∧ s.region.level? x = some lower := by
    intro m top hm hl hlt
    obtain ⟨x, hx, hlx⟩ := h.sound.schedule.descends_to h.wf.bodyNodup hl pos hlt
    refine ⟨x, hx.sublist h.built.sublist, ?_⟩
    rw [h.level_old (h.wf.bodyKnown x hx.mem_right), hlx]
  rcases h.level_cases hn hu with ⟨hm, hl⟩ | ⟨b, hb, l, hlb, rfl, rfl⟩
  · exact old hm hl hlt
  · obtain ⟨top, bottom, _, _, hbottom, _, levels⟩ := h.edge hb
    have hc := h.rewritten.consumers b hb
    have ahead := h.built.copy_before_consumer hb hlb
    rcases Nat.lt_trichotomy lower bottom with hlow | rfl | hlow
    · obtain ⟨x, hx, hlx⟩ := old hc hbottom hlow
      exact ⟨x, ahead.trans nodup hx, hlx⟩
    · refine ⟨_, ahead, ?_⟩
      rw [h.level_old (h.wf.bodyKnown _ hc), hbottom]
    · obtain ⟨_, _, _, hbottom', _, hle⟩ := h.link_level hb hlb
      have hmem : lower ∈ b.links.map Link.level := by
        have htop : l.level ∈ levelsDown top bottom :=
          levels ▸ List.mem_map.mpr ⟨l, hlb, rfl⟩
        rw [levels]
        exact mem_levelsDown.mpr ⟨hlow, hlt.le.trans (mem_levelsDown.mp htop).2⟩
      obtain ⟨k, hk, rfl⟩ := List.mem_map.mp hmem
      have ne : l ≠ k := by
        rintro rfl
        omega
      rcases before_total hlb hk ne with hlk | hkl
      · exact ⟨k.copy, h.built.link_before hb hlk, h.level_copy hb hk⟩
      · have := h.link_falls hb hkl
        omega

/-- The level of the link that a new node belongs to. -/
def linkLevel (built : List BuiltChain) (n : NodeId) : Nat :=
  (((built.flatMap BuiltChain.links).find? fun l => n ∈ l.nodes).map Link.level).getD 0

theorem Region.Rewritten.linkLevel_eq {t : Region} {wired : List BuiltChain}
    (h : r.Rewritten built wired t) (hb : b ∈ built) (hl : l ∈ b.links) {n : NodeId}
    (hn : n ∈ l.nodes) : linkLevel built n = l.level := by
  unfold linkLevel
  cases hf : (built.flatMap BuiltChain.links).find? fun l => n ∈ l.nodes with
  | none =>
    have all := List.find?_eq_none.mp hf l (List.mem_flatMap.mpr ⟨b, hb, hl⟩)
    simp [hn] at all
  | some k =>
    obtain ⟨b', hb', hk⟩ := List.mem_flatMap.mp (List.mem_of_find?_eq_some hf)
    have hn' : n ∈ k.nodes := by simpa using List.find?_some hf
    obtain ⟨_, rfl⟩ := h.link_of_node hb hb' hl hk hn hn'
    rfl

theorem Region.Rewritten.mentions_new {t : Region} {wired : List BuiltChain}
    (h : r.Rewritten built wired t) {x : NodeId} (hx : x ∈ newNodes built) {v : ValueId}
    (hv : t.Mentions x v) : ∃ b ∈ built, ∃ l ∈ b.links, x = l.copy ∧
      (v = b.chain.carrier.id ∨ v = l.target ∨
        ∃ k ∈ b.links, Before b.links k l ∧ v = k.target) := by
  obtain ⟨b, hb, l, hl, hbuf | rfl⟩ := mem_newNodes.mp hx
  · obtain ⟨_, _, link⟩ := h.hasLink hb hl
    rw [Region.mentions_iff] at hv
    simp [(link.buffer x hbuf).2.1, Child, h.bodyOf_new hx] at hv
  · refine ⟨b, hb, l, hl, rfl, ?_⟩
    rcases (h.mentions_copy hb hl).mp hv with rfl | ⟨_, rfl⟩
    · rcases (h.linked b hb).source_cases hl with ⟨_, hs⟩ | ⟨k, hkl, hs⟩
      · exact Or.inl hs
      · have hkl : Before b.links k l := hkl.sublist
        exact Or.inr (Or.inr ⟨k, hkl.mem_left, hkl, hs⟩)
    · exact Or.inr (Or.inl rfl)

theorem Region.Rewritten.results_new {t : Region} {wired : List BuiltChain}
    (h : r.Rewritten built wired t) {y : NodeId} (hy : y ∈ newNodes built) {v : ValueId}
    (hv : v ∈ t.results y) : ∃ b ∈ built, ∃ l ∈ b.links, y ∈ l.nodes ∧ v = l.target := by
  obtain ⟨b, hb, l, hl, hbuf | rfl⟩ := mem_newNodes.mp hy
  · obtain ⟨_, _, link⟩ := h.hasLink hb hl
    rw [(link.buffer y hbuf).2.2.1] at hv
    exact ⟨b, hb, l, hl, by simp [Link.nodes, hbuf], by simpa using hv⟩
  · obtain ⟨_, _, link⟩ := h.hasLink hb hl
    rw [link.results] at hv
    refine ⟨b, hb, l, hl, by simp [Link.nodes], ?_⟩
    split at hv
    next => simp at hv
    next => simpa using hv

/-- The measure of the nodes of a region, extended to the nodes of its chains. -/
def extendReach (r : Region) (built : List BuiltChain) (reach : NodeId → Nat) (n : NodeId) : Nat :=
  if n.index < r.nodes.size then reach n else linkLevel built n

theorem Region.Threaded.extendReach_old (h : r.Threaded o plan built s) (reach : NodeId → Nat)
    {n : NodeId} (hn : n ∈ r.body) : extendReach r built reach n = reach n :=
  if_pos (h.wf.bodyKnown n hn)

theorem Region.Threaded.extendReach_new (h : r.Threaded o plan built s) (reach : NodeId → Nat)
    (hb : b ∈ built) (hl : l ∈ b.links) {n : NodeId} (hn : n ∈ l.nodes) :
    extendReach r built reach n = l.level := by
  have hnew := (h.rewritten.mem_newNodes_iff.mp
    (List.mem_flatMap.mpr ⟨b, hb, List.mem_flatMap.mpr ⟨l, hl, hn⟩⟩)).1
  exact (if_neg (by omega)).trans (h.rewritten.linkLevel_eq hb hl hn)

section Extend

variable {reach : NodeId → Nat} {x y : NodeId}

theorem Region.Threaded.extendReach_le_old (h : r.Threaded o plan built s)
    (leveled : ∀ n l, plan.levels.get? n = some l → reach n = l)
    (mono : ∀ x ∈ r.body, ∀ y ∈ r.body, r.ReadsFrom x y → reach x ≤ reach y)
    (hx : x ∈ s.region.body) (hy : y ∈ r.body) (reads : s.region.ReadsFrom x y) :
    extendReach r built reach x ≤ extendReach r built reach y := by
  have rew := h.rewritten
  obtain ⟨v, hv, results⟩ := reads
  rw [rew.results y (h.wf.bodyKnown y hy)] at results
  obtain ⟨_, hd⟩ := h.wf.sound.result_defined results
  have known := known_of_definition? hd
  rw [h.extendReach_old reach hy]
  rcases h.built.mem_body.mp hx with hx | hx
  · rw [h.extendReach_old reach hx]
    exact mono x hx y hy ⟨v, ((rew.mentions_old hx known).mp hv).1, results⟩
  · obtain ⟨b, hb, l, hl, rfl, source⟩ := rew.mentions_new hx hv
    obtain ⟨upper, _, feeds, hu, _⟩ := h.edge hb
    obtain ⟨upper', _, hu', _, _, hle⟩ := h.link_level hb hl
    rw [hu] at hu'
    cases hu'
    rw [h.extendReach_new reach hb hl (by simp [Link.nodes])]
    rcases source with rfl | rfl | ⟨k, hk, _, rfl⟩
    · -- What the chain carries comes from its producer, which is not below `y` either.
      have top : reach b.chain.producer ≤ reach y := by
        rcases feeds.offers with hm | hp
        · exact mono _ feeds.mem_left y hy ⟨_, hm, results⟩
        · rw [h.wf.sound.result_unique hp results]
      rw [leveled _ _ hu] at top
      omega
    · have := rew.target_new hb hl
      omega
    · have := rew.target_new hb hk
      omega

theorem Region.Threaded.extendReach_le_new (h : r.Threaded o plan built s)
    (leveled : ∀ n l, plan.levels.get? n = some l → reach n = l)
    (hx : x ∈ s.region.body) (hy : y ∈ newNodes built) (reads : s.region.ReadsFrom x y) :
    extendReach r built reach x ≤ extendReach r built reach y := by
  have rew := h.rewritten
  obtain ⟨v, hv, results⟩ := reads
  obtain ⟨b, hb, l, hl, hyl, rfl⟩ := rew.results_new hy results
  rw [h.extendReach_new reach hb hl hyl]
  rcases h.built.mem_body.mp hx with hx | hx
  · obtain ⟨u, hu, he⟩ := (rew.mentions_iff hx).mp hv
    obtain ⟨hf, _⟩ := (rew.rewired_new (h.wf.sound.known_of_mentions hx hu) hb hl).mp he
    obtain ⟨_, _, rfl, _⟩ := rewired_of_some hf
    obtain ⟨_, lower, _, hlow, hlt, _⟩ := h.link_level hb hl
    rw [h.extendReach_old reach hx, leveled _ _ hlow]
    omega
  · obtain ⟨b', hb', k, hk, rfl, source⟩ := rew.mentions_new hx hv
    rw [h.extendReach_new reach hb' hk (by simp [Link.nodes])]
    rcases source with he | he | ⟨m, hm, hmk, he⟩
    · have := rew.target_new hb hl
      obtain ⟨_, hv', _⟩ := rew.links b' hb'
      have := Region.index_lt_of_value? hv'
      rw [he] at *
      omega
    · obtain ⟨_, rfl⟩ := rew.link_of_target hb hb' hl hk he
      exact le_rfl
    · obtain ⟨rfl, rfl⟩ := rew.link_of_target hb hb' hl hm he
      exact (h.link_falls hb hmk).le

/-- The measure that shows that no node reads from a lower level goes over to the new nodes. -/
theorem Region.Threaded.graded_extend (h : r.Threaded o plan built s)
    (leveled : ∀ n l, plan.levels.get? n = some l → reach n = l)
    (mono : ∀ x ∈ r.body, ∀ y ∈ r.body, r.ReadsFrom x y → reach x ≤ reach y) :
    s.region.Graded (extendReach r built reach) := by
  refine ⟨fun n hn l hl => ?_, fun x hx y hy reads => ?_⟩
  · rcases h.level_cases hn hl with ⟨hm, hl⟩ | ⟨b, hb, k, hk, rfl, rfl⟩
    · rw [h.extendReach_old reach hm, leveled n l hl]
    · exact h.extendReach_new reach hb hk (by simp [Link.nodes])
  · rcases h.built.mem_body.mp hy with hy | hy
    · exact h.extendReach_le_old leveled mono hx hy reads
    · exact h.extendReach_le_new leveled hx hy reads

end Extend

theorem Region.Threaded.graded (h : r.Threaded o plan built s) :
    ∃ reach, s.region.Graded reach := by
  obtain ⟨_, leveled, mono⟩ := h.sound.schedule.reach
  exact ⟨_, h.graded_extend leveled mono⟩

end Threaded

end Staging
