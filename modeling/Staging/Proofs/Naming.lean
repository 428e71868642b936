import Mathlib.Data.List.Nodup
import Mathlib.Data.List.Perm.Subperm
import Staging.Proofs.Altering
import Staging.Proofs.Legal
import Staging.Proofs.Readable

namespace Staging

/-- What a region is called, and what its values are called, is kept, and new values have names of
their own. Attributes are kept too, and new nodes have none. The region stands where it stood. -/
structure Region.Augments (r s : Region) : Prop where
  name : s.name = r.name
  attrs : s.attrs = r.attrs
  span : s.span = r.span
  nodeCount : r.nodes.size ≤ s.nodes.size
  valueCount : r.values.size ≤ s.values.size
  value : ∀ v, v.index < r.values.size → s.value? v = r.value? v
  named : ∀ v, r.values.size ≤ v.index → v.index < s.values.size → IsValueName (s.nameOf v)
  apart : ∀ v w, r.values.size ≤ w.index → v.index < s.values.size → w.index < s.values.size →
    s.nameOf v = s.nameOf w → v = w
  nodeAttrs : ∀ n node, s.node? n = some node →
    node.attrs = [] ∨ ∃ old, r.node? n = some old ∧ node.attrs = old.attrs

section Fresh

variable {r : Region}

theorem toList_toString (n : Nat) : (toString n).toList = Nat.toDigits 10 n :=
  Nat.toList_repr

theorem numbered_injective (stem : String) {i j : Nat}
    (h : stem ++ toString i = stem ++ toString j) : i = j := by
  have digits := congrArg String.toList h
  simp only [String.toList_append, List.append_cancel_left_eq, toList_toString] at digits
  rw [← decimalValue_toDigits i, digits, decimalValue_toDigits]

/-- The search ends at a number that is free, or all numbers before its end name values. -/
theorem Region.freshIndex_cases (r : Region) (stem : String) (fuel n : Nat) :
    r.hasName (stem ++ toString (r.freshIndex stem fuel n)) = false ∨
      r.freshIndex stem fuel n = n + fuel ∧
        ∀ i, n ≤ i → i < n + fuel → r.hasName (stem ++ toString i) = true := by
  induction fuel generalizing n with
  | zero => exact Or.inr ⟨rfl, fun i _ _ => by omega⟩
  | succ fuel ih =>
    unfold freshIndex
    split
    next taken =>
      refine (ih (n + 1)).imp_right fun ⟨last, all⟩ => ⟨by omega, fun i low high => ?_⟩
      rcases Nat.eq_or_lt_of_le low with rfl | low
      · exact taken
      · exact all i low (by omega)
    next free => exact Or.inl (Bool.eq_false_iff.mpr free)

theorem Region.hasName_iff {name : String} :
    r.hasName name = true ↔ name ∈ r.values.toList.map Value.name := by
  simp only [hasName, Array.any_eq_true', decide_eq_true_eq, List.mem_map, Array.mem_toList_iff]

/-- There are more numbers to try than values. -/
theorem Region.hasName_freshName (r : Region) (stem : String) :
    r.hasName (r.freshName stem) = false := by
  rcases r.freshIndex_cases stem r.values.size 0 with free | ⟨last, all⟩
  · exact free
  · refine Bool.eq_false_iff.mpr fun taken => ?_
    rw [freshName, last] at taken
    let names := (List.range (r.values.size + 1)).map fun i => stem ++ toString i
    have nodup : names.Nodup := List.nodup_range.map fun _ _ => numbered_injective stem
    have sub : names ⊆ r.values.toList.map Value.name := by
      intro name hname
      obtain ⟨i, hi, rfl⟩ := List.mem_map.mp hname
      have hi := List.mem_range.mp hi
      refine hasName_iff.mp ?_
      rcases Nat.lt_or_ge i r.values.size with low | high
      · exact all i (Nat.zero_le i) (by omega)
      · obtain rfl : i = 0 + r.values.size := by omega
        exact taken
    have count := (nodup.subperm sub).length_le
    simp [names] at count

theorem Region.isValueName_freshName (r : Region) : IsValueName (r.freshName forwardStem) := by
  refine ⟨by simp [freshName, forwardStem], fun c hc => ?_⟩
  simp only [freshName, String.toList_append, List.mem_append, toList_toString] at hc
  rcases hc with hc | hc
  · exact List.all_eq_true.mp (show forwardStem.toList.all isWordChar = true from rfl) c hc
  · exact isDigit_isWordChar (Nat.isDigit_of_mem_toDigits (by decide) (by decide) hc)

end Fresh

section Augments

variable {r s t : Region} {n : NodeId}

/-- Only the nodes are changed, and not their attributes. -/
theorem Region.Augments.of_nodes (name : s.name = r.name) (attrs : s.attrs = r.attrs)
    (span : s.span = r.span) (values : s.values = r.values) (size : s.nodes.size = r.nodes.size)
    (nodes : ∀ n node, s.node? n = some node →
      ∃ old, r.node? n = some old ∧ node.attrs = old.attrs) : r.Augments s := by
  have nothing (v : ValueId) (new : r.values.size ≤ v.index) : ¬ v.index < s.values.size := by
    rw [values]
    omega
  refine ⟨name, attrs, span, size.ge, by rw [values], fun v _ => by rw [value?, value?, values],
    fun v new known => absurd known (nothing v new),
    fun v w new _ known => absurd known (nothing w new),
    fun n node hn => Or.inr (nodes n node hn)⟩

theorem Region.Augments.refl (r : Region) : r.Augments r :=
  .of_nodes rfl rfl rfl rfl rfl fun _ node hn => ⟨node, hn, rfl⟩

theorem Region.Augments.trans (h : r.Augments s) (h' : s.Augments t) : r.Augments t := by
  have nameOf {v : ValueId} (known : v.index < s.values.size) : t.nameOf v = s.nameOf v :=
    nameOf_congr (h'.value v known)
  refine ⟨h'.name.trans h.name, h'.attrs.trans h.attrs, h'.span.trans h.span,
    h.nodeCount.trans h'.nodeCount, h.valueCount.trans h'.valueCount,
    fun v hv => ?_, fun v new known => ?_, fun v w new hv hw same => ?_, fun n node hn => ?_⟩
  · rw [h'.value v (lt_of_lt_of_le hv h.valueCount), h.value v hv]
  · rcases Nat.lt_or_ge v.index s.values.size with old | newer
    · rw [nameOf old]
      exact h.named v new old
    · exact h'.named v newer known
  · rcases Nat.lt_or_ge w.index s.values.size with oldW | newW
    · rcases Nat.lt_or_ge v.index s.values.size with oldV | newV
      · rw [nameOf oldV, nameOf oldW] at same
        exact h.apart v w new oldV oldW same
      · exact (h'.apart w v newV hw hv same.symm).symm
    · exact h'.apart v w newW hv hw same
  · rcases h'.nodeAttrs n node hn with none | ⟨old, ho, same⟩
    · exact Or.inl none
    · rcases h.nodeAttrs n old ho with none | ⟨older, hr, same'⟩
      · exact Or.inl (same.trans none)
      · exact Or.inr ⟨older, hr, same.trans same'⟩

theorem Region.modifyNode_augments {f : Node → Node} (keep : ∀ node, (f node).attrs = node.attrs) :
    r.Augments (r.modifyNode n f) := by
  refine .of_nodes rfl rfl rfl rfl Array.size_modify fun m node hm => ?_
  rw [node?_modifyNode] at hm
  split at hm
  · obtain ⟨old, ho, rfl⟩ := Option.map_eq_some_iff.mp hm
    exact ⟨old, ho, keep old⟩
  · exact ⟨node, hm, rfl⟩

theorem Region.withLevels_augments (level : NodeId → Option Nat) :
    r.Augments (r.withLevels level) := by
  refine .of_nodes rfl rfl rfl rfl (by simp [withLevels]) fun m node hm => ?_
  rw [node?_withLevels] at hm
  obtain ⟨old, ho, rfl⟩ := Option.map_eq_some_iff.mp hm
  exact ⟨old, ho, rfl⟩

/-- A node is created with at most one result, which has a fresh name. -/
theorem Region.extendWith_augments {node : Node} {news : List Value} (bare : node.attrs = [])
    (one : news.length ≤ 1) (fresh : ∀ value ∈ news, value.name = r.freshName forwardStem) :
    r.Augments (r.extendWith node news) := by
  have old {v : ValueId} (hv : v.index < r.values.size) :
      (r.extendWith node news).value? v = r.value? v := by
    rw [value?_extendWith, if_pos hv]
  have new {v : ValueId} (low : r.values.size ≤ v.index)
      (known : v.index < (r.extendWith node news).values.size) :
      v = ⟨r.values.size⟩ ∧ (r.extendWith node news).nameOf v = r.freshName forwardStem := by
    obtain ⟨i⟩ := v
    rw [values_extendWith] at known
    obtain rfl : i = r.values.size := by
      simp only at low known
      omega
    obtain ⟨value, rfl⟩ := List.length_eq_one_iff.mp (show news.length = 1 by omega)
    simp [nameOf, value?_extendWith, fresh value]
  refine ⟨rfl, rfl, rfl, by simp, by simp, fun v => old, fun v low known => ?_,
    fun v w low hv hw same => ?_, fun m found hm => ?_⟩
  · rw [(new low known).2]
    exact r.isValueName_freshName
  · obtain ⟨hw', fresh'⟩ := new low hw
    rcases Nat.lt_or_ge v.index r.values.size with oldV | newV
    · rw [nameOf_congr (old oldV), fresh'] at same
      exact absurd same (nameOf_ne_of_hasName (r.hasName_freshName forwardStem) oldV)
    · rw [hw', (new newV hv).1]
  · rw [node?_extendWith] at hm
    split at hm
    · cases hm
      exact Or.inl bare
    · exact Or.inr ⟨found, hm, rfl⟩

theorem Region.Alters.augments (h : r.Alters s) : r.Augments s := by
  cases h with
  | node n keep => exact modifyNode_augments fun node => (keep node).1
  | levels level => exact withLevels_augments level
  | body | mark => exact .of_nodes rfl rfl rfl rfl rfl fun _ node hn => ⟨node, hn, rfl⟩
  | create kind operands one fresh span =>
    rw [addNode_named]
    refine extendWith_augments rfl (by simpa [namedResults] using one) fun value hv => ?_
    obtain ⟨i, hi, rfl⟩ := List.mem_mapIdx.mp hv
    exact fresh _ (List.getElem_mem hi)

theorem Region.Evolves.augments (h : r.Evolves s) : r.Augments s := by
  induction h with
  | refl => exact .refl r
  | tail _ step ih => exact ih.trans step.augments

theorem Region.forward_augments {levels : Levels} {b : Bypasses} {f : Forwarded}
    (h : r.forward levels b = some (s, f)) : r.Augments s :=
  (forward_evolves h).augments

/-- A run keeps all names, and gives new ones to what it creates. -/
theorem Region.legalize_augments {o : Options} {report : Report}
    (h : r.legalize o = .ok (report, s)) : r.Augments s := by
  obtain ⟨_, _, _, _, _, -, -, forward, compact, -⟩ := legalize_eq_ok.mp h
  exact ((forward_evolves forward).trans (compact_evolves compact)).augments

end Augments

section Readable

variable {r out : Region} {o : Options} {plan : Plan} {built : List BuiltChain} {s : Forwarding}

/-- What a node uses was used before, or is the target of a link. -/
theorem Region.Legalized.operand_cases (h : r.Legalized o plan built s out) {n : NodeId}
    {v : ValueId} (hv : v ∈ out.operands n) :
    (∃ m, v ∈ r.operands m) ∨ ∃ b ∈ built, ∃ l ∈ b.links, v = l.target := by
  have rew := h.threaded.rewritten
  rw [h.same.operands] at hv
  rcases Nat.lt_or_ge n.index r.nodes.size with old | new
  · by_cases loose : ∀ t ∈ r.body, ¬ r.Within t n
    · exact Or.inl ⟨n, rew.loose n old loose ▸ hv⟩
    · push Not at loose
      obtain ⟨t, ht, hn⟩ := loose
      rw [rew.operands t ht n hn] at hv
      obtain ⟨w, hw, rfl⟩ := List.mem_map.mp hv
      cases hf : built.find? fun b => b.chain.carries t w with
      | none => exact Or.inl ⟨n, by rwa [rewired_of_none hf]⟩
      | some b =>
        obtain ⟨he, hb, -, -⟩ := rewired_of_some hf
        obtain ⟨l, hl, -, hend⟩ := @endOf_mem w b.links (rew.ready b hb).2
        exact Or.inr ⟨b, hb, l, hl, he.trans hend⟩
  · rcases rew.new_cases new with ⟨b, hb, l, hl, rfl⟩ | ⟨b, hb, l, hl, buffer⟩ | unknown
    · have source : (∃ m, l.source ∈ r.operands m) ∨
          ∃ b ∈ built, ∃ l' ∈ b.links, l.source = l'.target := by
        rcases (rew.linked b hb).source_cases hl with ⟨-, carrier⟩ | ⟨k, before, target⟩
        · obtain ⟨_, _, feeds, -⟩ := h.threaded.edge hb
          obtain ⟨m, -, hm⟩ := feeds.mentions
          exact Or.inl ⟨m, carrier ▸ hm⟩
        · exact Or.inr ⟨b, hb, k, Before.mem_left before.sublist, target⟩
      obtain ⟨_, -, link⟩ := rew.hasLink hb hl
      rw [link.operands] at hv
      split at hv
      · rcases List.mem_cons.mp hv with rfl | hv
        · exact source
        · exact Or.inr ⟨b, hb, l, hl, List.mem_singleton.mp hv⟩
      · exact List.mem_singleton.mp hv ▸ source
    · obtain ⟨_, -, link⟩ := rew.hasLink hb hl
      simp [(link.buffer n buffer).2.1] at hv
    · simp [Region.operands, node?_eq_none unknown] at hv

/-- A new node has at most one result, which is new. -/
theorem Region.Rewritten.newResults {s : Region} (h : r.Rewritten built built s) {n : NodeId}
    (new : r.nodes.size ≤ n.index) :
    (s.results n).length ≤ 1 ∧ ∀ v ∈ s.results n, r.values.size ≤ v.index := by
  refine ⟨?_, fun v hv => ?_⟩
  · rcases h.new_cases new with ⟨b, hb, l, hl, rfl⟩ | ⟨b, hb, l, hl, buffer⟩ | unknown
    · obtain ⟨_, -, link⟩ := h.hasLink hb hl
      rw [link.results]
      split <;> simp
    · obtain ⟨_, -, link⟩ := h.hasLink hb hl
      simp [(link.buffer n buffer).2.2.1]
    · simp [Region.results, node?_eq_none unknown]
  · have known : n.index < s.nodes.size := by
      by_contra unknown
      simp [Region.results, node?_eq_none (Nat.le_of_not_lt unknown)] at hv
    obtain ⟨b, hb, l, hl, -, rfl⟩ := h.results_new (h.mem_newNodes_iff.mpr ⟨new, known⟩) hv
    exact h.target_new hb hl

/-- A value was there before, or it is the target of a link and of the type that the chain
carries. -/
theorem Region.Legalized.value_cases (h : r.Legalized o plan built s out) {v : ValueId}
    {value : Value} (hv : out.value? v = some value) : r.value? v = some value ∨
      r.values.size ≤ v.index ∧ ∃ w carried, r.value? w = some carried ∧
        value.type = carried.type := by
  have rew := h.threaded.rewritten.sameNodes h.same
  rcases Nat.lt_or_ge v.index r.values.size with old | new
  · exact Or.inl (rew.value v old ▸ hv)
  · have known := index_lt_of_value? (h.same.value ▸ hv)
    rw [h.threaded.built.valueCount] at known
    have mem : v ∈ newValues built := by
      rw [rew.values]
      exact List.mem_map.mpr ⟨v.index, List.mem_range'_1.mpr ⟨new, known⟩, rfl⟩
    obtain ⟨b, hb, l, hl, rfl⟩ := mem_newValues.mp mem
    obtain ⟨carried, hc, link⟩ := rew.hasLink hb hl
    obtain ⟨name, target⟩ := link.target
    obtain rfl := Option.some.inj (hv.symm.trans target)
    exact Or.inr ⟨new, _, carried, hc, rfl⟩

/-- What a new node allocates is a memref. -/
theorem Region.Rewritten.allocated_new {s : Region} (h : r.Rewritten built built s) {n : NodeId}
    (new : r.nodes.size ≤ n.index) {stack : Bool} (hk : s.kind? n = some (.alloc stack))
    {v : ValueId} (hv : v ∈ s.results n) : s.isMemref v = true := by
  rcases h.new_cases new with ⟨b, hb, l, hl, rfl⟩ | ⟨b, hb, l, hl, buffer⟩ | unknown
  · obtain ⟨_, -, link⟩ := h.hasLink hb hl
    simp [link.kind] at hk
  · obtain ⟨_, -, link⟩ := h.hasLink hb hl
    obtain ⟨name, target⟩ := link.target
    rw [(link.buffer n buffer).2.2.1] at hv
    obtain rfl := List.mem_singleton.mp hv
    have filled := link.filled
    rw [buffer] at filled
    simpa [Region.isMemref, target] using filled.symm
  · simp [kind?, node?_eq_none unknown] at hk

/-- The target of a link is the only result of its node. -/
theorem Region.Rewritten.target_lastNamed {s : Region} (h : r.Rewritten built built s)
    (known : ∀ n, ∀ v ∈ r.results n, v.index < r.values.size) {b : BuiltChain} (hb : b ∈ built)
    {l : Link} (hl : l ∈ b.links) : s.LastNamed l.target := by
  intro n before behind split w hw
  have new : r.nodes.size ≤ n.index := by
    by_contra old
    have inside : l.target ∈ r.results n := by
      rw [← h.results n (Nat.lt_of_not_le old), split]
      simp
    exact absurd (known n _ inside) (Nat.not_lt_of_le (h.target_new hb hl))
  have one := (h.newResults new).1
  have := List.length_pos_of_mem hw
  simp only [split, List.length_append, List.length_cons] at one
  omega

/-- Values of one name are still results of one node. -/
theorem Region.Readable.apart_rewritten {s : Region} (readable : r.Readable) (aug : r.Augments s)
    (results : ∀ n, n.index < r.nodes.size → s.results n = r.results n) {v w : ValueId}
    (hv : v.index < s.values.size) (hw : w.index < s.values.size) (same : s.nameOf v = s.nameOf w) :
    v = w ∨ ∃ n, v ∈ s.results n ∧ w ∈ s.results n := by
  rcases Nat.lt_or_ge v.index r.values.size with oldV | newV
  · rcases Nat.lt_or_ge w.index r.values.size with oldW | newW
    · rw [nameOf_congr (aug.value v oldV), nameOf_congr (aug.value w oldW)] at same
      refine (readable.apart v w oldV oldW same).imp_right ?_
      rintro ⟨n, hvn, hwn⟩
      have known : n.index < r.nodes.size := by
        by_contra unknown
        simp [Region.results, node?_eq_none (Nat.le_of_not_lt unknown)] at hvn
      exact ⟨n, (results n known).symm ▸ hvn, (results n known).symm ▸ hwn⟩
    · exact Or.inl (aug.apart v w newW hv hw same)
  · exact Or.inl (aug.apart w v newV hw hv same.symm).symm

/-- What a region says after a run can still be written and read again. -/
theorem Region.Legalized.readable (h : r.Legalized o plan built s out) (aug : r.Augments out)
    (readable : r.Readable) : out.Readable := by
  have rew := h.threaded.rewritten.sameNodes h.same
  constructor
  case name => exact aug.name ▸ readable.name
  case regionAttrs => exact aug.attrs ▸ readable.regionAttrs
  case values =>
    intro v value hv
    rcases h.value_cases hv with old | ⟨new, w, carried, hw, type⟩
    · exact readable.values v value old
    · have named := aug.named v new (index_lt_of_value? hv)
      exact ⟨by simpa [nameOf, hv] using named, type ▸ (readable.values w carried hw).2⟩
  case kinds =>
    intro n kind hk
    rcases rew.kind_cases hk with old | rfl | rfl
    · exact readable.kinds n kind old
    · trivial
    · trivial
  case attrs =>
    intro n node hn
    rcases aug.nodeAttrs n node hn with none | ⟨old, ho, same⟩
    · exact none ▸ ⟨.nil, by simp, by simp⟩
    · exact same ▸ readable.attrs n old ho
  case operandKnown =>
    intro n v hv
    rcases h.operand_cases hv with ⟨m, hm⟩ | ⟨b, hb, l, hl, rfl⟩
    · exact lt_of_lt_of_le (readable.operandKnown m v hm) aug.valueCount
    · obtain ⟨_, -, link⟩ := rew.hasLink hb hl
      exact index_lt_of_value? link.target.choose_spec
  case resultKnown => exact fun n v hv => h.wellFormed.toCoherent.result_known hv
  case ivType =>
    intro n v hv
    rcases Nat.lt_or_ge n.index r.nodes.size with old | new
    · have hv : v ∈ r.ivs n := by simpa [ivs, rew.kind n old] using hv
      have known := known_of_definition? (h.threaded.wf.ivDefined n v hv)
      simpa [typeOf, rew.value v known] using readable.ivType n v hv
    · simp [rew.ivs_new new] at hv
  case allocated =>
    intro n stack hk v hv
    rcases Nat.lt_or_ge n.index r.nodes.size with old | new
    · rw [rew.results n old] at hv
      have known := readable.resultKnown n v hv
      simpa [Region.isMemref, rew.value v known]
        using readable.allocated n stack (rew.kind n old ▸ hk) v hv
    · exact rew.allocated_new new hk hv
  case latest =>
    intro n v hv
    rcases h.operand_cases hv with ⟨m, hm⟩ | ⟨b, hb, l, hl, rfl⟩
    · exact (readable.latest m v hm).grow (readable.operandKnown m v hm) readable.resultKnown
        rew.results rew.value fun n new => (rew.newResults new).2
    · exact rew.target_lastNamed readable.resultKnown hb hl
  case apart => exact fun v w hv hw => readable.apart_rewritten aug rew.results hv hw

end Readable

end Staging
