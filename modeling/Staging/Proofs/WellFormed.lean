import Staging.Certificate
import Staging.Proofs.Forest

namespace Staging

/-- The induction variable of a loop. -/
def Region.ivs (r : Region) (n : NodeId) : List ValueId :=
  ((r.kind? n).bind NodeKind.inductionVar?).toList

def Region.definition? (r : Region) (v : ValueId) : Option Definition :=
  (r.value? v).map Value.definition

def Region.isMemref (r : Region) (v : ValueId) : Bool :=
  (r.value? v).any fun value => value.type.isMemref

/-- Every operand in a block is visible where it is used: it is among `visible`, a result of an
earlier node of a block that is open there, or the induction variable of a loop around it. -/
inductive Region.Scoped (r : Region) : List ValueId → List NodeId → Prop
  | nil {visible : List ValueId} : Scoped r visible []
  | cons {visible : List ValueId} {n : NodeId} {ns : List NodeId}
      (operands : ∀ v ∈ r.operands n, v ∈ visible)
      (inside : Scoped r (r.ivs n ++ visible) (r.bodyOf n))
      (rest : Scoped r (r.results n ++ visible) ns) : Scoped r visible (n :: ns)

/-- How many operands and results a node of some kind has. -/
def NodeKind.Fits : NodeKind → Nat → Nat → Prop
  | .alloc _, operands, results => operands = 0 ∧ results = 1
  | .constant _, operands, results => operands = 0 ∧ results = 1
  | .convert _, operands, results => operands = 1 ∧ results = 1
  | .ret, _, results => results = 0
  | .compute _, _, _ => True
  | .load, operands, results => operands = 1 ∧ results = 1
  | .store, operands, results => operands = 2 ∧ results = 0
  | .copy, operands, results => (operands = 2 ∧ results = 0) ∨ (operands = 1 ∧ results = 1)
  | .loop .., operands, results => operands = 0 ∧ results = 0

/-- What holds of a region at every moment of its construction: its blocks are nested, values
know where they come from, and nodes fit their kinds. -/
structure Region.Coherent (r : Region) : Prop extends r.Nested where
  argDefined : ∀ i v, r.args[i]? = some v → r.definition? v = some (.arg i)
  resultDefined : ∀ n i v, (r.results n)[i]? = some v → r.definition? v = some (.result n i)
  ivDefined : ∀ n v, v ∈ r.ivs n → r.definition? v = some (.inductionVar n)
  fits : ∀ n node, r.node? n = some node → node.kind.Fits node.operands.length node.results.length
  buffers : ∀ n mem kind, (mem, kind) ∈ r.touched n → r.isMemref mem = true

/-- What holds of every region that comes from a source text, and is kept from there on. -/
structure Region.WellFormed (r : Region) : Prop extends r.Coherent where
  inScope : r.Scoped r.args r.body

/-- A region whose blocks are a forest, whose values know where they come from, and whose operands
are defined before they are used. -/
structure Region.Sound (r : Region) : Prop extends r.Forest where
  argDefined : ∀ i v, r.args[i]? = some v → r.definition? v = some (.arg i)
  resultDefined : ∀ n i v, (r.results n)[i]? = some v → r.definition? v = some (.result n i)
  ivDefined : ∀ n v, v ∈ r.ivs n → r.definition? v = some (.inductionVar n)
  inScope : r.Scoped r.args r.body

theorem Region.WellFormed.sound {r : Region} (wf : r.WellFormed) : r.Sound :=
  ⟨wf.toNested.forest, wf.argDefined, wf.resultDefined, wf.ivDefined, wf.inScope⟩

/-- A node or one nested in it has `v` among its operands. -/
def Region.Mentions (r : Region) (t : NodeId) (v : ValueId) : Prop :=
  ∃ n, r.Within t n ∧ v ∈ r.operands n

/-- A node or one nested in it uses a result of another node. -/
def Region.ReadsFrom (r : Region) (x y : NodeId) : Prop :=
  ∃ v, r.Mentions x v ∧ v ∈ r.results y

theorem Region.mentions_of_operand {r : Region} {t : NodeId} {v : ValueId}
    (h : v ∈ r.operands t) : r.Mentions t v :=
  ⟨t, Within.refl r t, h⟩

theorem Region.Mentions.of_child {r : Region} {t c : NodeId} {v : ValueId} (h : r.Mentions c v)
    (hc : r.Child t c) : r.Mentions t v := by
  obtain ⟨n, hn, hv⟩ := h
  exact ⟨n, Relation.ReflTransGen.head hc hn, hv⟩

theorem Region.mentions_iff {r : Region} {t : NodeId} {v : ValueId} :
    r.Mentions t v ↔ v ∈ r.operands t ∨ ∃ c, r.Child t c ∧ r.Mentions c v := by
  constructor
  · rintro ⟨n, hn, hv⟩
    rcases within_iff.mp hn with rfl | ⟨c, hc, hn⟩
    · exact Or.inl hv
    · exact Or.inr ⟨c, hc, n, hn, hv⟩
  · rintro (hv | ⟨c, hc, h⟩)
    · exact mentions_of_operand hv
    · exact h.of_child hc

/-- A block stays scoped where other operands take the place of the old ones, as long as those
that are kept stay visible and the new ones are. -/
theorem Region.Scoped.transfer {r s : Region} {visible visible' : List ValueId} {ns : List NodeId}
    (h : r.Scoped visible ns)
    (bodies : ∀ t ∈ ns, ∀ n, r.Within t n → s.bodyOf n = r.bodyOf n)
    (ivs : ∀ t ∈ ns, ∀ n, r.Within t n → s.ivs n = r.ivs n)
    (results : ∀ t ∈ ns, ∀ n, r.Within t n → s.results n = r.results n)
    (operands : ∀ t ∈ ns, ∀ n, r.Within t n → ∀ v ∈ s.operands n,
      v ∈ visible' ∨ (v ∈ r.operands n ∧ (v ∈ visible → v ∈ visible'))) :
    s.Scoped visible' ns := by
  induction h generalizing visible' with
  | nil => exact .nil
  | @cons visible n ns hops _ _ ihInside ihRest =>
    have self := Within.refl r n
    have child : ∀ c ∈ r.bodyOf n, ∀ m, r.Within c m → r.Within n m :=
      fun c hc m hm => Relation.ReflTransGen.head hc hm
    refine .cons ?_ ?_ ?_
    · intro v hv
      rcases operands n (by simp) n self v hv with new | ⟨old, keep⟩
      · exact new
      · exact keep (hops v old)
    · rw [bodies n (by simp) n self, ivs n (by simp) n self]
      refine ihInside (fun c hc m hm => bodies n (by simp) m (child c hc m hm))
        (fun c hc m hm => ivs n (by simp) m (child c hc m hm))
        (fun c hc m hm => results n (by simp) m (child c hc m hm)) ?_
      intro c hc m hm v hv
      rcases operands n (by simp) m (child c hc m hm) v hv with new | ⟨old, keep⟩
      · exact Or.inl (List.mem_append_right _ new)
      · refine Or.inr ⟨old, fun hvis => ?_⟩
        rcases List.mem_append.mp hvis with hiv | hvis
        · exact List.mem_append_left _ hiv
        · exact List.mem_append_right _ (keep hvis)
    · rw [results n (by simp) n self]
      refine ihRest (fun t ht => bodies t (by simp [ht])) (fun t ht => ivs t (by simp [ht]))
        (fun t ht => results t (by simp [ht])) ?_
      intro t ht m hm v hv
      rcases operands t (by simp [ht]) m hm v hv with new | ⟨old, keep⟩
      · exact Or.inl (List.mem_append_right _ new)
      · refine Or.inr ⟨old, fun hvis => ?_⟩
        rcases List.mem_append.mp hvis with hres | hvis
        · exact List.mem_append_left _ hres
        · exact List.mem_append_right _ (keep hvis)

/-- Only what a block mentions has to stay visible. -/
theorem Region.Scoped.mono {r : Region} {visible visible' : List ValueId} {ns : List NodeId}
    (h : r.Scoped visible ns)
    (keep : ∀ t ∈ ns, ∀ v, r.Mentions t v → v ∈ visible → v ∈ visible') :
    r.Scoped visible' ns :=
  h.transfer (fun _ _ _ _ => rfl) (fun _ _ _ _ => rfl) (fun _ _ _ _ => rfl)
    fun t ht n hn v hv => Or.inr ⟨hv, keep t ht v ⟨n, hn, hv⟩⟩

theorem Region.scoped_append {r : Region} {visible : List ValueId} {xs ys : List NodeId} :
    r.Scoped visible (xs ++ ys) ↔
      r.Scoped visible xs ∧ r.Scoped (xs.flatMap r.results ++ visible) ys := by
  induction xs generalizing visible with
  | nil => simp [Scoped.nil]
  | cons n xs ih =>
    have reorder : ∀ v, v ∈ (n :: xs).flatMap r.results ++ visible ↔
        v ∈ xs.flatMap r.results ++ (r.results n ++ visible) := by
      intro v
      simp only [List.flatMap_cons, List.mem_append]
      tauto
    constructor
    · intro h
      cases h with
      | cons operands inside rest =>
        obtain ⟨hx, hy⟩ := ih.mp rest
        exact ⟨.cons operands inside hx, hy.mono fun _ _ v _ hv => (reorder v).mpr hv⟩
    · rintro ⟨h, hy⟩
      cases h with
      | cons operands inside rest =>
        exact .cons operands inside
          (ih.mpr ⟨rest, hy.mono fun _ _ v _ hv => (reorder v).mp hv⟩)

/-- A block is scoped when each of its nodes is, given the results of those before it. -/
theorem Region.scoped_iff_split {r : Region} {visible : List ValueId} {ns : List NodeId} :
    r.Scoped visible ns ↔ ∀ earlier n later, ns = earlier ++ n :: later →
      r.Scoped (earlier.flatMap r.results ++ visible) [n] := by
  constructor
  · rintro h earlier n later rfl
    have hn := (scoped_append.mp h).2
    rw [← List.singleton_append] at hn
    exact (scoped_append.mp hn).1
  · intro h
    induction ns using List.reverseRecOn with
    | nil => exact .nil
    | append_singleton ns n ih =>
      refine scoped_append.mpr ⟨ih ?_, h ns n [] rfl⟩
      rintro earlier m later rfl
      exact h earlier m (later ++ [n]) (by simp)

/-- What a block mentions is visible at its start or defined in it. -/
theorem Region.Scoped.mention_cases {r : Region} {visible : List ValueId} {ns : List NodeId}
    (h : r.Scoped visible ns) {t : NodeId} {v : ValueId} (ht : t ∈ ns) (hv : r.Mentions t v) :
    v ∈ visible ∨ ∃ s ∈ ns, ∃ n, r.Within s n ∧ (v ∈ r.results n ∨ v ∈ r.ivs n) := by
  induction h generalizing t with
  | nil => simp at ht
  | @cons visible n ns hops _ _ ihInside ihRest =>
    rcases List.mem_cons.mp ht with rfl | ht
    · rcases mentions_iff.mp hv with hv | ⟨c, hc, hv⟩
      · exact Or.inl (hops v hv)
      · rcases ihInside hc hv with hvis | ⟨s, hs, m, hm, hd⟩
        · rcases List.mem_append.mp hvis with hiv | hvis
          · exact Or.inr ⟨t, by simp, t, Within.refl r t, Or.inr hiv⟩
          · exact Or.inl hvis
        · exact Or.inr ⟨t, by simp, m, Relation.ReflTransGen.head hs hm, hd⟩
    · rcases ihRest ht hv with hvis | ⟨s, hs, m, hm, hd⟩
      · rcases List.mem_append.mp hvis with hres | hvis
        · exact Or.inr ⟨n, by simp, n, Within.refl r n, Or.inl hres⟩
        · exact Or.inl hvis
      · exact Or.inr ⟨s, by simp [hs], m, hm, hd⟩

theorem Region.Sound.result_defined {r : Region} (sound : r.Sound) {n : NodeId}
    {v : ValueId} (h : v ∈ r.results n) : ∃ i, r.definition? v = some (.result n i) := by
  obtain ⟨i, hi, he⟩ := List.mem_iff_getElem.mp h
  exact ⟨i, sound.resultDefined n i v (by rw [List.getElem?_eq_getElem hi, he])⟩

theorem Region.Sound.arg_defined {r : Region} (sound : r.Sound) {v : ValueId}
    (h : v ∈ r.args) : ∃ i, r.definition? v = some (.arg i) := by
  obtain ⟨i, hi, he⟩ := List.mem_iff_getElem.mp h
  exact ⟨i, sound.argDefined i v (by rw [List.getElem?_eq_getElem hi, he])⟩

/-- A value is a result of one node only. -/
theorem Region.Sound.result_unique {r : Region} (sound : r.Sound) {m n : NodeId}
    {v : ValueId} (hm : v ∈ r.results m) (hn : v ∈ r.results n) : m = n := by
  obtain ⟨i, hi⟩ := sound.result_defined hm
  obtain ⟨j, hj⟩ := sound.result_defined hn
  rw [hi] at hj
  cases hj
  rfl

/-- What a node of the body mentions is an argument, a result of an earlier node of the body,
or defined inside it. -/
theorem Region.Sound.mention_cases {r : Region} (sound : r.Sound) {t : NodeId}
    {v : ValueId} (ht : t ∈ r.body) (hv : r.Mentions t v) :
    v ∈ r.args ∨ (∃ y, Before r.body y t ∧ v ∈ r.results y) ∨
      ∃ n, r.Within t n ∧ (n ≠ t ∧ v ∈ r.results n ∨ v ∈ r.ivs n) := by
  obtain ⟨earlier, later, hb⟩ := List.append_of_mem ht
  have hs := scoped_iff_split.mp sound.inScope earlier t later hb
  have visible_cases : v ∈ earlier.flatMap r.results ++ r.args →
      v ∈ r.args ∨ ∃ y, Before r.body y t ∧ v ∈ r.results y := by
    intro hvis
    rcases List.mem_append.mp hvis with hres | harg
    · obtain ⟨y, hy, hvy⟩ := List.mem_flatMap.mp hres
      refine Or.inr ⟨y, ?_, hvy⟩
      rw [hb]
      exact before_append.mpr (Or.inr (Or.inl ⟨hy, by simp⟩))
    · exact Or.inl harg
  cases hs with
  | cons operands inside _ =>
    rcases mentions_iff.mp hv with hv | ⟨c, hc, hv⟩
    · exact (visible_cases (operands v hv)).imp_right Or.inl
    · rcases inside.mention_cases hc hv with hvis | ⟨s, hs, n, hn, hd⟩
      · rcases List.mem_append.mp hvis with hiv | hvis
        · exact Or.inr (Or.inr ⟨t, Within.refl r t, Or.inr hiv⟩)
        · exact (visible_cases hvis).imp_right Or.inl
      · have ne : n ≠ t := by
          rintro rfl
          exact sound.acyclic n s hs hn
        exact Or.inr (Or.inr ⟨n, Relation.ReflTransGen.head hs hn,
          hd.imp_left fun h => ⟨ne, h⟩⟩)

/-- A node of the body stands behind all nodes of the body whose results it uses. -/
theorem Region.Sound.before_of_readsFrom {r : Region} (sound : r.Sound) {x y : NodeId}
    (hx : x ∈ r.body) (hy : y ∈ r.body) (h : r.ReadsFrom x y) : Before r.body y x := by
  obtain ⟨v, hv, hres⟩ := h
  obtain ⟨i, hdef⟩ := sound.result_defined hres
  rcases sound.mention_cases hx hv with harg | ⟨z, hz, hvz⟩ | ⟨n, hn, ⟨ne, hvn⟩ | hiv⟩
  · obtain ⟨j, hj⟩ := sound.arg_defined harg
    simp [hdef] at hj
  · exact sound.result_unique hvz hres ▸ hz
  · obtain rfl := sound.result_unique hvn hres
    exact absurd (sound.eq_of_within_body hx hy hn) ne
  · have hj := sound.ivDefined n v hiv
    simp [hdef] at hj

/-- The nodes of a region may stand in any order in which each follows those that it reads from. -/
theorem Region.Sound.scoped_of_perm {r : Region} (sound : r.Sound) {body : List NodeId}
    (perm : body.Perm r.body) (ordered : body.Pairwise fun x y => ¬ r.ReadsFrom x y) :
    r.Scoped r.args body := by
  refine scoped_iff_split.mpr fun earlier t later hb => ?_
  have ht : t ∈ r.body := perm.mem_iff.mp (by simp [hb])
  obtain ⟨before, behind, hsplit⟩ := List.append_of_mem ht
  refine (scoped_iff_split.mp sound.inScope before t behind hsplit).mono ?_
  intro u hu v hv hvis
  obtain rfl : u = t := by simpa using hu
  rcases List.mem_append.mp hvis with hres | harg
  · obtain ⟨y, hy, hvy⟩ := List.mem_flatMap.mp hres
    have old : Before r.body y u := by
      rw [hsplit]
      exact before_append.mpr (Or.inr (Or.inl ⟨hy, by simp⟩))
    have hyb : y ∈ earlier ++ u :: later := hb ▸ perm.mem_iff.mpr old.mem_left
    have ne := old.ne sound.bodyNodup
    rcases List.mem_append.mp hyb with hye | hyl
    · exact List.mem_append_left _ (List.mem_flatMap.mpr ⟨y, hye, hvy⟩)
    · have hyl := (List.mem_cons.mp hyl).resolve_left ne
      have new : Before body u y := before_iff_append.mpr ⟨earlier, later, hb, hyl⟩
      exact absurd ⟨v, hv, hvy⟩ (pairwise_iff_before.mp ordered u y new)
  · exact List.mem_append_right _ harg

/-- The check of definitions and uses goes through a block that is scoped. -/
theorem Region.Scoped.foldlM_defineWithin {r : Region} (nested : r.Nested)
    {visible : List ValueId} {ns : List NodeId} (h : r.Scoped visible ns) {depth : Nat}
    {defined : List ValueId} (known : ∀ n ∈ ns, n.index < r.nodes.size)
    (deep : ∀ n ∈ ns, r.nodes.size ≤ n.index + depth) (sub : ∀ v ∈ visible, v ∈ defined) :
    ∃ out, ns.foldlM (r.defineWithin depth) defined = some out ∧
      (∀ v ∈ defined, v ∈ out) := by
  induction h generalizing depth defined with
  | nil => exact ⟨defined, rfl, fun _ hv => hv⟩
  | @cons visible n ns hops _ _ ihInside ihRest =>
    have hn := known n (by simp)
    have hd := deep n (by simp)
    obtain ⟨depth, rfl⟩ : ∃ d, depth = d + 1 := ⟨depth - 1, by omega⟩
    obtain ⟨inner, hinner, keepInner⟩ :
        ∃ out, (r.bodyOf n).foldlM (r.defineWithin depth) (r.ivs n ++ defined) = some out ∧
          ∀ v ∈ r.ivs n ++ defined, v ∈ out := by
      refine ihInside (fun c hc => nested.childKnown n c hc)
        (fun c hc => by have := nested.childDeeper n c hc; omega) fun v hv => ?_
      rcases List.mem_append.mp hv with hiv | hv
      · exact List.mem_append_left _ hiv
      · exact List.mem_append_right _ (sub v hv)
    have step : r.defineWithin (depth + 1) defined n = some (r.results n ++ inner) := by
      have hall : (r.operands n).all defined.contains = true := by
        simpa using fun v hv => sub v (hops v hv)
      unfold ivs at hinner
      simp [defineWithin, hall, hinner]
    obtain ⟨out, hout, keepOut⟩ :
        ∃ out, ns.foldlM (r.defineWithin (depth + 1)) (r.results n ++ inner) = some out ∧
          ∀ v ∈ r.results n ++ inner, v ∈ out := by
      refine ihRest (fun m hm => known m (by simp [hm])) (fun m hm => deep m (by simp [hm]))
        fun v hv => ?_
      rcases List.mem_append.mp hv with hres | hv
      · exact List.mem_append_left _ hres
      · exact List.mem_append_right _ (keepInner v (List.mem_append_right _ (sub v hv)))
    refine ⟨out, by simp [List.foldlM_cons, step, hout], fun v hv => ?_⟩
    exact keepOut v (List.mem_append_right _ (keepInner v (List.mem_append_right _ hv)))

theorem Region.WellFormed.defsBeforeUses {r : Region} (wf : r.WellFormed) :
    r.defsBeforeUses = true := by
  obtain ⟨out, hout, _⟩ : ∃ out, r.body.foldlM (r.defineWithin r.nodes.size) r.args = some out ∧
      ∀ v ∈ r.args, v ∈ out :=
    wf.inScope.foldlM_defineWithin wf.toNested wf.bodyKnown (fun _ _ => by omega) fun _ hv => hv
  simp [Region.defsBeforeUses, hout]

end Staging
