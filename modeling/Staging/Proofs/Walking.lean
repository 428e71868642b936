import Staging.Proofs.Certified
import Staging.Proofs.Edges

namespace Staging

/-- The nodes of a block in pre-order: behind each node comes all that is nested in it, and then
what is left of the block. -/
inductive Region.Preorder (r : Region) : List NodeId → List NodeId → Prop
  | nil : Preorder r [] []
  | cons {n : NodeId} {ns inner rest : List NodeId} (inside : Preorder r (r.bodyOf n) inner)
      (behind : Preorder r ns rest) : Preorder r (n :: ns) (n :: (inner ++ rest))

/-- An index says of a region, whose nodes are met in some order, what the region says itself. -/
structure Uses.Agrees (uses : Uses) (r : Region) (order : List NodeId) : Prop where
  users : ∀ v, uses.usersOf v = order.filter fun n => v ∈ r.operands n
  topUsers : ∀ v, (uses.topUsersOf v).Sublist r.body ∧ (uses.topUsersOf v).Nodup ∧
    ∀ t, t ∈ uses.topUsersOf v ↔ t ∈ r.body ∧ r.Mentions t v
  /-- Going up from a node from parent to parent ends where the index says. -/
  top : ∀ n ∈ order, r.Climbs n (r.topLevel n) ∧ uses.top? n = some (r.topLevel n)
  position : ∀ n ∈ order, ∃ i, uses.position? n = some i ∧ r.position? (r.topLevel n) = some i
  unknown : ∀ n, n ∉ order → uses.top? n = none ∧ uses.position? n = none

section Preorder

variable {r : Region} {t : NodeId} {ns : List NodeId}

theorem Region.Forest.preorder_of_inner (forest : r.Forest)
    (known : ∀ n ∈ ns, n.index < r.nodes.size)
    (inner : ∀ n ∈ ns, r.Preorder (r.bodyOf n) ((r.bodyOf n).flatMap r.walk)) :
    r.Preorder ns (ns.flatMap r.walk) := by
  induction ns with
  | nil => exact .nil
  | cons n ns ih =>
    rw [List.flatMap_cons, forest.walk_eq (known n (by simp))]
    exact .cons (inner n (by simp))
      (ih (fun m hm => known m (by simp [hm])) fun m hm => inner m (by simp [hm]))

/-- Walking through a body meets its nodes in pre-order. -/
theorem Region.Forest.preorder_attached (forest : r.Forest) : r.Preorder r.body r.attached := by
  have inner : ∀ n ∈ r.body, r.Preorder (r.bodyOf n) ((r.bodyOf n).flatMap r.walk) := by
    intro n hn
    refine forest.inward (P := fun n => r.Preorder (r.bodyOf n) ((r.bodyOf n).flatMap r.walk))
      (fun t _ inside => ?_) (forest.bodyKnown hn)
    exact forest.preorder_of_inner (fun c hc => forest.childKnown hc) inside
  exact forest.preorder_of_inner (fun n hn => forest.bodyKnown hn) inner

end Preorder

section Users

variable {r : Region} {uses : Uses} {top n : NodeId} {v : ValueId} {ns : List NodeId}

theorem addUser_addUser (n : NodeId) (users : List NodeId) :
    addUser n (addUser n users) = addUser n users := by
  unfold addUser
  by_cases last : users.getLast? = some n <;> simp [last]

theorem addUser_of_notMem (new : n ∉ ns) : addUser n ns = ns ++ [n] := by
  unfold addUser
  rw [if_neg fun last => new (List.mem_of_getLast? last)]

/-- A node is entered once for a value, however often it has it among its operands. -/
theorem Uses.usersOf_visit : (uses.visit r top n).usersOf v =
    if v ∈ r.operands n then addUser n (uses.usersOf v) else uses.usersOf v := by
  have main : ∀ (vs : List ValueId) (users : Table ValueId (List NodeId)),
      ((vs.foldl (fun users w => users.update w fun old => addUser n (old.getD [])) users).get?
        v).getD [] = if v ∈ vs then addUser n ((users.get? v).getD []) else (users.get? v).getD [] := by
    intro vs
    induction vs with
    | nil => simp
    | cons w vs ih =>
      intro users
      rw [List.foldl_cons, ih, Table.get?_update]
      by_cases here : v = w
      · subst here
        by_cases later : v ∈ vs <;> simp [later, addUser_addUser]
      · simp [here]
  exact main (r.operands n) uses.users

/-- Nodes that are met once are entered in the order in which they are met. -/
theorem Uses.usersOf_visits (nodup : ns.Nodup) (new : ∀ n ∈ ns, n ∉ uses.usersOf v) :
    (ns.foldl (visit r top) uses).usersOf v =
      uses.usersOf v ++ ns.filter fun n => v ∈ r.operands n := by
  induction ns generalizing uses with
  | nil => simp
  | cons n ns ih =>
    obtain ⟨fresh, nodup⟩ := List.nodup_cons.mp nodup
    have here : (uses.visit r top n).usersOf v =
        uses.usersOf v ++ [n].filter fun n => v ∈ r.operands n := by
      rw [usersOf_visit, addUser_of_notMem (new n (by simp))]
      by_cases used : v ∈ r.operands n <;> simp [used]
    have later : ∀ m ∈ ns, m ∉ (uses.visit r top n).usersOf v := by
      intro m hm entered
      rw [mem_usersOf_visit] at entered
      rcases entered with old | ⟨-, rfl⟩
      · exact new m (by simp [hm]) old
      · exact fresh hm
    rw [List.foldl_cons, ih nodup later, here, List.append_assoc, ← List.filter_append,
      List.singleton_append]

theorem Uses.usersOf_visitTops {places : List (NodeId × Nat)}
    (nodup : (places.flatMap fun place => r.walk place.1).Nodup)
    (new : ∀ n ∈ places.flatMap (fun place => r.walk place.1), n ∉ uses.usersOf v) :
    (places.foldl (visitTop r) uses).usersOf v = uses.usersOf v ++
      (places.flatMap fun place => r.walk place.1).filter fun n => v ∈ r.operands n := by
  induction places generalizing uses with
  | nil => simp
  | cons place places ih =>
    rw [List.flatMap_cons] at nodup new ⊢
    obtain ⟨first, others, apart⟩ := List.nodup_append.mp nodup
    have here : (uses.visitTop r place).usersOf v =
        uses.usersOf v ++ (r.walk place.1).filter fun n => v ∈ r.operands n :=
      usersOf_visits first fun n hn => new n (List.mem_append_left _ hn)
    have later : ∀ n ∈ places.flatMap (fun place => r.walk place.1),
        n ∉ (uses.visitTop r place).usersOf v := by
      intro n hn entered
      rw [here, List.mem_append] at entered
      rcases entered with old | walked
      · exact new n (List.mem_append_right _ hn) old
      · exact apart n (List.mem_filter.mp walked).1 n hn rfl
    rw [List.foldl_cons, ih others later, here, List.append_assoc, ← List.filter_append]

/-- The users of a value are the attached nodes that have it among their operands. -/
theorem Region.Forest.usersOf_eq (forest : r.Forest) (v : ValueId) :
    r.uses.usersOf v = r.attached.filter fun n => v ∈ r.operands n := by
  have walks : (r.body.zipIdx.flatMap fun place => r.walk place.1) = r.attached := by
    rw [← List.flatMap_map Prod.fst r.walk, List.zipIdx_map_fst]
    rfl
  have none : Uses.empty.usersOf v = [] := rfl
  have entered : r.uses.usersOf v = _ :=
    Uses.usersOf_visitTops (walks ▸ forest.nodup_attached) (by simp [none])
  rwa [walks, none, List.nil_append] at entered

end Users

section Tops

variable {r : Region} {n t : NodeId}

/-- Where each element of a list comes any number of times in its place, each stays at most once. -/
theorem eraseDups_flatMap_sublist {α : Type} [DecidableEq α] {l : List α} (nodup : l.Nodup)
    {f : α → List α} (own : ∀ a ∈ l, ∀ b ∈ f a, b = a) : (l.flatMap f).eraseDups.Sublist l := by
  induction l with
  | nil => simp
  | cons a l ih =>
    obtain ⟨new, nodup⟩ := List.nodup_cons.mp nodup
    have behind : ∀ b ∈ l.flatMap f, b ∉ f a := by
      intro b hb here
      obtain ⟨c, hc, hb⟩ := List.mem_flatMap.mp hb
      rw [← own c (by simp [hc]) b hb, own a (by simp) b here] at hc
      exact new hc
    have rest : (l.flatMap f).removeAll (f a) = l.flatMap f :=
      List.filter_eq_self.mpr fun b hb => by simpa using behind b hb
    have first : (f a).eraseDups.Sublist [a] := by
      cases hf : f a with
      | nil => simp
      | cons b bs =>
        have same : ∀ c ∈ b :: bs, c = a := fun c hc => own a (by simp) c (hf ▸ hc)
        obtain rfl := same b (by simp)
        have others : (bs.filter fun c => !c == b) = [] :=
          List.filter_eq_nil_iff.mpr fun c hc => by simp [same c (by simp [hc])]
        simp [List.eraseDups_cons, others]
    rw [List.flatMap_cons, List.eraseDups_append, rest]
    exact first.append (ih nodup fun c hc => own c (by simp [hc]))

/-- The users at top level come in program order. -/
theorem Region.Forest.topUsersOf_sublist (forest : r.Forest) (v : ValueId) :
    (r.uses.topUsersOf v).Sublist r.body := by
  unfold Uses.topUsersOf
  rw [forest.usersOf_eq, attached, List.filter_flatMap, List.filterMap_flatMap]
  refine eraseDups_flatMap_sublist forest.bodyNodup fun t ht u hu => ?_
  obtain ⟨n, hn, htop⟩ := List.mem_filterMap.mp hu
  have within := (forest.mem_walk (forest.bodyKnown ht)).mp (List.mem_filter.mp hn).1
  exact Option.some.inj (htop.symm.trans (forest.top? ht within))

theorem Region.Forest.position?_eq (forest : r.Forest) (ht : t ∈ r.body) :
    r.position? t = some (r.body.idxOf t) := by
  obtain ⟨before, behind, split⟩ := List.append_of_mem ht
  have first : t ∉ before := by
    have nodup := forest.bodyNodup
    rw [split] at nodup
    exact fun early => (List.nodup_append.mp nodup).2.2 t early t (by simp) rfl
  rw [Region.position?, split, idxOf?_append_cons first, List.idxOf_append_of_notMem first]
  simp

/-- The index of a region agrees with it where its blocks are a forest. -/
theorem Region.Forest.uses_agrees (forest : r.Forest) : r.uses.Agrees r r.attached where
  users := forest.usersOf_eq
  topUsers v := ⟨forest.topUsersOf_sublist v, nodup_eraseDups _, fun _ => forest.mem_topUsersOf⟩
  top n hn := by
    obtain ⟨t, ht, within⟩ := forest.mem_attached.mp hn
    rw [forest.topLevel_eq ht within]
    exact ⟨forest.climbs_of_within (forest.bodyParent ht) within, forest.top? ht within⟩
  position n hn := by
    obtain ⟨t, ht, within⟩ := forest.mem_attached.mp hn
    rw [forest.topLevel_eq ht within, Uses.position?, forest.top? ht within]
    exact ⟨r.body.idxOf t, forest.place ht, forest.position?_eq ht⟩
  unknown n hn := by
    have none : r.uses.top? n = none := by
      by_contra some
      obtain ⟨t, htop⟩ := Option.ne_none_iff_exists'.mp some
      obtain ⟨ht, within⟩ := forest.within_of_top? htop
      exact hn (forest.mem_attached.mpr ⟨t, ht, within⟩)
    exact ⟨none, by rw [Uses.position?, none]; rfl⟩

end Tops

/-- The index of a region that was loaded, and made legal any number of times, agrees with it: the
users of a value are listed in pre-order and each once, those at top level in the order of the body
and each once, and the search for the outermost node around an attached one, which comes to an end,
finds what the index says, at the same place of the body. -/
theorem Region.uses_agree {r : Region} (reachable : r.Reachable) :
    ∃ order, r.Preorder r.body order ∧ order.Nodup ∧ r.body.Nodup ∧ r.uses.Agrees r order := by
  have forest := reachable.wellFormed.toNested.forest
  exact ⟨r.attached, forest.preorder_attached, forest.nodup_attached, forest.bodyNodup,
    forest.uses_agrees⟩

/-- A source text with nested loops whose nodes use two values several times. One of the values
passes a stage on its way into the loops. -/
def nestedUsesSource : String :=
  "func @k(%s: tensor<1xi1>) \x7b
    %a = op \"x\"(%s) : tensor<1xi1>
    %b = op \"x\"(%a) : tensor<1xi1>
    for %i = 0 to 1 \x7b
      op \"y\"(%b, %b)
      for %j = 0 to 1 \x7b
        op \"y\"(%a, %b, %a)
      \x7d
    \x7d
  \x7d"

theorem Region.uses_agree_nested : ∃ loaded r report out order,
    load nestedUsesSource = .ok loaded ∧ r ∈ loaded.regions ∧ r.legalize ⟨true, 1⟩ = .ok (report, out) ∧
    out.body = [⟨0⟩, ⟨1⟩, ⟨6⟩, ⟨2⟩] ∧ out.uses.usersOf ⟨2⟩ = [⟨3⟩, ⟨5⟩] ∧
    out.uses.topUsersOf ⟨2⟩ = [⟨2⟩] ∧ out.uses.usersOf ⟨5⟩ = [⟨5⟩] ∧
    out.Preorder out.body order ∧ order.Nodup ∧ out.body.Nodup ∧ out.uses.Agrees out order := by
  obtain ⟨loaded, hload, r, hr, report, out, hlegal, test⟩ :=
    @exists_of_anyLegalized nestedUsesSource _ (by rfl) ⟨true, 1⟩
      (fun _ out => out.body = [⟨0⟩, ⟨1⟩, ⟨6⟩, ⟨2⟩] && out.uses.usersOf ⟨2⟩ = [⟨3⟩, ⟨5⟩] &&
        out.uses.topUsersOf ⟨2⟩ = [⟨2⟩] && out.uses.usersOf ⟨5⟩ = [⟨5⟩]) (by decide +kernel)
  simp only [Bool.and_eq_true, decide_eq_true_eq, and_assoc] at test
  obtain ⟨body, users, tops, carried⟩ := test
  obtain ⟨order, agree⟩ := Region.uses_agree (.legalize (.load hload hr) hlegal)
  exact ⟨loaded, r, report, out, order, hload, hr, hlegal, body, users, tops, carried, agree⟩

end Staging
