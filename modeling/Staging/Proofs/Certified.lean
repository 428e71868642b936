import Staging.Proofs.Legal
import Staging.Proofs.Lowered

namespace Staging

/-- Levels that come with all lower ones are contiguous. -/
theorem isContiguous_of_downward {levels : List Nat}
    (down : ∀ l ∈ levels, ∀ k, 1 ≤ k → k ≤ l → k ∈ levels) (pos : ∀ l ∈ levels, 1 ≤ l) :
    isContiguous levels = true := by
  unfold isContiguous
  simp only [List.all_eq_true, List.mem_range, List.contains_iff_mem, List.mem_eraseDups]
  intro i hi
  by_contra missing
  have low : ∀ l ∈ levels.eraseDups, l ∈ List.range' 1 i := by
    intro l hl
    have hl := List.mem_eraseDups.mp hl
    have hpos := pos l hl
    have hle : l < i + 1 := by
      by_contra high
      exact missing (down l hl (i + 1) (by omega) (by omega))
    rw [List.mem_range'_1]
    omega
  have bound := ((nodup_eraseDups levels).subperm low).length_le
  rw [List.length_range'] at bound
  omega

theorem neverRises_of_pairwise {levels : List Nat} (h : levels.Pairwise fun a b => b ≤ a) :
    neverRises levels = true := by
  induction levels with
  | nil => rfl
  | cons a rest ih =>
    obtain ⟨first, rest'⟩ := List.pairwise_cons.mp h
    cases rest with
    | nil => rfl
    | cons b rest =>
      have step := first b (by simp)
      simp only [neverRises, step, decide_true, Bool.true_and]
      exact ih rest'

theorem Region.Reachable.wellFormed {r : Region} (h : r.Reachable) : r.WellFormed := by
  induction h with
  | load h hr => exact load_wellFormed h _ hr
  | legalize _ h ih =>
    obtain ⟨_, _, _, _, _, legal⟩ := ih.legalize h
    exact legal.wellFormed

/-- What becomes of a region when its plan is carried out. -/
def Region.carryOut (r : Region) (o : Options) : Option Region :=
  match r.plan o with
  | .ok plan => do
    let (s, _) ← r.forward plan.levels plan.bypasses
    let (out, _) ← s.compact plan.bypasses o
    return out
  | .error _ => none

theorem Region.WellFormed.legalize_of_carryOut {r out : Region} (wf : r.WellFormed) {o : Options}
    (h : r.carryOut o = some out) : ∃ report, r.legalize o = .ok (report, out) := by
  unfold carryOut at h
  split at h
  next plan hplan =>
    obtain ⟨s, built, out', c, report, hforward, hcompact, hlegal, _⟩ := wf.legalize_of_plan hplan
    simp only [hforward, hcompact, bind, Option.bind, pure, Option.some.injEq] at h
    exact ⟨report, h ▸ hlegal⟩
  next => cases h

/-- Whether a test holds of some region of the source text of some characters and of what becomes
of it. -/
def anyLegalized (cs : List Char) (o : Options) (test : Region → Region → Bool) : Bool :=
  match loadChars cs with
  | .ok loaded => loaded.regions.any fun r => (r.carryOut o).any (test r)
  | .error _ => false

theorem exists_of_anyLegalized {source : String} {cs : List Char} (spelled : source = .ofList cs)
    {o : Options} {test : Region → Region → Bool} (h : anyLegalized cs o test = true) :
    ∃ loaded, load source = .ok loaded ∧
      ∃ r ∈ loaded.regions, ∃ report out, r.legalize o = .ok (report, out) ∧
        test r out = true := by
  unfold anyLegalized at h
  split at h
  next loaded hload =>
    replace hload := (load_eq_loadChars spelled).trans hload
    obtain ⟨r, hr, h⟩ := List.any_eq_true.mp h
    obtain ⟨out, hout, htest⟩ := (Option.any_eq_true _ _).mp h
    obtain ⟨report, hlegal⟩ := (load_wellFormed hload r hr).legalize_of_carryOut hout
    exact ⟨loaded, hload, r, hr, report, out, hlegal, htest⟩
  next => cases h

section Legalized

variable {r out : Region} {o : Options} {plan : Plan} {built : List BuiltChain} {s : Forwarding}

theorem Region.Legalized.allLeveled (h : r.Legalized o plan built s out) :
    (out.certify o).allLeveled = true := by
  refine List.all_eq_true.mpr fun n hn => ?_
  obtain ⟨hn, flow⟩ := List.mem_filter.mp hn
  exact (h.leveled_iff hn).mpr flow

/-- The stages of the body are positive numbers, each of which comes with all lower ones. -/
theorem Region.Legalized.stages_downward (h : r.Legalized o plan built s out) {stage : Nat}
    (hs : stage ∈ out.bodyLevels) :
    1 ≤ stage ∧ ∀ k, 1 ≤ k → k ≤ stage → k ∈ out.bodyLevels := by
  obtain ⟨n, hn, hl⟩ := List.mem_filterMap.mp hs
  obtain ⟨level, hlevel, one, rfl⟩ := h.level_eq_some hn hl
  refine ⟨o.one_le_stageOf plan.bypasses.merges one, fun k pos hle => ?_⟩
  obtain ⟨l, hl, hle', rfl⟩ := o.exists_stageOf_eq plan.bypasses.merges one pos hle
  have old := h.mem_body.mp hn
  obtain ⟨x, hx, hlx⟩ : ∃ x ∈ s.region.body, s.region.level? x = some l := by
    rcases Nat.eq_or_lt_of_le hle' with rfl | hlt
    · exact ⟨n, old, hlevel⟩
    · obtain ⟨x, hx, hlx⟩ := h.threaded.descends_to old hlevel hl hlt
      exact ⟨x, hx.mem_right, hlx⟩
  have hx' := h.mem_body.mpr hx
  exact List.mem_filterMap.mpr ⟨x, hx', by rw [h.level x hx', hlx]; rfl⟩

/-- The stages of the body are all numbers from 1 to the highest. -/
theorem Region.Legalized.contiguous (h : r.Legalized o plan built s out) :
    isContiguous out.bodyLevels = true :=
  isContiguous_of_downward (fun _ hs => (h.stages_downward hs).2)
    fun _ hs => (h.stages_downward hs).1

/-- The stages never rise along the body. -/
theorem Region.Legalized.grouped (h : r.Legalized o plan built s out) :
    neverRises out.bodyLevels = true := by
  refine neverRises_of_pairwise (List.pairwise_filterMap.mpr (pairwise_iff_before.mpr ?_))
  intro x y hxy a ha b hb
  obtain ⟨lx, hlx, _, rfl⟩ := h.level_eq_some hxy.mem_left ha
  obtain ⟨ly, hly, pos, rfl⟩ := h.level_eq_some hxy.mem_right hb
  exact o.stageOf_mono plan.bypasses.merges pos (h.gathered.sorted x y lx ly hxy hlx hly)

end Legalized

/-- A region that was made legal has all it needs of a certificate, up to stages that an edge
skips: every scheduled node has a stage, the stages are the numbers from 1 on, they never rise
along the body, operands are defined before their use, and the region is marked. -/
theorem legalize_certified {r out : Region} {o : Options} {report : Report}
    (reachable : r.Reachable) (h : r.legalize o = .ok (report, out)) :
    (out.certify o).allLeveled = true ∧ (out.certify o).contiguous = true ∧
      (out.certify o).grouped = true ∧ (out.certify o).defsBeforeUses = true ∧
      (out.certify o).marked = true := by
  obtain ⟨_, _, _, _, _, legal⟩ := reachable.wellFormed.legalize h
  exact ⟨legal.allLeveled, legal.contiguous, legal.grouped, legal.wellFormed.defsBeforeUses,
    legal.marked⟩

/-- A source text with an edge that skips a stage. -/
def skippingSource : String :=
  "func @k(%s: tensor<1xi1>) \x7b
    %a = op \"x\"(%s) : tensor<1xi1>
    %b = op \"x\"(%a) : tensor<1xi1>
    op \"x\"(%a, %b)
  \x7d"

theorem legalize_certified_forwarded : ∃ loaded r report out,
    load skippingSource = .ok loaded ∧ r ∈ loaded.regions ∧ r.legalize ⟨true, 1⟩ = .ok (report, out) ∧
    r.body.length < out.body.length ∧
    (out.certify ⟨true, 1⟩).allLeveled = true ∧ (out.certify ⟨true, 1⟩).contiguous = true ∧
      (out.certify ⟨true, 1⟩).grouped = true ∧ (out.certify ⟨true, 1⟩).defsBeforeUses = true ∧
      (out.certify ⟨true, 1⟩).marked = true := by
  obtain ⟨loaded, hload, r, hr, report, out, hlegal, more⟩ :=
    @exists_of_anyLegalized skippingSource _ (by rfl) ⟨true, 1⟩
      (fun r out => r.body.length < out.body.length) (by decide +kernel)
  exact ⟨loaded, r, report, out, hload, hr, hlegal, of_decide_eq_true more,
    legalize_certified (.load hload hr) hlegal⟩

end Staging
