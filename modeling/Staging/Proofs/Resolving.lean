import Staging.Proofs.Steps

namespace Staging

/-- The node that an operation stands for, by its kind, its operands and the types of its results,
where its names are in scope and its types are known. -/
inductive Op.Makes (r : Region) (scopes : Scopes) :
    Op → NodeKind → List ValueId → List ValueType → Prop
  | alloc {stack : Bool} {type : TypeExpr} {t : ValueType} (named : type.valueType? = some t)
      (memref : t.isMemref = true) : Makes r scopes (.alloc stack type) (.alloc stack) [] [t]
  | constant {value : Int} {type : TypeExpr} {t : ValueType} (named : type.valueType? = some t) :
      Makes r scopes (.constant value type) (.constant value) [] [t]
  | convert {conversion : Conversion} {operand : Name} {type : TypeExpr} {v : ValueId}
      {t : ValueType} (found : scopes.find? operand.text = some v)
      (named : type.valueType? = some t) :
      Makes r scopes (.convert conversion operand type) (.convert conversion) [v] [t]
  | ret {operands : List Name} {vs : List ValueId}
      (found : operands.mapM (fun name => scopes.find? name.text) = some vs) :
      Makes r scopes (.ret operands) .ret vs []
  | compute {name : String} {operands : List Name} {types : List TypeExpr} {vs : List ValueId}
      {ts : List ValueType}
      (found : operands.mapM (fun name => scopes.find? name.text) = some vs)
      (named : types.mapM TypeExpr.valueType? = some ts) :
      Makes r scopes (.compute name operands types) (.compute name) vs ts
  | load {memref : Name} {type : TypeExpr} {mem : ValueId} {t : ValueType}
      (found : scopes.find? memref.text = some mem) (named : type.valueType? = some t)
      (buffer : r.isMemref mem = true) : Makes r scopes (.load memref type) .load [mem] [t]
  | store {value memref : Name} {v mem : ValueId} (foundValue : scopes.find? value.text = some v)
      (found : scopes.find? memref.text = some mem) (buffer : r.isMemref mem = true) :
      Makes r scopes (.store value memref) .store [v, mem] []
  | copyInto {source target : Name} {type : Option TypeExpr} {src dst : ValueId}
      (foundSource : scopes.find? source.text = some src)
      (foundTarget : scopes.find? target.text = some dst) (bufferSource : r.isMemref src = true)
      (bufferTarget : r.isMemref dst = true) :
      Makes r scopes (.copy [source, target] type) .copy [src, dst] []
  | copyNew {source : Name} {type : Option TypeExpr} {src : ValueId} {t : ValueType}
      (found : scopes.find? source.text = some src)
      (named : Lowering.copiedType? r src type = some t) :
      Makes r scopes (.copy [source] type) .copy [src] [t]

section Makes

variable {r : Region} {scopes : Scopes} {op : Op} {kind : NodeKind} {operands : List ValueId}
  {types : List ValueType}

theorem Op.Makes.noLoop (h : op.Makes r scopes kind operands types) : kind.isLoop = false := by
  cases h <;> rfl

theorem Op.Makes.fits (h : op.Makes r scopes kind operands types) :
    kind.Fits operands.length types.length := by
  cases h with
  | copyInto => exact Or.inl ⟨rfl, rfl⟩
  | copyNew => exact Or.inr ⟨rfl, rfl⟩
  | _ => simp [NodeKind.Fits]

theorem mem_of_mapM {α β : Type} {f : α → Option β} {as : List α} {bs : List β}
    (h : as.mapM f = some bs) : ∀ b ∈ bs, ∃ a ∈ as, f a = some b := by
  induction as generalizing bs with
  | nil =>
    obtain rfl : [] = bs := Option.some.inj h
    simp
  | cons a as ih =>
    simp only [List.mapM_cons, Option.bind_eq_bind, Option.bind_eq_some_iff] at h
    obtain ⟨first, hfirst, rest, hrest, h⟩ := h
    obtain rfl : first :: rest = bs := Option.some.inj h
    intro b hb
    rcases List.mem_cons.mp hb with rfl | hb
    · exact ⟨a, by simp, hfirst⟩
    · obtain ⟨c, hc, hf⟩ := ih hrest b hb
      exact ⟨c, by simp [hc], hf⟩

/-- Operands are values that a name in scope stands for. -/
theorem Op.Makes.found (h : op.Makes r scopes kind operands types) :
    ∀ v ∈ operands, ∃ name, scopes.find? name = some v := by
  have each {names : List Name} {vs : List ValueId}
      (found : names.mapM (fun name => scopes.find? name.text) = some vs) :
      ∀ v ∈ vs, ∃ name, scopes.find? name = some v := fun v hv => by
    obtain ⟨name, -, hname⟩ := mem_of_mapM found v hv
    exact ⟨name.text, hname⟩
  cases h with
  | alloc | constant => simp
  | convert found | load found | copyNew found => simpa using ⟨_, found⟩
  | ret found | compute found => exact each found
  | store first second | copyInto first second => simpa using ⟨⟨_, first⟩, _, second⟩

/-- The buffers that a node accesses are memrefs. -/
theorem Op.Makes.buffers (h : op.Makes r scopes kind operands types) {s : Region} {n : NodeId}
    (hk : s.kind? n = some kind) (ho : s.operands n = operands) {mem : ValueId}
    {access : AccessKind} (touched : (mem, access) ∈ s.touched n) : r.isMemref mem = true := by
  cases h with
  | load _ _ buffer =>
    obtain ⟨rfl, -⟩ : mem = _ ∧ _ := by simpa [Region.touched, hk, ho] using touched
    exact buffer
  | store _ _ buffer =>
    obtain ⟨rfl, -⟩ : mem = _ ∧ _ := by simpa [Region.touched, hk, ho] using touched
    exact buffer
  | copyInto _ _ source target =>
    rcases (by simpa [Region.touched, hk, ho] using touched : mem = _ ∧ _ ∨ mem = _ ∧ _) with
      ⟨rfl, -⟩ | ⟨rfl, -⟩
    · exact source
    · exact target
  | _ => simp [Region.touched, hk, ho] at touched

/-- Allocations make memrefs. -/
theorem Op.Makes.memrefs (h : op.Makes r scopes kind operands types) (stack : Bool)
    (alloc : kind = .alloc stack) : ∀ t ∈ types, t.isMemref = true := by
  cases h with
  | alloc _ memref => simpa using memref
  | _ => cases alloc

end Makes

namespace Lowering

variable {r : Region} {scopes : Scopes} {results : List Name} {span : Span}

/-- A step gives nothing and changes nothing but the diagnostics, or it creates the node of a
statement as one of those that `M` allows. -/
def Builds (results : List Name) (span : Span) (r : Region) (scopes : Scopes)
    (M : NodeKind → List ValueId → List ValueType → Prop) (x : Lower (Option NodeId)) : Prop :=
  ∀ s : Lowering, s.region = r → s.scopes = scopes → (s.Agrees (x s).2 ∧ (x s).1 = none) ∨
    ∃ kind operands types t, M kind operands types ∧ results.length = types.length ∧
      s.Agrees t ∧ x s = finish results span kind operands types t

section Builds

variable {M : NodeKind → List ValueId → List ValueType → Prop}

theorem Builds.stop : Builds results span r scopes M (pure none) :=
  fun _ _ _ => Or.inl ⟨⟨rfl, rfl, rfl⟩, rfl⟩

theorem Builds.finish {kind : NodeKind} {operands : List ValueId} {types : List ValueType}
    (h : M kind operands types) (count : results.length = types.length) :
    Builds results span r scopes M (Lowering.finish results span kind operands types) :=
  fun s _ _ => Or.inr ⟨kind, operands, types, s, h, count, ⟨rfl, rfl, rfl⟩, rfl⟩

theorem Builds.bind {α : Type} {x : Lower α} {f : α → Lower (Option NodeId)} {P : α → Prop}
    (hx : Lower.Quiet x r scopes P) (hf : ∀ a, P a → Builds results span r scopes M (f a)) :
    Builds results span r scopes M (x >>= f) := by
  intro s hr hs
  obtain ⟨⟨region, names, sites⟩, ha⟩ := hx s hr hs
  rcases hf _ ha _ (region.trans hr) (names.trans hs) with
    ⟨⟨region', names', sites'⟩, none⟩ |
      ⟨kind, operands, types, t, h, count, ⟨region', names', sites'⟩, same⟩
  · exact Or.inl ⟨⟨region'.trans region, names'.trans names, sites'.trans sites⟩, none⟩
  · exact Or.inr ⟨kind, operands, types, t, h, count,
      ⟨region'.trans region, names'.trans names, sites'.trans sites⟩, same⟩

theorem Builds.guard {b : Bool} {x : Lower (Option NodeId)}
    (go : b = true → Builds results span r scopes M x) :
    Builds results span r scopes M (if (!b) = true then pure none else x) := by
  cases b with
  | true => exact go rfl
  | false => exact Builds.stop

/-- The last check counts the results. -/
theorem Builds.counted {kind : NodeKind} {operands : List ValueId} {types : List ValueType}
    (h : M kind operands types) {expected : Nat} (count : types.length = expected)
    (what : String) : Builds results span r scopes M (do
      if !(← expectResults results span expected what) then return none
      Lowering.finish results span kind operands types) :=
  Builds.bind (expectResults_quiet results span expected what) fun _ given =>
    Builds.guard fun ok => Builds.finish h ((given ok).trans count.symm)

end Builds

/-- An operation that is lowered at all is lowered to what it stands for. -/
theorem lowerOp_builds (r : Region) (scopes : Scopes) (results : List Name) (span : Span) (op : Op) :
    Builds results span r scopes (op.Makes r scopes) (lowerOp results span op) := by
  cases op with
  | alloc stack type =>
    refine Builds.bind (lowerType_quiet type) fun found named => ?_
    cases found with
    | none => exact Builds.stop
    | some t =>
      simp only
      split
      · exact Builds.bind (report_quiet _) fun _ _ => Builds.stop
      next memref => exact Builds.counted (Op.Makes.alloc named.symm (by simpa using memref)) rfl _
  | constant value type =>
    refine Builds.bind (lowerType_quiet type) fun found named => ?_
    cases found with
    | none => exact Builds.stop
    | some t => exact Builds.counted (Op.Makes.constant named.symm) rfl _
  | convert conversion operand type =>
    refine Builds.bind (lowerType_quiet type) fun type' named =>
      Builds.bind (lookUp_quiet operand) fun operand' found => ?_
    cases type' with
    | none => exact Builds.stop
    | some t =>
    cases operand' with
    | none => exact Builds.stop
    | some v => exact Builds.counted (Op.Makes.convert found.symm named.symm) rfl _
  | ret operands =>
    refine Builds.bind (lookUpAll_quiet operands) fun values found => ?_
    cases values with
    | none => exact Builds.stop
    | some vs => exact Builds.counted (Op.Makes.ret found.symm) rfl _
  | compute name operands types =>
    refine Builds.bind (lookUpAll_quiet operands) fun values found =>
      Builds.bind (mapM_quiet lowerType_quiet types) fun types' named => ?_
    cases values with
    | none => exact Builds.stop
    | some vs =>
    rw [named, mapM_map_id]
    cases known : types.mapM TypeExpr.valueType? with
    | none => exact Builds.stop
    | some ts => exact Builds.counted (Op.Makes.compute found.symm known) rfl _
  | load memref type =>
    refine Builds.bind (lowerType_quiet type) fun type' named =>
      Builds.bind (lookUp_quiet memref) fun mem found => ?_
    cases type' with
    | none => exact Builds.stop
    | some t =>
    cases mem with
    | none => exact Builds.stop
    | some mem =>
      refine Builds.bind (requireMemref_quiet mem memref "load") fun _ buffer =>
        Builds.guard fun ok => ?_
      exact Builds.counted (Op.Makes.load found.symm named.symm (buffer ok)) rfl _
  | store value memref =>
    refine Builds.bind (lookUp_quiet value) fun v foundValue =>
      Builds.bind (lookUp_quiet memref) fun mem found => ?_
    cases v with
    | none => exact Builds.stop
    | some v =>
    cases mem with
    | none => exact Builds.stop
    | some mem =>
      refine Builds.bind (requireMemref_quiet mem memref "store") fun _ buffer =>
        Builds.guard fun ok => ?_
      exact Builds.counted (Op.Makes.store foundValue.symm found.symm (buffer ok)) rfl _
  | copy operands type =>
    refine Builds.bind (lookUpAll_quiet operands) fun values found => ?_
    cases values with
    | none => exact Builds.stop
    | some values =>
      simp only
      split
      next source target src dst =>
        obtain ⟨foundSource, foundTarget⟩ : scopes.find? source.text = some src ∧
            scopes.find? target.text = some dst := by
          simpa [Option.bind_eq_some_iff] using found.symm
        refine Builds.bind (requireMemref_quiet src source "copy source") fun _ first =>
          Builds.bind (requireMemref_quiet dst target "copy target") fun _ second =>
            Builds.guard fun ok => ?_
        obtain ⟨hsource, htarget⟩ := Bool.and_eq_true_iff.mp ok
        exact Builds.counted (Op.Makes.copyInto foundSource foundTarget (first hsource) (second htarget))
          rfl _
      next source src =>
        have foundSource : scopes.find? source.text = some src := by
          simpa [Option.bind_eq_some_iff] using found.symm
        refine Builds.bind (copyType_quiet src type) fun found named => ?_
        cases found with
        | none => exact Builds.stop
        | some t => exact Builds.counted (Op.Makes.copyNew foundSource named.symm) rfl _
      next => exact Builds.stop

section Exact

variable {s t : Lowering}

theorem bind_run {α β : Type} {x : Lower α} {f : α → Lower β} {a : α} (h : x s = (a, t)) :
    (x >>= f) s = f a t := by
  change f (x s).1 (x s).2 = f a t
  rw [h]

theorem get_run (s : Lowering) : (get : Lower Lowering) s = (s, s) :=
  rfl

theorem lowerType_eq {type : TypeExpr} {t : ValueType} (h : type.valueType? = some t) :
    lowerType type s = (some t, s) := by
  cases type <;>
  · simp only [TypeExpr.valueType?] at h
    split at h
    next known =>
      cases h
      simp only [lowerType, if_pos known]
      rfl
    next => cases h

theorem lookUp_eq {name : Name} {v : ValueId} (h : Scopes.find? s.scopes name.text = some v) :
    lookUp name s = (some v, s) := by
  have found := Option.join_eq_some_iff.mp h
  unfold lookUp
  rw [bind_run (get_run s), found]
  rfl

/-- Steps that find one thing each and change nothing. -/
theorem mapM_eq {α β : Type} {step : α → Lower (Option β)} {find : α → Option β}
    (each : ∀ a b, find a = some b → step a s = (some b, s)) {as : List α} {bs : List β}
    (h : as.mapM find = some bs) : ∃ found, as.mapM step s = (found, s) ∧
      found.mapM id = some bs := by
  induction as generalizing bs with
  | nil => exact ⟨[], rfl, h⟩
  | cons a as ih =>
    simp only [List.mapM_cons, Option.bind_eq_bind, Option.bind_eq_some_iff] at h
    obtain ⟨b, hb, rest, hrest, h⟩ := h
    obtain rfl : b :: rest = bs := Option.some.inj h
    obtain ⟨found, hfound, values⟩ := ih hrest
    refine ⟨some b :: found, ?_, by simp [values]⟩
    rw [List.mapM_cons, bind_run (each a b hb), bind_run hfound]
    rfl

theorem lookUpAll_eq {names : List Name} {vs : List ValueId}
    (h : names.mapM (fun name => Scopes.find? s.scopes name.text) = some vs) :
    lookUpAll names s = (some vs, s) := by
  obtain ⟨found, hfound, values⟩ := mapM_eq (fun _ _ => lookUp_eq) h
  unfold lookUpAll
  rw [bind_run hfound, values]
  rfl

theorem expectResults_eq {results : List Name} {expected : Nat} (h : results.length = expected)
    (span : Span) (what : String) : expectResults results span expected what s = (true, s) := by
  simp only [expectResults, if_pos h]
  rfl

theorem requireMemref_eq {v : ValueId} (h : s.region.isMemref v = true) (name : Name)
    (what : String) : requireMemref v name what s = (true, s) := by
  unfold requireMemref
  rw [bind_run (get_run s)]
  unfold Region.isMemref at h
  cases hv : s.region.value? v with
  | none => simp [hv] at h
  | some value =>
    have memref : value.type.isMemref = true := by simpa [hv] using h
    simp only [memref]
    rfl

theorem pass_eq {α : Type} {x : Lower Bool} (h : x s = (true, s)) (y : Lower (Option α)) :
    (do
      if !(← x) then return none
      y) s = y s := by
  rw [bind_run h]
  rfl

theorem copyType_eq {source : ValueId} {type : Option TypeExpr} {t : ValueType}
    (h : copiedType? s.region source type = some t) : copyType source type s = (some t, s) := by
  cases type with
  | some type => exact lowerType_eq h
  | none =>
    obtain ⟨value, hv, rfl⟩ := Option.map_eq_some_iff.mp h
    simp only [copyType]
    rw [bind_run (get_run s), hv]
    rfl

/-- An operation whose names are in scope is lowered to what it stands for. -/
theorem lowerOp_eq {results : List Name} {span : Span} {op : Op} {kind : NodeKind}
    {operands : List ValueId} {types : List ValueType}
    (h : op.Makes s.region s.scopes kind operands types) (count : results.length = types.length) :
    lowerOp results span op s = finish results span kind operands types s := by
  have counted {expected : Nat} (h : types.length = expected) (what : String) :=
    expectResults_eq (s := s) (count.trans h) span what
  cases h <;> simp only [lowerOp]
  case alloc named memref =>
    rw [bind_run (lowerType_eq named)]
    simp only [memref, Bool.not_true, Bool.false_eq_true, if_false]
    exact pass_eq (counted rfl _) _
  case constant named =>
    rw [bind_run (lowerType_eq named)]
    exact pass_eq (counted rfl _) _
  case convert found named =>
    rw [bind_run (lowerType_eq named), bind_run (lookUp_eq found)]
    exact pass_eq (counted rfl _) _
  case ret found =>
    rw [bind_run (lookUpAll_eq found)]
    exact pass_eq (counted rfl _) _
  case compute found named =>
    obtain ⟨types', htypes, values⟩ := mapM_eq (fun _ _ => lowerType_eq) named
    rw [bind_run (lookUpAll_eq found), bind_run htypes]
    simp only [values]
    exact pass_eq (counted rfl _) _
  case load found named buffer =>
    rw [bind_run (lowerType_eq named), bind_run (lookUp_eq found)]
    exact (pass_eq (requireMemref_eq buffer _ _) _).trans (pass_eq (counted rfl _) _)
  case store foundValue found buffer =>
    rw [bind_run (lookUp_eq foundValue), bind_run (lookUp_eq found)]
    exact (pass_eq (requireMemref_eq buffer _ _) _).trans (pass_eq (counted rfl _) _)
  case copyInto source target type src dst foundSource foundTarget bufferSource bufferTarget =>
    have found : [source, target].mapM (fun name => Scopes.find? s.scopes name.text) =
        some [src, dst] := by simp [foundSource, foundTarget]
    rw [bind_run (lookUpAll_eq found)]
    simp only
    rw [bind_run (requireMemref_eq bufferSource _ _), bind_run (requireMemref_eq bufferTarget _ _)]
    exact pass_eq (counted rfl _) _
  case copyNew source type src t found named =>
    have found : [source].mapM (fun name => Scopes.find? s.scopes name.text) = some [src] := by
      simp [found]
    rw [bind_run (lookUpAll_eq found)]
    simp only
    rw [bind_run (copyType_eq named)]
    exact pass_eq (counted rfl _) _

end Exact

end Lowering

end Staging
