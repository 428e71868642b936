import Staging.Proofs.Altering
import Staging.Proofs.Naming
import Staging.Proofs.Redefining

namespace Staging

/-- A search through the numbers behind a stem, from one of them up to the first with which the stem
is no name that has been given. Nothing bounds it. -/
inductive Search (names : List String) (stem : String) : Nat → Nat → Prop
  | free {n : Nat} (free : stem ++ toString n ∉ names) : Search names stem n n
  | taken {i n : Nat} (taken : stem ++ toString i ∈ names) (rest : Search names stem (i + 1) n) :
    Search names stem i n

/-- What is asked for a new value: some name, or a name that is found by a search. -/
inductive Wish where
  | given (name : String)
  | fresh (stem : String)

/-- A value that is given no name gets one that is found by a search. -/
def Wish.ofName : Option String → Wish
  | some name => .given name
  | none => .fresh valueStem

/-- Names are given one after another, each with regard to those that were given before it. -/
inductive Grants : List String → List Wish → List String → Prop
  | done {names : List String} : Grants names [] names
  | given {names after : List String} {name : String} {wishes : List Wish}
      (rest : Grants (names ++ [name]) wishes after) : Grants names (.given name :: wishes) after
  | fresh {names after : List String} {stem : String} {wishes : List Wish} {n : Nat}
      (search : Search names stem 0 n)
      (rest : Grants (names ++ [stem ++ toString n]) wishes after) :
    Grants names (.fresh stem :: wishes) after

/-- Something is done to a region, with wishes for the names of the values that it creates: one for
each copy where values are carried from stage to stage. -/
inductive Region.Deed (r : Region) : List Wish → Region → Prop
  | addArg (name : String) (type : ValueType) : Deed r [.given name] (r.addArg name type).2
  | addNode (kind : NodeKind) (operands : List ValueId) (results : List (Option String × ValueType))
      (span : Span) :
    Deed r (results.map fun result => .ofName result.1) (r.addNode kind operands results span).2
  | addLoop (iv : Option String) (lower upper : Int) (span : Span) :
    Deed r [.ofName iv] (r.addLoop iv lower upper span).2
  | forward {levels : Levels} {b : Bypasses} {s : Region} {f : Forwarded}
      (h : r.forward levels b = some (s, f)) :
    Deed r (List.replicate f.copies (.fresh forwardStem)) s
  | other {s : Region} (h : s.values = r.values) : Deed r [] s

/-- A region, and all names that were ever given to values of it, in a list of its own. -/
structure Ledger where
  region : Region
  names : List String

/-- What comes of a new region by any number of deeds. -/
inductive Ledger.Kept : Ledger → Prop
  | new (name : String) (span : Span) : Kept ⟨.empty name span, []⟩
  | deed {l : Ledger} {wishes : List Wish} {s : Region} {names : List String} (kept : Kept l)
      (deed : l.region.Deed wishes s) (grants : Grants l.names wishes names) : Kept ⟨s, names⟩

/-- Names are kept, and those that come behind them are different from each other and from these. -/
def Extended (names after : List String) : Prop :=
  ∃ found, after = names ++ found ∧ found.Nodup ∧ ∀ name ∈ found, name ∉ names

/-- Values are carried from stage to stage, or none is created. -/
def Region.Synthesizes (r s : Region) : Prop :=
  (∃ levels b f, r.forward levels b = some (s, f)) ∨ s.values = r.values

section Search

variable {names after final : List String} {stem : String} {wishes more : List Wish} {i n m : Nat}

theorem Search.least (h : Search names stem i n) :
    stem ++ toString n ∉ names ∧ ∀ j, i ≤ j → j < n → stem ++ toString j ∈ names := by
  induction h with
  | free free => exact ⟨free, fun j low high => absurd (low.trans_lt high) (lt_irrefl _)⟩
  | taken taken _ ih =>
    refine ⟨ih.1, fun j low high => ?_⟩
    rcases Nat.eq_or_lt_of_le low with rfl | low
    · exact taken
    · exact ih.2 j low high

theorem Search.unique (h : Search names stem i n) (h' : Search names stem i m) : n = m := by
  induction h with
  | free free =>
    cases h' with
    | free => rfl
    | taken taken => exact absurd taken free
  | taken taken _ ih =>
    cases h' with
    | free free => exact absurd taken free
    | taken _ rest => exact ih rest

theorem Grants.unique (h : Grants names wishes after) (h' : Grants names wishes final) :
    after = final := by
  induction h with
  | done =>
    cases h'
    rfl
  | given _ ih =>
    cases h' with
    | given rest => exact ih rest
  | fresh search _ ih =>
    cases h' with
    | fresh again rest => exact ih (search.unique again ▸ rest)

theorem Grants.append (h : Grants names wishes after) (h' : Grants after more final) :
    Grants names (wishes ++ more) final := by
  induction h with
  | done => exact h'
  | given _ ih => exact .given (ih h')
  | fresh search _ ih => exact .fresh search (ih h')

theorem Extended.refl (names : List String) : Extended names names :=
  ⟨[], (List.append_nil _).symm, .nil, by simp⟩

theorem Extended.trans (h : Extended names after) (h' : Extended after final) :
    Extended names final := by
  obtain ⟨found, rfl, nodup, new⟩ := h
  obtain ⟨more, rfl, nodup', new'⟩ := h'
  simp only [List.mem_append, not_or] at new'
  refine ⟨found ++ more, List.append_assoc .., List.nodup_append'.mpr ⟨nodup, nodup', ?_⟩, ?_⟩
  · exact fun name old again => (new' name again).2 old
  · exact List.forall_mem_append.mpr ⟨new, fun name hname => (new' name hname).1⟩

theorem Search.extended (h : Search names stem 0 n) :
    Extended names (names ++ [stem ++ toString n]) :=
  ⟨_, rfl, List.nodup_singleton _, by simpa using h.least.1⟩

/-- Names that are all found by a search are different from each other, and from those that were
given before. -/
theorem Grants.extended {k : Nat} (h : Grants names (List.replicate k (.fresh stem)) after) :
    Extended names after := by
  induction k generalizing names with
  | zero =>
    cases h
    exact .refl _
  | succ k ih =>
    cases h with
    | fresh search rest => exact search.extended.trans (ih rest)

end Search

section Deeds

variable {r s : Region} {stem : String} {wishes : List Wish}

/-- A bounded search that ends at a free number goes the way of one that nothing bounds. -/
theorem Region.search_freshIndex {fuel n : Nat}
    (free : r.hasName (stem ++ toString (r.freshIndex stem fuel n)) = false) :
    Search r.valueNames stem n (r.freshIndex stem fuel n) := by
  induction fuel generalizing n with
  | zero => exact .free (hasName_iff.not.mp (Bool.eq_false_iff.mp free))
  | succ fuel ih =>
    unfold freshIndex at free ⊢
    split
    next taken =>
      rw [if_pos taken] at free
      exact .taken (hasName_iff.mp taken) (ih free)
    next new => exact .free (hasName_iff.not.mp new)

/-- The search for a name ends, wherever nothing bounds it. -/
theorem Region.search_freshName (r : Region) (stem : String) :
    ∃ n, Search r.valueNames stem 0 n ∧ r.freshName stem = stem ++ toString n :=
  ⟨_, search_freshIndex (r.hasName_freshName stem), rfl⟩

theorem Region.valueNames_addValue (r : Region) (name : Option String) (type : ValueType)
    (definition : Definition) : (r.addValue name type definition).2.valueNames =
      r.valueNames ++ [name.getD (r.freshName valueStem)] := by
  simp [valueNames, addValue]

theorem Region.valueNames_congr (h : s.values = r.values) : s.valueNames = r.valueNames := by
  rw [valueNames, h, valueNames]

theorem Region.addValue_grants (r : Region) (name : Option String) (type : ValueType)
    (definition : Definition) :
    Grants r.valueNames [.ofName name] (r.addValue name type definition).2.valueNames := by
  rw [valueNames_addValue]
  cases name with
  | some name => exact .given .done
  | none =>
    obtain ⟨n, search, found⟩ := r.search_freshName valueStem
    rw [Option.getD_none, found]
    exact .fresh search .done

theorem Region.addResults_grants (r : Region) (n : NodeId) (i : Nat)
    (results : List (Option String × ValueType)) :
    Grants r.valueNames (results.map fun result => .ofName result.1)
      (r.addResults n i results).2.valueNames := by
  induction results generalizing r i with
  | nil => exact .done
  | cons result results ih => exact (r.addValue_grants result.1 result.2 _).append (ih _ (i + 1))

theorem Region.values_of_effect {block : Option NodeId} {n : NodeId} {done : Bool}
    (h : (done = false ∧ s = r) ∨ (done = true ∧ r.Inserts block n s)) : s.values = r.values := by
  rcases h with ⟨-, rfl⟩ | ⟨-, inserts⟩
  · rfl
  · exact inserts.values

theorem Region.valueNames_addNode (r : Region) (kind : NodeKind) (operands : List ValueId)
    (names : List (String × ValueType)) (span : Span) :
    (r.addNode kind operands (names.map fun e => (some e.1, e.2)) span).2.valueNames =
      r.valueNames ++ names.map Prod.fst := by
  have results : (namedResults ⟨r.nodes.size⟩ names).map Value.name = names.map Prod.fst :=
    List.ext_getElem? fun i => by simp [namedResults, Function.comp_def]
  simp [addNode_named, valueNames, extendWith, results]

end Deeds

section Forward

variable {s t : Forwarding} {chain : CopyChain} {type : ValueType} {span : Span}
  {names : List String}

/-- Each copy that has been made so far came with a value whose name was found by a search. -/
def Forwarding.Drawn (names : List String) (s : Forwarding) : Prop :=
  Grants names (List.replicate s.done.copies (.fresh forwardStem)) s.region.valueNames

theorem Forwarding.Drawn.step (drawn : s.Drawn names) (copies : t.done.copies = s.done.copies + 1)
    (found : t.region.valueNames = s.region.valueNames ++ [s.region.freshName forwardStem]) :
    t.Drawn names := by
  obtain ⟨n, search, fresh⟩ := s.region.search_freshName forwardStem
  unfold Drawn
  rw [copies, List.replicate_succ', found, fresh]
  exact drawn.append (.fresh search .done)

theorem Forwarding.addBuffer_names {buffer : ValueId}
    (h : s.addBuffer type span = some (buffer, t)) :
    t.region.valueNames = s.region.valueNames ++ [s.region.freshName forwardStem] ∧
      t.done.copies = s.done.copies := by
  obtain ⟨done, insert, copies⟩ := addBuffer_inv h
  refine ⟨?_, copies⟩
  rw [Region.valueNames_congr (Region.values_of_effect (Region.insertAt_effect insert))]
  exact s.region.valueNames_addNode (.alloc false) [] [(s.region.freshName forwardStem, type)] span

theorem Forwarding.place_names {consumer copy : NodeId} {level : Nat}
    (h : s.place consumer copy level = some t) :
    t.region.valueNames = s.region.valueNames ∧ t.done.copies = s.done.copies + 1 := by
  obtain ⟨done, insert, copies⟩ := place_inv h
  have same := Region.values_of_effect (Region.insertBefore_effect insert)
  exact ⟨Region.valueNames_congr (s := t.region) (r := s.region) same, copies⟩

theorem Forwarding.addCopy_drawn {current last : ValueId} {level : Nat} (drawn : s.Drawn names)
    (h : addCopy chain type span (s, current) level = some (t, last)) : t.Drawn names := by
  rcases addCopy_inv h with ⟨buffer, u, add, place⟩ | place
  · obtain ⟨found, same⟩ := addBuffer_names add
    obtain ⟨kept, more⟩ := place_names place
    refine drawn.step (more.trans (congrArg (· + 1) same)) ?_
    rw [kept, ← found]
    exact (u.region.valueNames_addNode .copy [current, buffer] [] span).trans (List.append_nil _)
  · obtain ⟨kept, more⟩ := place_names place
    refine drawn.step more ?_
    rw [kept]
    exact s.region.valueNames_addNode .copy [current] [(s.region.freshName forwardStem, type)] span

theorem Forwarding.addChain_drawn (drawn : s.Drawn names) (h : s.addChain chain = some t) :
    t.Drawn names := by
  obtain ⟨type, span, u, last, count, links, uses, copies⟩ := addChain_inv h
  have copied : u.Drawn names :=
    foldlM_keeps (P := fun state : Forwarding × ValueId => state.1.Drawn names)
      (fun _ _ _ => addCopy_drawn) drawn links
  unfold Drawn
  rw [Region.valueNames_congr (Region.replaceUses_values uses), copies]
  exact copied

/-- A run that carries values from stage to stage searches a name for each copy. -/
theorem Region.forward_grants {r s : Region} {levels : Levels} {b : Bypasses} {f : Forwarded}
    (h : r.forward levels b = some (s, f)) :
    Grants r.valueNames (List.replicate f.copies (.fresh forwardStem)) s.valueNames := by
  obtain ⟨leveled, state, apply, chains, rfl, rfl⟩ := forward_inv h
  have same : leveled.values = r.values :=
    Levels.applyTo_keeps (P := fun s => s.values = r.values) (r := r.clearLevels) rfl
      (fun _ _ _ same => same) apply
  have start : (Forwarding.start leveled).Drawn r.valueNames := by
    unfold Forwarding.Drawn
    rw [← valueNames_congr same]
    exact .done
  exact foldlM_keeps (P := Forwarding.Drawn r.valueNames) (fun _ _ _ => Forwarding.addChain_drawn)
    start chains

end Forward

/-- The names that come with what is done are those that searches in the given ones would find. -/
theorem Region.Deed.grants {r s : Region} {wishes : List Wish} (h : r.Deed wishes s) :
    Grants r.valueNames wishes s.valueNames := by
  cases h with
  | addArg name type => exact r.addValue_grants (some name) type _
  | addNode kind operands results span => exact r.addResults_grants _ 0 results
  | addLoop iv lower upper span => exact r.addValue_grants iv _ _
  | forward h => exact forward_grants h
  | other h =>
    rw [valueNames_congr h]
    exact .done

/-- The list of names and the values stay in step. -/
theorem Ledger.Kept.names_eq {l : Ledger} (kept : l.Kept) : l.names = l.region.valueNames := by
  induction kept with
  | new name span => rfl
  | deed _ deed grants same => exact (same ▸ grants).unique deed.grants

theorem Region.Synthesizes.extended {r s : Region} (h : r.Synthesizes s) :
    Extended r.valueNames s.valueNames := by
  rcases h with ⟨levels, b, f, h⟩ | same
  · exact (forward_grants h).extended
  · rw [valueNames_congr same]
    exact .refl _

theorem Region.synthesized_extended {r s : Region}
    (h : Relation.ReflTransGen Region.Synthesizes r s) : Extended r.valueNames s.valueNames := by
  induction h with
  | refl => exact .refl _
  | tail _ step ih => exact ih.trans step.extended

/-- A region that can come of deeds, with its own names for the given ones. -/
def Region.Made (r : Region) : Prop :=
  Ledger.Kept ⟨r, r.valueNames⟩

theorem Region.Made.deed {r s : Region} {wishes : List Wish} (made : r.Made)
    (deed : r.Deed wishes s) : s.Made :=
  Ledger.Kept.deed made deed deed.grants

/-- A step of lowering is made up of deeds. -/
def Lower.Makes {α : Type} (x : Lower α) : Prop :=
  ∀ s : Lowering, s.region.Made → (x s).2.region.Made

section Makes

variable {α β : Type} {x : Lower α} {f : α → Lower β}

/-- The region is left as it is, or changed without a new value. -/
theorem Lower.Makes.of_same (h : ∀ s : Lowering, (x s).2.region.values = s.region.values) :
    Lower.Makes x :=
  fun s made => made.deed (.other (h s))

theorem Lower.Makes.of_quiet {P : Region → Scopes → α → Prop}
    (h : ∀ r scopes, Lower.Quiet x r scopes (P r scopes)) : Lower.Makes x := by
  refine .of_same fun s => ?_
  obtain ⟨⟨region, -, -⟩, -⟩ := h s.region s.scopes s rfl rfl
  rw [region]

theorem Lower.Makes.pure (a : α) : Lower.Makes (Pure.pure a) :=
  fun _ made => made

theorem Lower.Makes.bind (hx : Lower.Makes x) (hf : ∀ a, Lower.Makes (f a)) :
    Lower.Makes (x >>= f) :=
  fun s made => hf (x s).1 (x s).2 (hx s made)

end Makes

namespace Lowering

theorem bind_makes (name : Name) (binding : Binding) : Lower.Makes (Lowering.bind name binding) :=
  .of_same fun _ => rfl

theorem bindAll_makes (names : List Name) (vs : List ValueId) : Lower.Makes (bindAll names vs) := by
  induction names generalizing vs with
  | nil => exact .pure ()
  | cons name names ih =>
    cases vs with
    | nil => exact .pure ()
    | cons v vs => exact (bind_makes name (some v)).bind fun _ => ih vs

theorem get_makes : Lower.Makes get :=
  .of_same fun _ => rfl

theorem poison_makes (names : List Name) : Lower.Makes (poison names) := by
  induction names with
  | nil => exact .pure ()
  | cons name names ih =>
    refine get_makes.bind fun s => ?_
    split
    · exact (bind_makes name none).bind fun _ => ih
    · exact ih

theorem report_makes (d : Diagnostic) : Lower.Makes (report d) :=
  .of_same fun _ => rfl

theorem closeScope_makes : Lower.Makes closeScope :=
  .of_same fun _ => rfl

theorem onNode_makes (n : NodeId) (f : Node → Node) : Lower.Makes (onNode n f) := by
  refine .of_same fun s => ?_
  cases hn : s.region.node? n with
  | some node => rw [onNode_eq hn]; rfl
  | none => rw [onNode_eq_none hn]

theorem attach_makes (block : Option NodeId) (n : NodeId) : Lower.Makes (attach block n) := by
  refine .of_same fun s => ?_
  cases h : s.region.append block n with
  | some made =>
    rw [attach_eq h]
    exact Region.values_of_effect (Region.append_effect h)
  | none => rw [attach_eq_none h]

theorem onRegion_makes {α : Type} {f : Region → α × Region} {wishes : List Wish}
    (deed : ∀ r : Region, r.Deed wishes (f r).2) : Lower.Makes (onRegion f) :=
  fun s made => made.deed (deed s.region)

theorem finish_makes (results : List Name) (span : Span) (kind : NodeKind)
    (operands : List ValueId) (types : List ValueType) :
    Lower.Makes (finish results span kind operands types) :=
  (onRegion_makes fun _ => .addNode kind operands _ span).bind fun _ =>
    get_makes.bind fun _ => (bindAll_makes results _).bind fun _ => .pure _

theorem lowerOp_makes (results : List Name) (span : Span) (op : Op) :
    Lower.Makes (lowerOp results span op) := by
  intro s made
  rcases lowerOp_builds s.region s.scopes results span op s rfl rfl with ⟨⟨region, -, -⟩, -⟩ |
    ⟨kind, operands, types, t, -, -, ⟨region, -, -⟩, same⟩
  · rw [region]
    exact made
  · rw [same]
    exact finish_makes results span kind operands types t (region ▸ made)

theorem applyAttrs_makes (n : NodeId) (entries : List AttrEntry) :
    Lower.Makes (applyAttrs n entries) := by
  induction entries with
  | nil => exact .pure ()
  | cons entry entries ih =>
    unfold applyAttrs
    split
    · split
      · split
        · exact (onNode_makes n _).bind fun _ => ih
        · exact (report_makes _).bind fun _ => ih
      · exact (report_makes _).bind fun _ => ih
    · exact (onNode_makes n _).bind fun _ => ih

theorem enterLoop_makes (results : List Name) (iv : Name) (lower upper : Int) (span : Span) :
    Lower.Makes (enterLoop results iv lower upper span) := by
  refine (Lower.Makes.of_quiet fun r scopes => expectResults_quiet results span 0 "loop").bind
    fun given => ?_
  split
  · exact .pure none
  refine (Lower.Makes.of_quiet fun r scopes => checkNew_quiet iv).bind fun new => ?_
  split
  · exact .pure none
  exact get_makes.bind fun _ => (onRegion_makes fun _ => .addLoop (some iv.text) lower upper span).bind
    fun _ => (Lower.Makes.of_same fun _ => rfl).bind fun _ => (bind_makes iv _).bind fun _ => .pure _

mutual

theorem lowerBlock_makes (block : Option NodeId) : ∀ stmts : List Stmt,
    Lower.Makes (lowerBlock block stmts)
  | [] => by
    unfold lowerBlock
    exact .pure ()
  | stmt :: stmts => by
    unfold lowerBlock
    refine (lowerStmt_makes stmt).bind fun made => ?_
    cases made with
    | none => exact lowerBlock_makes block stmts
    | some n => exact (attach_makes block n).bind fun _ => lowerBlock_makes block stmts

theorem lowerStmt_makes : ∀ stmt : Stmt, Lower.Makes (lowerStmt stmt)
  | .op results op attrs span => by
    have settle (made : Option NodeId) : Lower.Makes (do
        match made with
        | some n => applyAttrs n attrs
        | none => poison results
        return made) := by
      cases made with
      | none => exact (poison_makes results).bind fun _ => .pure _
      | some n => exact (applyAttrs_makes n attrs).bind fun _ => .pure _
    unfold lowerStmt
    refine (Lower.Makes.of_quiet fun r scopes => checkAllNew_quiet results).bind fun new => ?_
    cases new with
    | true => exact (lowerOp_makes results span op).bind settle
    | false => exact settle none
  | .loop results iv lower upper body attrs span => by
    have settle (made : Option NodeId) : Lower.Makes (do
        match made with
        | some n =>
          lowerBlock (some n) body
          closeScope
          applyAttrs n attrs
        | none => poison results
        return made) := by
      cases made with
      | none => exact (poison_makes results).bind fun _ => .pure _
      | some n =>
        exact (lowerBlock_makes (some n) body).bind fun _ => closeScope_makes.bind fun _ =>
          (applyAttrs_makes n attrs).bind fun _ => .pure _
    unfold lowerStmt
    refine (Lower.Makes.of_quiet fun r scopes => checkAllNew_quiet results).bind fun new => ?_
    cases new with
    | true => exact (enterLoop_makes results iv lower upper span).bind settle
    | false => exact settle none

end

theorem lowerArgs_makes (args : List ArgDecl) : Lower.Makes (lowerArgs args) := by
  induction args with
  | nil => exact .pure ()
  | cons arg args ih =>
    refine (Lower.Makes.of_quiet fun r scopes => lowerType_quiet arg.type).bind fun type =>
      (Lower.Makes.of_quiet fun r scopes => checkNew_quiet arg.name).bind fun new => ?_
    cases new with
    | false => exact ih
    | true =>
      cases type with
      | none => exact (bind_makes arg.name none).bind fun _ => ih
      | some type =>
        exact (onRegion_makes fun _ => .addArg arg.name.text type).bind fun v =>
          (bind_makes arg.name (some v)).bind fun _ => ih

theorem applyFuncAttrs_makes (entries : List AttrEntry) : Lower.Makes (applyFuncAttrs entries) := by
  induction entries with
  | nil => exact .pure ()
  | cons entry entries ih =>
    unfold applyFuncAttrs
    split
    · split
      · exact (onRegion_makes fun _ => .other rfl).bind fun _ => ih
      · exact (report_makes _).bind fun _ => ih
    · exact (onRegion_makes fun _ => .other rfl).bind fun _ => ih

end Lowering

/-- A loaded region has come of deeds. -/
theorem load_made {source : String} {loaded : Loaded} (h : load source = .ok loaded) :
    ∀ r ∈ loaded.regions, r.Made := by
  intro r hr
  obtain ⟨-, f, -, -, rfl⟩ := func_of_load h hr
  have lowered : Lower.Makes (Lowering.lowerFunc f) :=
    (Lowering.lowerArgs_makes f.args).bind fun _ => (Lowering.applyFuncAttrs_makes f.attrs).bind
      fun _ => Lowering.lowerBlock_makes none f.body
  exact lowered (.start f) (.new f.name.text f.span)

/-- All names that were ever given are still those of the values, each in its place. A search that
nothing bounds ends, and gives the stem with the least number with which it is no name that was ever
given; and so do all searches on the way, whatever is done next. Runs that carry values from stage to
stage, any number of them, keep all names, and give others that differ from these and from each
other. -/
theorem Ledger.Kept.freshName_least {l : Ledger} (kept : l.Kept) :
    l.names = l.region.valueNames ∧
    (∀ stem, ∃ n, Search l.names stem 0 n ∧ l.region.freshName stem = stem ++ toString n ∧
      stem ++ toString n ∉ l.names ∧ ∀ i < n, stem ++ toString i ∈ l.names) ∧
    (∀ wishes s, l.region.Deed wishes s → ∃ names, Grants l.names wishes names) ∧
    ∀ s, Relation.ReflTransGen Region.Synthesizes l.region s → Extended l.names s.valueNames := by
  rw [kept.names_eq]
  refine ⟨rfl, fun stem => ?_, fun wishes s deed => ⟨_, deed.grants⟩, fun s runs =>
    Region.synthesized_extended runs⟩
  obtain ⟨n, search, found⟩ := l.region.search_freshName stem
  obtain ⟨free, taken⟩ := search.least
  exact ⟨n, search, found, free, fun i low => taken i (Nat.zero_le i) low⟩

/-- A source text with names of the kind that searches try. -/
def takenSource : String :=
  "func @k(%fwd0: memref<4xf32>, %v0: i32) \x7b
    %fwd2 = op \"a\"(%fwd0) : memref<4xf32>
    %b = op \"b\"(%fwd2) : tensor<4xf32>
    %c = op \"c\"(%b) : tensor<4xf32>
    op \"d\"(%fwd2, %c)
  \x7d"

theorem Ledger.Kept.freshName_least_taken : ∃ loaded r plan s f, load takenSource = .ok loaded ∧
    r ∈ loaded.regions ∧ Ledger.Kept ⟨r, r.valueNames⟩ ∧ r.valueNames = ["fwd0", "v0", "fwd2", "b", "c"] ∧
    r.plan ⟨true, 1⟩ = .ok plan ∧ r.forward plan.levels plan.bypasses = some (s, f) ∧
    s.valueNames = ["fwd0", "v0", "fwd2", "b", "c", "fwd1", "fwd3"] ∧
    Extended r.valueNames s.valueNames := by
  obtain ⟨loaded, hload, found⟩ := @exists_of_anyLoaded takenSource _ (by rfl)
    (fun regions => regions.any fun r => (r.plan ⟨true, 1⟩).toOption.any fun plan =>
      (r.forward plan.levels plan.bypasses).any fun made =>
        r.valueNames = ["fwd0", "v0", "fwd2", "b", "c"] &&
          made.1.valueNames = ["fwd0", "v0", "fwd2", "b", "c", "fwd1", "fwd3"]) (by decide +kernel)
  obtain ⟨r, hr, found⟩ := List.any_eq_true.mp found
  obtain ⟨plan, planned, found⟩ := (Option.any_eq_true _ _).mp found
  obtain ⟨⟨s, f⟩, forward, found⟩ := (Option.any_eq_true _ _).mp found
  simp only [Bool.and_eq_true, decide_eq_true_eq] at found
  have made : r.Made := load_made hload r hr
  cases hp : r.plan ⟨true, 1⟩ with
  | error stop =>
    rw [hp] at planned
    cases planned
  | ok plan' =>
    rw [hp] at planned
    cases planned
    obtain ⟨-, -, -, runs⟩ := Ledger.Kept.freshName_least made
    exact ⟨loaded, r, plan, s, f, hload, hr, made, found.1, hp, forward, found.2,
      runs s (.single (.inl ⟨_, _, f, forward⟩))⟩

end Staging
