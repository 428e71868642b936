import Staging.Bypass

namespace Staging

/-- Adds a node to the group of its level. -/
def addToGroup (level : Nat) (n : NodeId) : List (Nat × List NodeId) → List (Nat × List NodeId)
  | [] => [(level, [n])]
  | (l, members) :: rest =>
    if level < l then (level, [n]) :: (l, members) :: rest
    else if level = l then (l, members ++ [n]) :: rest
    else (l, members) :: addToGroup level n rest

/-- The nodes of the body by level, lowest level first, each group in program order. -/
def Region.groups (r : Region) : List (Nat × List NodeId) :=
  r.body.foldl (fun groups n =>
    match r.level? n with
    | some level => addToGroup level n groups
    | none => groups) []

/-- Whether one of the values comes from a node of the body that is among `carried`. All values
up to the first that does have to be known. -/
def Region.readsResult (r : Region) (carried : List NodeId) : List ValueId → Option Bool
  | [] => some false
  | v :: vs => do
    let value ← r.value? v
    if value.definition.node?.any fun n => carried.contains (r.topLevel n) then return true
    r.readsResult carried vs

/-- Whether a node, or one nested in it, reads a result of the nodes `carried`. -/
def Region.dependsOn (r : Region) (carried : List NodeId) (n : NodeId) : Option Bool := do
  let reads ← (r.walk n).mapM fun n => r.readsResult carried (r.operands n)
  return reads.any id

/-- Adds a node to those that are carried along, if it is not scheduled and depends on them. -/
def Region.carry (r : Region) (carried : List NodeId) (n : NodeId) : Option (List NodeId) := do
  if (r.level? n).isSome then return carried
  return if ← r.dependsOn carried n then carried ++ [n] else carried

/-- A node with the nodes between it and `anchor` that are not scheduled and depend on it. -/
def Region.carriedBefore (r : Region) (n anchor : NodeId) : Option (List NodeId) :=
  match r.position? n, r.position? anchor with
  | some first, some last => ((r.body.take last).drop (first + 1)).foldlM r.carry [n]
  | _, _ => some [n]

/-- Moves a node in front of another one, and counts the move if it was possible. -/
def countMove (anchor : NodeId) (state : Region × Nat) (n : NodeId) : Option (Region × Nat) := do
  let (r, moved) ← state.1.moveBefore n anchor
  return (r, if moved then state.2 + 1 else state.2)

/-- Moves a node, with all it carries along, in front of the last node of its level. -/
def gatherMember (anchor : NodeId) (state : Region × Nat) (n : NodeId) : Option (Region × Nat) := do
  let carried ← state.1.carriedBefore n anchor
  carried.foldlM (countMove anchor) state

/-- Moves all nodes of a level in front of its last one. -/
def gatherGroup (state : Region × Nat) (group : Nat × List NodeId) : Option (Region × Nat) :=
  match group.2.getLast? with
  | some anchor => group.2.dropLast.foldlM (gatherMember anchor) state
  | none => some state

/-- Brings the nodes of each level together, and counts the moves. -/
def Region.gather (r : Region) : Option (Region × Nat) :=
  r.groups.foldlM gatherGroup (r, 0)

/-- A walk up the levels: the stage it is in, and how many levels are still to go into it. -/
structure StageWalk where
  stage : Nat
  countdown : Nat
deriving DecidableEq

/-- How many levels are left for a stage behind `level`: one less than before, but enough for
all levels that are merged with this one. -/
def StageWalk.left (w : StageWalk) (merges : List (Nat × Nat)) (level : Nat) : Nat :=
  match merges.lookup level with
  | some upper => max (w.countdown - 1) (upper - level)
  | none => w.countdown - 1

/-- Goes on behind a level. -/
def StageWalk.next (w : StageWalk) (merges : List (Nat × Nat)) (gran level : Nat) : StageWalk :=
  if w.left merges level = 0 then ⟨w.stage + 1, gran⟩
  else ⟨w.stage, w.left merges level⟩

/-- The stages of `count` levels from `level` on. -/
def stagesFrom (merges : List (Nat × Nat)) (gran : Nat) : Nat → Nat → StageWalk → List Nat
  | 0, _, _ => []
  | count + 1, level, w =>
    w.stage :: stagesFrom merges gran count (level + 1) (w.next merges gran level)

/-- The stage of each level from 0 to `top`; level 0 belongs to none. A stage takes in at least
`gran` levels, and all levels that are merged with one of its own. -/
def stageMap (top : Nat) (merges : List (Nat × Nat)) (gran : Nat) : List Nat :=
  let gran := max gran 1
  0 :: stagesFrom merges gran top 1 ⟨1, gran⟩

/-- The levels of the body in program order. -/
def Region.bodyLevels (r : Region) : List Nat :=
  r.body.filterMap r.level?

/-- The highest level of the body. -/
def Region.topStage (r : Region) : Nat :=
  maxOf r.bodyLevels

/-- Puts a node into the stage of its level. -/
def Region.restageNode (stages : List Nat) (r : Region) (n : NodeId) : Region :=
  match r.level? n with
  | some level => r.setLevel n stages[level]?
  | none => r

/-- Folds the levels of the body into stages, and counts the stages. -/
def Region.restage (r : Region) (merges : List (Nat × Nat)) (gran : Nat) : Region × Nat :=
  let stages := stageMap r.topStage merges gran
  (r.body.foldl (Region.restageNode stages) r, stages.getLast?.getD 0)

/-- What was done to bring the nodes of a stage together. -/
structure Compacted where
  moved : Nat
  stages : Nat
deriving DecidableEq

/-- Brings the nodes of each level together, folds levels into stages where the options ask for
it, and marks the region as legal. -/
def Region.compact (r : Region) (b : Bypasses) (o : Options) : Option (Region × Compacted) := do
  let (r, moved) ← r.gather
  let (r, stages) := if o.renumbers then r.restage b.merges o.minGran else (r, r.topStage)
  return ({ r with dataflow := true }, ⟨moved, stages⟩)

end Staging
