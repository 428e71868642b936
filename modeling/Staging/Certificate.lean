import Staging.Dependence
import Staging.Options
import Staging.Stages

namespace Staging

/-- What holds of a region that is legal as a pipeline. -/
structure Certificate where
  /-- Every scheduled node of the body has a level. -/
  allLeveled : Bool
  /-- The levels are all numbers from 1 to the highest. -/
  contiguous : Bool
  /-- No edge skips a stage or goes up. -/
  noSkippedStage : Bool
  /-- The levels never rise along the body. -/
  grouped : Bool
  /-- Every operand is defined before its use. -/
  defsBeforeUses : Bool
  marked : Bool
deriving DecidableEq

def Certificate.obligations (c : Certificate) : List (String × Bool) :=
  [("D1_all_leveled", c.allLeveled), ("D2_levels_contiguous", c.contiguous),
    ("D3_no_skipped_stage", c.noSkippedStage), ("D4_levels_grouped", c.grouped),
    ("D5_defs_before_uses", c.defsBeforeUses), ("D6_marked", c.marked)]

def Certificate.holds (c : Certificate) : Bool :=
  c.obligations.all Prod.snd

/-- The names of the obligations that do not hold. -/
def Certificate.failures (c : Certificate) : List String :=
  (c.obligations.filter fun obligation => !obligation.2).map Prod.fst

def isContiguous (levels : List Nat) : Bool :=
  let distinct := levels.eraseDups
  (List.range distinct.length).all fun i => distinct.contains (i + 1)

def neverRises : List Nat → Bool
  | a :: b :: rest => b ≤ a && neverRises (b :: rest)
  | _ => true

/-- Whether an edge may lead from one level to another. -/
def stepsDown (o : Options) (upper lower : Nat) : Bool :=
  upper = lower + 1 || (o.renumbers && upper = lower)

def Region.noSkippedStage (r : Region) (o : Options) : Bool :=
  r.deps.toList.all fun (producer, edge) =>
    match r.level? producer, r.level? edge.consumer with
    | some upper, some lower => stepsDown o upper lower
    | _, _ => false

/-- The induction variable that a loop defines. -/
def NodeKind.inductionVar? : NodeKind → Option ValueId
  | .loop iv .. => some iv
  | _ => none

/-- Adds what a node and all that is nested in it less than `depth` deep define to the values
defined before it. Fails where an operand is not defined. -/
def Region.defineWithin (r : Region) : Nat → List ValueId → NodeId → Option (List ValueId)
  | 0, defined, _ => some defined
  | depth + 1, defined, n =>
    if (r.operands n).all defined.contains then do
      let defined := ((r.kind? n).bind NodeKind.inductionVar?).toList ++ defined
      let defined ← (r.bodyOf n).foldlM (r.defineWithin depth) defined
      return r.results n ++ defined
    else none

def Region.defsBeforeUses (r : Region) : Bool :=
  (r.body.foldlM (r.defineWithin r.nodes.size) r.args).isSome

/-- Checks whether a region is legal as a pipeline. -/
def Region.certify (r : Region) (o : Options) : Certificate where
  allLeveled := r.dataflowNodes.all fun n => (r.level? n).isSome
  contiguous := isContiguous r.bodyLevels
  noSkippedStage := r.noSkippedStage o
  grouped := neverRises r.bodyLevels
  defsBeforeUses := r.defsBeforeUses
  marked := r.dataflow

end Staging
