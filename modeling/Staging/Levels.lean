import Staging.Dependence
import Staging.Obstacle

namespace Staging

/-- Levels of nodes, counted from the end of the region, in the order of assignment. -/
structure Levels where
  entries : Table NodeId Nat
deriving DecidableEq

def Levels.empty : Levels :=
  ⟨[]⟩

def Levels.get? (levels : Levels) (n : NodeId) : Option Nat :=
  levels.entries.get? n

def Levels.set (levels : Levels) (n : NodeId) (level : Nat) : Levels :=
  ⟨levels.entries.put n level⟩

/-- The greatest of some numbers, or 0. -/
def maxOf (ns : List Nat) : Nat :=
  ns.foldl max 0

def Levels.max (levels : Levels) : Nat :=
  maxOf (levels.entries.map Prod.snd)

/-- Writes the levels into the nodes, all of which have to be known. -/
def Levels.applyTo (levels : Levels) (r : Region) : Option Region :=
  levels.entries.foldlM (fun r (n, level) => do
    let _ ← r.node? n
    return r.setLevel n (some level)) r

/-- Whether one node comes before another in the body. -/
def Uses.isBefore (uses : Uses) (n other : NodeId) : Bool :=
  match uses.places.get? n, uses.places.get? other with
  | some p, some c => p < c
  | _, _ => false

/-- The edges whose consumer does not come after the producer in the body. -/
def DepGraph.backward (g : DepGraph) (uses : Uses) : List (NodeId × NodeId) :=
  let ends := g.toList.map fun (producer, edge) => (producer, edge.consumer)
  ends.filter fun (producer, consumer) => !uses.isBefore producer consumer

/-- The levels found so far on the way up a body, and for nodes that are not scheduled the
deepest level that their results reach. -/
structure Ascent where
  levels : Levels
  floors : Table NodeId Nat

def Ascent.start : Ascent :=
  ⟨.empty, []⟩

/-- The level of a scheduled node, or the deepest that another node reaches. -/
def Ascent.reach (a : Ascent) (n : NodeId) : Nat :=
  ((a.levels.get? n).or (a.floors.get? n)).getD 0

/-- The deepest level that the results of a node reach. -/
def Ascent.floor (a : Ascent) (r : Region) (uses : Uses) (n : NodeId) : Nat :=
  let users := (r.results n).flatMap uses.topUsersOf
  maxOf ((users.filter (· ≠ n)).map a.reach)

/-- The deepest level among the consumers of some edges, or the first consumer without one. -/
def Ascent.deepest (a : Ascent) : List Edge → Except NodeId Nat
  | [] => .ok 0
  | edge :: edges =>
    match a.levels.get? edge.consumer with
    | some level => (a.deepest edges).map (Nat.max level)
    | none => .error edge.consumer

/-- Goes on to the next node up the body. -/
def Ascent.step (r : Region) (g : DepGraph) (uses : Uses) (backward : Nat) (a : Ascent)
    (n : NodeId) : Except Obstacle Ascent :=
  let floor := a.floor r uses n
  if r.isDataflow n then
    match a.deepest (g.from n) with
    | .ok deepest => .ok { a with levels := a.levels.set n (Nat.max (deepest + 1) floor) }
    | .error successor => .error (.topologyViolation n successor backward)
  else .ok { a with floors := a.floors.put n floor }

/-- Schedules the nodes of a body as late as possible: each one level above its consumers, and
not below a scheduled node that its results reach in any other way. -/
def Region.levels (r : Region) (g : DepGraph) : Except Obstacle Levels :=
  let uses := r.uses
  let backward := (g.backward uses).length
  (r.body.reverse.foldlM (Ascent.step r g uses backward) .start).map Ascent.levels

end Staging
