import Staging.Block
import Staging.Table

namespace Staging

/-- Who uses what in a region, collected in one pass over its attached nodes. -/
structure Uses where
  /-- The nodes with a value among their operands, in program order. -/
  users : Table ValueId (List NodeId)
  /-- The outermost node around each attached node. -/
  tops : Table NodeId NodeId
  /-- The place of each node of the body. -/
  places : Table NodeId Nat

def Uses.empty : Uses :=
  ⟨[], [], []⟩

/-- Adds a node to the users of a value, unless it was the last one added. -/
def addUser (n : NodeId) (users : List NodeId) : List NodeId :=
  if users.getLast? = some n then users else users ++ [n]

def Uses.visit (r : Region) (top : NodeId) (uses : Uses) (n : NodeId) : Uses :=
  { uses with
    tops := uses.tops.put n top
    users := (r.operands n).foldl
      (fun users v => users.update v fun old => addUser n (old.getD [])) uses.users }

def Uses.visitTop (r : Region) (uses : Uses) (place : NodeId × Nat) : Uses :=
  (r.walk place.1).foldl (visit r place.1)
    { uses with places := uses.places.put place.1 place.2 }

def Region.uses (r : Region) : Uses :=
  r.body.zipIdx.foldl (Uses.visitTop r) .empty

/-- The nodes, at any depth, that use a value, in program order. -/
def Uses.usersOf (uses : Uses) (v : ValueId) : List NodeId :=
  (uses.users.get? v).getD []

def Uses.top? (uses : Uses) (n : NodeId) : Option NodeId :=
  uses.tops.get? n

/-- The place in the body of the outermost node around `n`. -/
def Uses.position? (uses : Uses) (n : NodeId) : Option Nat :=
  (uses.top? n).bind uses.places.get?

/-- The outermost nodes around the users of a value, each once, in program order. -/
def Uses.topUsersOf (uses : Uses) (v : ValueId) : List NodeId :=
  ((uses.usersOf v).filterMap uses.top?).eraseDups

end Staging
