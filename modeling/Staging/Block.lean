import Staging.Region

namespace Staging

/-- The nodes of a block: of the region itself, or of a loop. A node that is no loop has an
empty block, an unknown one none. -/
def Region.block? (r : Region) : Option NodeId → Option (List NodeId)
  | none => some r.body
  | some p => (r.kind? p).map NodeKind.body

/-- Whether a block can hold nodes; unknown for the block of an unknown node. -/
def Region.hasBlock? (r : Region) : Option NodeId → Option Bool
  | none => some true
  | some p => (r.kind? p).map NodeKind.isLoop

def Region.setBlock (r : Region) (block : List NodeId) : Option NodeId → Region
  | none => { r with body := block }
  | some p => r.modifyNode p fun node => { node with kind := node.kind.withBody block }

def Region.setParent (r : Region) (n : NodeId) (parent : Option NodeId) : Region :=
  r.modifyNode n fun node => { node with parent := parent }

/-- Puts a node that is in no block into a block, with `place` giving the new list, and says
whether it was done. There is no answer for unknown nodes. -/
def Region.attach (r : Region) (parent : Option NodeId) (n : NodeId)
    (place : List NodeId → Option (List NodeId)) : Option (Region × Bool) := do
  let block ← r.block? parent
  let holds ← r.hasBlock? parent
  match if holds then place block else none with
  | some block =>
    let _ ← r.node? n
    return ((r.setBlock block parent).setParent n parent, true)
  | none => return (r, false)

def Region.append (r : Region) (parent : Option NodeId) (n : NodeId) : Option (Region × Bool) :=
  r.attach parent n fun block => some (block ++ [n])

def Region.insertAt (r : Region) (parent : Option NodeId) (index : Nat) (n : NodeId) :
    Option (Region × Bool) :=
  r.attach parent n fun block =>
    if index ≤ block.length then some (block.insertIdx index n) else none

/-- Puts a node directly in front of another one. -/
def Region.insertBefore (r : Region) (anchor n : NodeId) : Option (Region × Bool) := do
  let node ← r.node? anchor
  let block ← r.block? node.parent
  match block.idxOf? anchor with
  | some index => r.insertAt node.parent index n
  | none => return (r, false)

/-- The list with `n` taken from its first place and put in front of `anchor`. -/
def moveInFront (n anchor : NodeId) (block : List NodeId) : Option (List NodeId) :=
  if n ∈ block then
    let others := block.erase n
    (others.idxOf? anchor).map fun index => others.insertIdx index n
  else none

/-- Moves a node directly in front of another one of the same block. -/
def Region.moveBefore (r : Region) (n anchor : NodeId) : Option (Region × Bool) :=
  if n = anchor then some (r, true)
  else do
    let node ← r.node? n
    let target ← r.node? anchor
    if target.parent ≠ node.parent then return (r, false)
    let block ← r.block? node.parent
    match moveInFront n anchor block with
    | some block => return (r.setBlock block node.parent, true)
    | none => return (r, false)

/-- Place of a node in the body of the region. -/
def Region.position? (r : Region) (n : NodeId) : Option Nat :=
  r.body.idxOf? n

/-- The nodes of the body that are scheduled. -/
def Region.dataflowNodes (r : Region) : List NodeId :=
  r.body.filter r.isDataflow

/-- A node and all that is nested in it less than `depth` deep, outer nodes first. -/
def Region.walkWithin (r : Region) : Nat → NodeId → List NodeId
  | 0, _ => []
  | depth + 1, n => n :: (r.bodyOf n).flatMap (r.walkWithin depth)

/-- A node and all that is nested in it, outer nodes first. No nesting is deeper than the
number of nodes. -/
def Region.walk (r : Region) (n : NodeId) : List NodeId :=
  r.walkWithin r.nodes.size n

/-- All attached nodes in program order. -/
def Region.attached (r : Region) : List NodeId :=
  r.body.flatMap r.walk

/-- The outermost node around `n`, at most `depth` loops out. -/
def Region.topWithin (r : Region) : Nat → NodeId → NodeId
  | 0, n => n
  | depth + 1, n =>
    match (r.node? n).bind Node.parent with
    | some p => r.topWithin depth p
    | none => n

/-- The outermost node around a node, which is the node itself at top level. -/
def Region.topLevel (r : Region) (n : NodeId) : NodeId :=
  r.topWithin r.nodes.size n

/-- Puts `new` in the place of `old` among the operands of a node, and counts the places. -/
def Region.replaceOperand (r : Region) (old new : ValueId) (n : NodeId) : Region × Nat :=
  (r.modifyNode n fun node =>
    { node with operands := node.operands.map fun v => if v = old then new else v },
    (r.operands n).count old)

/-- Puts `new` in the place of `old` in `scope` and all that is nested in it, and counts the
operands that changed. There is no answer for an unknown scope. -/
def Region.replaceUses (r : Region) (old new : ValueId) (scope : NodeId) :
    Option (Region × Nat) := do
  let _ ← r.node? scope
  return (r.walk scope).foldl (fun (r, count) n =>
    let (r, more) := r.replaceOperand old new n
    (r, count + more)) (r, 0)

end Staging
