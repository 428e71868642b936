import Staging.Levels
import Staging.Options

namespace Staging

/-- An edge that skips stages. -/
structure Bypass where
  producer : NodeId
  carrier : Carrier
  consumer : NodeId
  /-- The level below that of the producer. -/
  upper : Nat
  /-- The level of the consumer. -/
  lower : Nat
deriving DecidableEq

/-- The copies that carry one edge from stage to stage. -/
structure CopyChain where
  producer : NodeId
  carrier : Carrier
  consumer : NodeId
  /-- The levels of the copies, from the producer on. -/
  levels : List Nat
  /-- Whether each copy needs a buffer of its own. -/
  needsAlloc : Bool
deriving DecidableEq

/-- The edges that skip stages, and what is to be done about them. -/
structure Bypasses where
  edges : List Bypass
  chains : List CopyChain
  /-- For levels with consumers, in increasing order, the highest level to merge with them. -/
  merges : List (Nat × Nat)
deriving DecidableEq

def Bypasses.empty : Bypasses :=
  ⟨[], [], []⟩

/-- The number of stages that an edge skips; an edge that goes up skips none. -/
def Bypass.span? (b : Bypass) : Option Nat :=
  if b.lower ≤ b.upper then some (b.upper - b.lower) else none

def Bypasses.copyCount (b : Bypasses) : Nat :=
  b.chains.foldr (fun chain n => chain.levels.length + n) 0

def Bypasses.allocCount (b : Bypasses) : Nat :=
  (b.chains.filter CopyChain.needsAlloc).foldr (fun chain n => chain.levels.length + n) 0

/-- Merges the levels from `lower` to `upper`, keeping the highest level for each `lower`. -/
def addMerge (lower upper : Nat) : List (Nat × Nat) → List (Nat × Nat)
  | [] => [(lower, upper)]
  | (l, u) :: rest =>
    if lower < l then (lower, upper) :: (l, u) :: rest
    else if lower = l then (l, max u upper) :: rest
    else (l, u) :: addMerge lower upper rest

def Bypasses.recordMerge (b : Bypasses) (lower upper : Nat) : Bypasses :=
  { b with merges := addMerge lower upper b.merges }

/-- The levels from `upper` down to the one above `lower`. -/
def levelsDown (upper lower : Nat) : List Nat :=
  (List.range (upper - lower)).map fun i => upper - i

/-- The highest level. Levels are unsigned and 32 bits wide. -/
def maxLevel : Nat :=
  Nat.pow 2 32 - 1

/-- The levels of the copies on an edge. One that goes up needs no copy, but it cannot end at the
highest level, as the copies would end at the one above. -/
def Bypass.copyLevels? (b : Bypass) : Option (List Nat) :=
  if b.lower ≤ b.upper || b.lower < maxLevel then some (levelsDown b.upper b.lower) else none

/-- Plans what to do about an edge that skips stages. -/
def Bypasses.add (r : Region) (o : Options) (b : Bypasses) (bypass : Bypass) :
    Except Stop Bypasses := do
  let b := { b with edges := b.edges ++ [bypass] }
  if o.insertCopy then
    let value ← orFault (r.value? bypass.carrier.id)
    if value.type.isDynamicMemref then
      throw (.blocked (.unsupportedCarrier bypass.producer bypass.carrier.id value.type))
    let levels ← orFault bypass.copyLevels?
    let chain : CopyChain :=
      ⟨bypass.producer, bypass.carrier, bypass.consumer, levels, value.type.isMemref⟩
    return { b with chains := b.chains ++ [chain] }
  return b.recordMerge bypass.lower bypass.upper

/-- The edges from a producer at level `upper + 1` that skip stages. -/
def Levels.skipping (levels : Levels) (producer : NodeId) (upper : Nat) (edges : List Edge) :
    List Bypass :=
  edges.filterMap fun edge =>
    match levels.get? edge.consumer with
    | some lower =>
      if lower = upper then none else some ⟨producer, edge.carrier, edge.consumer, upper, lower⟩
    | none => none

/-- The edges from a node that skip stages. There is no level below 0. -/
def Levels.skippingFrom (levels : Levels) (g : DepGraph) (n : NodeId) : Except Stop (List Bypass) :=
  match levels.get? n with
  | some (upper + 1) => .ok (levels.skipping n upper (g.from n))
  | some 0 => .error .fault
  | none => .ok []

/-- Finds the edges that skip stages, producers last to first, and plans what to do about them. -/
def Region.bypasses (r : Region) (g : DepGraph) (levels : Levels) (o : Options) :
    Except Stop Bypasses :=
  r.body.reverse.foldlM (fun b n => do
    let found ← levels.skippingFrom g n
    found.foldlM (Bypasses.add r o) b) .empty

end Staging
