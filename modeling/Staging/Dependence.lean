import Staging.Memory
import Staging.Uses

namespace Staging

/-- What an edge carries from a producer to a consumer. -/
inductive Carrier where
  /-- An array that the consumer uses directly. -/
  | value (v : ValueId)
  /-- A buffer that the producer writes and the consumer reads. -/
  | memory (v : ValueId)
deriving DecidableEq

/-- An edge from some producer. -/
structure Edge where
  carrier : Carrier
  consumer : NodeId
deriving DecidableEq

/-- Edges between nodes of a body, by producer. -/
structure DepGraph where
  edges : Table NodeId (List Edge)
deriving DecidableEq

def Carrier.id : Carrier → ValueId
  | .value v => v
  | .memory v => v

def Carrier.isMemory : Carrier → Bool
  | .value _ => false
  | .memory _ => true

def DepGraph.empty : DepGraph :=
  ⟨[]⟩

/-- The edges from a producer. -/
def DepGraph.from (g : DepGraph) (producer : NodeId) : List Edge :=
  (g.edges.get? producer).getD []

/-- Adds an edge, and says whether it is new. -/
def DepGraph.add (g : DepGraph) (producer : NodeId) (edge : Edge) : DepGraph × Bool :=
  (⟨g.edges.addNew producer edge⟩, !(g.from producer).contains edge)

/-- All edges with their producers. -/
def DepGraph.toList (g : DepGraph) : List (NodeId × Edge) :=
  g.edges.flatMap fun (producer, edges) => edges.map fun edge => (producer, edge)

/-- Whether a place comes after another; no place comes before every place. -/
def isAfter : Option Nat → Option Nat → Bool
  | some a, some b => b < a
  | some _, none => true
  | none, _ => false

/-- The loops that only read a buffer which `loop` writes. -/
def Footprint.readersAfter (f : Footprint) (loop : NodeId) (mem : ValueId) : List NodeId :=
  (f.readersOf mem).filter fun reader =>
    reader ≠ loop && !(f.writtenBy reader).contains mem

/-- Whether a node copies the buffer `mem` into another one. -/
def Region.copiesOut (r : Region) (mem : ValueId) (n : NodeId) : Bool :=
  match r.kind? n, r.operands n with
  | some .copy, [source, _] => source = mem
  | _, _ => false

/-- The edges from a loop, by way of one of the buffers it writes. -/
def Region.edgesThrough (r : Region) (f : Footprint) (uses : Uses) (loop : NodeId)
    (mem : ValueId) : List Edge :=
  let copies := (uses.topUsersOf mem).filter fun user =>
    r.copiesOut mem user && isAfter (uses.position? user) (uses.position? loop)
  (f.readersAfter loop mem ++ copies).map fun consumer => ⟨.memory mem, consumer⟩

/-- The buffer that a node copies another one into. -/
def Region.copyTarget? (r : Region) (n : NodeId) : Option ValueId :=
  match r.kind? n, r.operands n with
  | some .copy, [_, target] => some target
  | _, _ => none

/-- The edges from an array copy to the later users of its target. -/
def Region.edgesFromTarget (r : Region) (uses : Uses) (n : NodeId) (target : ValueId) :
    List Edge :=
  let users := (uses.topUsersOf target).filter fun user =>
    user ≠ n && isAfter (uses.position? user) (uses.position? n) && r.isDataflow user
  users.map fun consumer => ⟨.memory target, consumer⟩

def Region.isShaped (r : Region) (v : ValueId) : Bool :=
  (r.value? v).any fun value => value.type.isShaped

/-- The edges from a node to the users of one of its results. -/
def Region.edgesFromResult (r : Region) (uses : Uses) (n : NodeId) (v : ValueId) : List Edge :=
  let users := (uses.topUsersOf v).filter fun user => user ≠ n && r.isDataflow user
  users.map fun consumer => ⟨.value v, consumer⟩

/-- The edges from a node of the body, each once. -/
def Region.edgesFrom (r : Region) (f : Footprint) (uses : Uses) (n : NodeId) : List Edge :=
  List.eraseDups <|
    if r.isLoop n then (f.writtenBy n).flatMap (r.edgesThrough f uses n)
    else if r.isDataflow n then
      (r.copyTarget? n).toList.flatMap (r.edgesFromTarget uses n) ++
        ((r.results n).filter r.isShaped).flatMap (r.edgesFromResult uses n)
    else []

/-- The dependences between the scheduled nodes of the body, given what its loops touch and
who uses what. -/
def Region.depsWith (r : Region) (f : Footprint) (uses : Uses) : DepGraph :=
  ⟨r.body.eraseDups.filterMap fun n =>
    match r.edgesFrom f uses n with
    | [] => none
    | edges => some (n, edges)⟩

/-- The dependences between the scheduled nodes of the body. -/
def Region.deps (r : Region) : DepGraph :=
  r.depsWith r.footprint r.uses

end Staging
