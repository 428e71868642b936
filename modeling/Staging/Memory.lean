import Staging.Block
import Staging.Table

namespace Staging

inductive AccessKind where
  | read
  | write
deriving DecidableEq

/-- An access that a node makes to some buffer. -/
structure Access where
  node : NodeId
  kind : AccessKind
deriving DecidableEq

/-- The buffers that a node itself reads and writes, in the order of its operands. -/
def Region.touched (r : Region) (n : NodeId) : List (ValueId × AccessKind) :=
  match r.kind? n, r.operands n with
  | some .load, [mem] => [(mem, .read)]
  | some .store, [_, mem] => [(mem, .write)]
  | some .copy, [source, target] => [(source, .read), (target, .write)]
  | _, _ => []

/-- The accesses of a node and all that is nested in it, by buffer. -/
def Region.accesses (r : Region) (n : NodeId) : Table ValueId (List Access) :=
  (r.walk n).foldl (fun found n =>
    (r.touched n).foldl (fun found (mem, kind) => found.addTo mem ⟨n, kind⟩) found) []

/-- What the loops of the body read and write. -/
structure Footprint where
  /-- The buffers that each loop writes. -/
  writes : Table NodeId (List ValueId)
  /-- The loops that read each buffer. -/
  readers : Table ValueId (List NodeId)

def Footprint.empty : Footprint :=
  ⟨[], []⟩

def Footprint.addAccess (loop : NodeId) (mem : ValueId) (f : Footprint) (access : Access) :
    Footprint :=
  match access.kind with
  | .write => { f with writes := f.writes.addNew loop mem }
  | .read => { f with readers := f.readers.addNew mem loop }

def Footprint.addLoop (r : Region) (f : Footprint) (loop : NodeId) : Footprint :=
  (r.accesses loop).foldl (fun f (mem, accesses) => accesses.foldl (addAccess loop mem) f) f

def Region.footprint (r : Region) : Footprint :=
  (r.body.filter r.isLoop).foldl (Footprint.addLoop r) .empty

/-- The buffers that a loop writes, in the order it first touches them. -/
def Footprint.writtenBy (f : Footprint) (loop : NodeId) : List ValueId :=
  (f.writes.get? loop).getD []

/-- The loops that read a buffer, in program order. -/
def Footprint.readersOf (f : Footprint) (mem : ValueId) : List NodeId :=
  (f.readers.get? mem).getD []

end Staging
