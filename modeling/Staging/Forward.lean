import Staging.Bypass

namespace Staging

/-- What was done to carry values from stage to stage. -/
structure Forwarded where
  copies : Nat
  allocs : Nat
  /-- The operands that now read the end of a chain. -/
  rewired : Nat
deriving DecidableEq

/-- A region in which chains of copies are being built. -/
structure Forwarding where
  region : Region
  /-- Where in the body the next buffer is allocated. -/
  slot : Nat
  done : Forwarded

/-- The stem of the names of copied values and their buffers. -/
def forwardStem : String :=
  "fwd"

def Forwarding.start (r : Region) : Forwarding :=
  ⟨r, 0, ⟨0, 0, 0⟩⟩

/-- Creates a buffer at the entry of the region. -/
def Forwarding.addBuffer (s : Forwarding) (type : ValueType) (span : Span) :
    Option (ValueId × Forwarding) := do
  let name := s.region.freshName forwardStem
  let (alloc, r) := s.region.addNode (.alloc false) [] [(some name, type)] span
  let (r, _) ← r.insertAt none s.slot alloc
  let buffer ← (r.results alloc).head?
  return (buffer, ⟨r, s.slot + 1, { s.done with allocs := s.done.allocs + 1 }⟩)

/-- Puts a new copy at some level in front of the consumer of a chain. -/
def Forwarding.place (s : Forwarding) (consumer copy : NodeId) (level : Nat) :
    Option Forwarding := do
  let (r, _) ← (s.region.setLevel copy (some level)).insertBefore consumer copy
  return { s with region := r, done := { s.done with copies := s.done.copies + 1 } }

/-- Copies the value that a chain has come to, and gives the copy. -/
def Forwarding.addCopy (chain : CopyChain) (type : ValueType) (span : Span)
    (state : Forwarding × ValueId) (level : Nat) : Option (Forwarding × ValueId) := do
  let (s, current) := state
  if chain.needsAlloc then
    let (buffer, s) ← s.addBuffer type span
    let (copy, r) := s.region.addNode .copy [current, buffer] [] span
    let s ← { s with region := r }.place chain.consumer copy level
    return (s, buffer)
  else
    let name := s.region.freshName forwardStem
    let (copy, r) := s.region.addNode .copy [current] [(some name, type)] span
    let result ← (r.results copy).head?
    let s ← { s with region := r }.place chain.consumer copy level
    return (s, result)

/-- Builds a chain, and lets its consumer read the end of it. -/
def Forwarding.addChain (s : Forwarding) (chain : CopyChain) : Option Forwarding := do
  let value ← s.region.value? chain.carrier.id
  let producer ← s.region.node? chain.producer
  let (s, last) ← chain.levels.foldlM (addCopy chain value.type producer.span) (s, chain.carrier.id)
  let (r, rewired) ← s.region.replaceUses chain.carrier.id last chain.consumer
  return { s with region := r, done := { s.done with rewired := s.done.rewired + rewired } }

/-- Writes the levels into a region in place of all older ones, and builds the planned chains.
Copies stand directly in front of their consumer, buffers at the entry. -/
def Region.forward (r : Region) (levels : Levels) (b : Bypasses) : Option (Region × Forwarded) := do
  let r ← levels.applyTo r.clearLevels
  let s ← b.chains.foldlM Forwarding.addChain (.start r)
  return (s.region, s.done)

end Staging
