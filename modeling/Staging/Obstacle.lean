import Staging.Diagnostic
import Staging.RegionText

namespace Staging

/-- Why a region cannot be made legal. -/
inductive Obstacle where
  /-- A consumer stands before its producer, as it does on so many edges. -/
  | topologyViolation (producer successor : NodeId) (backward : Nat)
  /-- No copy can be made of what an edge carries. -/
  | unsupportedCarrier (producer : NodeId) (carrier : ValueId) (type : ValueType)
deriving DecidableEq

/-- Why a run on a region ends early. -/
inductive Stop where
  /-- An identifier that the region does not know, or a level below the lowest. -/
  | fault
  | blocked (obstacle : Obstacle)
deriving DecidableEq

/-- Ends a run where something is unknown. -/
def orFault {α : Type} : Option α → Except Stop α
  | some a => .ok a
  | none => .error .fault

def Obstacle.message : Obstacle → String
  | .topologyViolation producer successor _ =>
    "node " ++ producer.text ++ " has unexpected successor " ++ successor.text ++
      ", legalization failed"
  | .unsupportedCarrier producer carrier type =>
    "node " ++ producer.text ++ ": cannot forward " ++ carrier.text ++ " of type " ++ type.text ++
      " through a copy chain"

/-- An obstacle in terms of the source of a region. -/
def Obstacle.toDiagnostic (r : Region) : Obstacle → Option Diagnostic
  | .topologyViolation producer successor backward => do
    let node ← r.node? producer
    let name ← r.describe producer
    let other ← r.node? successor
    let otherName ← r.describe successor
    return {
      code := some .topologyViolation
      severity := .error
      span := node.span
      message := name ++ " has unexpected successor, legalization failed"
      hint := some "reorder the region so every consumer follows its producers"
      related := [⟨other.span, "successor " ++ otherName ++ " appears before its producer"⟩]
      causes := [toString backward ++ " successor edge(s) point backward in program order"] }
  | .unsupportedCarrier producer carrier type => do
    let node ← r.node? producer
    let name ← r.valueText carrier
    return {
      code := some .unsupportedCarrier
      severity := .error
      span := node.span
      message := "cannot forward " ++ name ++ " of type " ++ type.text ++ " across pipeline stages"
      hint := some ("stage forwarding needs a statically shaped memref, " ++
        "or rerun with insert_copy = false")
      related := []
      causes := [] }

end Staging
