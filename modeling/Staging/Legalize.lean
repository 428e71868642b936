import Staging.Certificate
import Staging.Forward

namespace Staging

/-- All that is decided about a region before it is changed. -/
structure Plan where
  deps : DepGraph
  levels : Levels
  bypasses : Bypasses

/-- What was done to make a region legal. -/
structure Report where
  region : String
  inputFingerprint : String
  outputFingerprint : String
  /-- The nodes of the body. -/
  nodes : Nat
  /-- The levels before they were folded into stages. -/
  levels : Nat
  stages : Nat
  bypasses : Nat
  copiesInserted : Nat
  allocsInserted : Nat
  merges : List (Nat × Nat)
  options : Options
deriving DecidableEq

def blockedBy {α : Type} : Except Obstacle α → Except Stop α
  | .ok a => .ok a
  | .error obstacle => .error (.blocked obstacle)

def Region.plan (r : Region) (o : Options) : Except Stop Plan := do
  let deps := r.deps
  let levels ← blockedBy (r.levels deps)
  let bypasses ← r.bypasses deps levels o
  return ⟨deps, levels, bypasses⟩

/-- The report on a region that has been made legal. -/
def Region.report (r : Region) (inputFingerprint : String) (levels : Levels) (b : Bypasses)
    (forwarded : Forwarded) (compacted : Compacted) (o : Options) : Option Report := do
  let outputFingerprint ← r.fingerprint
  return {
    region := r.name
    inputFingerprint
    outputFingerprint
    nodes := r.body.length
    levels := levels.max
    stages := compacted.stages
    bypasses := b.edges.length
    copiesInserted := forwarded.copies
    allocsInserted := forwarded.allocs
    merges := b.merges
    options := o }

/-- Makes a region legal as a pipeline. -/
def Region.legalize (r : Region) (o : Options) : Except Stop (Report × Region) := do
  let inputFingerprint ← orFault r.fingerprint
  let plan ← r.plan o
  let (r, forwarded) ← orFault (r.forward plan.levels plan.bypasses)
  let (r, compacted) ← orFault (r.compact plan.bypasses o)
  let report ← orFault (r.report inputFingerprint plan.levels plan.bypasses forwarded compacted o)
  return (report, r)

end Staging
