namespace Staging

/-- The steps that make a region legal. -/
inductive Pass where
  | index
  | successors
  | levels
  | bypasses
  | forward
  | compact
deriving DecidableEq

/-- What a pass leaves for later ones. -/
inductive Artifact where
  | footprint
  | uses
  | deps
  | levels
  | bypasses
  | forwarded
  | compacted
  | certificate
deriving DecidableEq

def Pass.name : Pass → String
  | .index => "index_memory"
  | .successors => "build_successors"
  | .levels => "assign_levels"
  | .bypasses => "plan_bypasses"
  | .forward => "rewrite"
  | .compact => "compact"

def Artifact.name : Artifact → String
  | .footprint => "MemoryFlow"
  | .uses => "UseIndex"
  | .deps => "Successors"
  | .levels => "Levels"
  | .bypasses => "Bypasses"
  | .forwarded => "Rewritten"
  | .compacted => "Compacted"
  | .certificate => "Cert"

/-- The passes whose artifacts a pass needs. -/
def Pass.inputs : Pass → List Pass
  | .index => []
  | .successors => [.index]
  | .levels => [.successors]
  | .bypasses => [.levels]
  | .forward => [.bypasses]
  | .compact => [.forward]

def Pass.outputs : Pass → List Artifact
  | .index => [.footprint, .uses]
  | .successors => [.deps]
  | .levels => [.levels]
  | .bypasses => [.bypasses]
  | .forward => [.forwarded]
  | .compact => [.compacted, .certificate]

/-- Whether a pass changes the region. -/
def Pass.mutates : Pass → Bool
  | .forward | .compact => true
  | _ => false

/-- What holds behind a pass, in words. -/
def Pass.invariant : Pass → String
  | .index => "loop write sets and reader sets cover every top-level loop"
  | .successors =>
    "only dataflow-eligible nodes are sources or consumers, no self edges"
  | .levels =>
    "every dataflow node leveled, producer above each successor and not below any reader"
  | .bypasses => "every bypass has a copy chain or a merge target"
  | .forward => "levels written, copy chains inserted and consumers rewired"
  | .compact => "D1-D6 obligations verified"

def Pass.all : List Pass :=
  [.index, .successors, .levels, .bypasses, .forward, .compact]

def Artifact.all : List Artifact :=
  [.footprint, .uses, .deps, .levels, .bypasses, .forwarded, .compacted, .certificate]

def Pass.ofName? (name : String) : Option Pass :=
  Pass.all.find? fun p => p.name = name

def Artifact.ofName? (name : String) : Option Artifact :=
  Artifact.all.find? fun a => a.name = name

/-- Adds a pass behind those it needs, which are at most `depth` steps away. -/
def Pass.addRequired : Nat → List Pass → Pass → List Pass
  | 0, order, _ => order
  | depth + 1, order, p =>
    if p ∈ order then order else p.inputs.foldl (addRequired depth) order ++ [p]

/-- A pass behind all passes that it needs, in the order they run. -/
def Pass.required (p : Pass) : List Pass :=
  Pass.addRequired Pass.all.length [] p

end Staging
