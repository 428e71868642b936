import Staging.Levels
import Staging.Stages

namespace Staging

/-- A quoted name. A backslash is written as it is, and so can start a line break. -/
def dotQuoted (s : String) : String :=
  String.ofList ('"' :: s.toList.flatMap (fun c => if c = '"' then ['\\', '"'] else [c]) ++ ['"'])

def NodeKind.dotStyle : NodeKind → String
  | .loop .. => "shape=box3d, style=filled, fillcolor=lightyellow"
  | .copy => "shape=cds, style=filled, fillcolor=lightsalmon"
  | _ => "shape=box, style=filled, fillcolor=lightblue"

def dotLevel? (levels : Option Levels) (n : NodeId) : Option Nat :=
  levels.bind fun levels => levels.get? n

/-- Whether an edge between two levels skips a stage. -/
def dotSkips (levels : Option Levels) (producer consumer : NodeId) : Bool :=
  match dotLevel? levels producer, dotLevel? levels consumer with
  | some upper, some lower => upper - 1 ≠ lower
  | _, _ => false

def dotEdgeStyle (skips memory : Bool) : String :=
  if skips then "style=dashed, color=red, penwidth=2"
  else if memory then "style=bold, color=steelblue"
  else "style=solid"

/-- What a node is labelled with. -/
def Region.dotLabel (r : Region) (levels : Option Levels) (n : NodeId) : Option String := do
  let name ← r.describe n
  let level := match dotLevel? levels n with
    | some level => "\\nlevel " ++ toString level
    | none => ""
  return name ++ level

def Region.dotNode (r : Region) (levels : Option Levels) (n : NodeId) : Option String := do
  let kind ← r.kind? n
  let label ← r.dotLabel levels n
  return "    " ++ n.text ++ " [" ++ kind.dotStyle ++ ", label=" ++ dotQuoted label ++ "];\n"

/-- The nodes of one level side by side. -/
def dotRank (rank : Nat × List NodeId) : String :=
  "    \x7b rank=same; /* level " ++ toString rank.1 ++ " */" ++
    String.join (rank.2.map fun n => " " ++ n.text ++ ";") ++ " \x7d\n"

/-- The levels of some nodes, highest first. -/
def dotRanks (levels : Option Levels) (nodes : List NodeId) : List (Nat × List NodeId) :=
  let add := fun groups n =>
    match dotLevel? levels n with
    | some level => addToGroup level n groups
    | none => groups
  (nodes.foldl add []).reverse

def Region.dotEdge (r : Region) (levels : Option Levels) (producer : NodeId) (edge : Edge) :
    Option String := do
  let carrier ← r.valueText edge.carrier.id
  let style := dotEdgeStyle (dotSkips levels producer edge.consumer) edge.carrier.isMemory
  return "    " ++ producer.text ++ " -> " ++ edge.consumer.text ++ " [label=" ++
    dotQuoted carrier ++ ", " ++ style ++ "];\n"

/-- Lines set off from what stands before them. -/
def dotSection (lines : List String) : String :=
  if lines.isEmpty then "" else "\n" ++ String.join lines

/-- The dependences of a region in the DOT language, with levels if there are any. -/
def Region.dot (r : Region) (g : DepGraph) (levels : Option Levels) : Option String := do
  let nodes ← r.dataflowNodes.mapM (r.dotNode levels)
  let ranks := (dotRanks levels r.dataflowNodes).map dotRank
  let edges ← g.toList.mapM fun (producer, edge) => r.dotEdge levels producer edge
  return "digraph " ++ dotQuoted r.name ++ " \x7b\n" ++
    "    rankdir=TB;\n" ++
    "    node [fontname=\"Helvetica\", fontsize=10];\n" ++
    "    edge [fontname=\"Helvetica\", fontsize=9];\n\n" ++
    String.join nodes ++ dotSection ranks ++ dotSection edges ++ "\x7d\n"

end Staging
