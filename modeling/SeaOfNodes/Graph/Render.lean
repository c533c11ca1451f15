import SeaOfNodes.Graph.Basic
import SeaOfNodes.Text.Quoted

/-!
# Graphs as text

One line per node. A full line shows the node's data and edges, its users and its predecessor.
-/

namespace SeaOfNodes

/-- A possible handle. -/
def slotText : Option NodeId → String
  | some id => id.text
  | none => "null"

/-- The full line of a node. -/
def Entry.line (e : Entry) (id : NodeId) : String :=
  (if e.alive then "" else "deleted ") ++ e.node.longText id ++ e.node.edgesText ++
    " usages=" ++ slotsText (e.usages.toList.map some) ++ " pred=" ++ slotText e.predecessor

namespace Graph

/-- The full lines of all nodes ever registered. -/
def lines (g : Graph) : List String :=
  g.entries.toList.zipIdx.map fun (e, index) => e.line ⟨index⟩

/-- The full lines of the nodes that are not deleted. -/
def aliveLines (g : Graph) : List String :=
  (g.entries.toList.zipIdx.filter fun (e, _) => e.alive).map fun (e, index) => e.line ⟨index⟩

/-- The graph's name and size, and one short line per node that is not deleted. -/
def debugText (g : Graph) : String :=
  let head := "Graph " ++ Text.quoted g.name ++ " (" ++ toString g.aliveCount ++ " nodes)\n"
  let rows := (g.entries.toList.zipIdx.filter fun (e, _) => e.alive).map fun (e, index) =>
    "  " ++ e.node.debugText ⟨index⟩ ++ "\n"
  head ++ String.join rows

end Graph

end SeaOfNodes
