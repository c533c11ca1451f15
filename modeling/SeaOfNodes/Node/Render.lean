import SeaOfNodes.Node.Basic

/-!
# Nodes as text

A node is written with more or less detail: its handle and class, its data, its edges. Absent edges
are written as `null`.
-/

namespace SeaOfNodes

/-- Slots in brackets. -/
def slotsText (slots : List (Option NodeId)) : String :=
  let text : Option NodeId → String
    | some id => id.text
    | none => "null"
  "[" ++ ", ".intercalate (slots.map text) ++ "]"

namespace Node

/-- How messages name the node that a handle stands for. -/
def label (n : Node) (id : NodeId) : NodeLabel := ⟨id, n.cls⟩

/-- The data fields as text. -/
def dataText (n : Node) : List (String × String) := n.op.data.map fun (name, v) => (name, v.text)

/-- The data fields as text, by name. -/
def properties (n : Node) : List (String × String) :=
  n.dataText.mergeSort fun a b => decide (a.1 ≤ b.1)

/-- Handle, class and data, as in `7|Phi(int)`. -/
def longText (n : Node) (id : NodeId) : String :=
  let data := n.dataText.map (·.2)
  (n.label id).text ++ if data.isEmpty then "" else "(" ++ ", ".intercalate data ++ ")"

/-- The edges, as in ` inputs=[3, 5] successors=[]`. -/
def edgesText (n : Node) : String :=
  " inputs=" ++ slotsText (n.slots .inputs) ++ " successors=" ++ slotsText (n.slots .successors)

/-- Handle, class and edges. -/
def debugText (n : Node) (id : NodeId) : String := (n.label id).text ++ n.edgesText

/-- Handle, class and named data. -/
def fullText (n : Node) (id : NodeId) : String :=
  let data := n.properties.map fun (name, value) => name ++ "=" ++ value
  (n.label id).text ++
    if data.isEmpty then " \x7b\x7d" else " \x7b " ++ ", ".intercalate data ++ " \x7d"

end Node

end SeaOfNodes
