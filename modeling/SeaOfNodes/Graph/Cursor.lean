import SeaOfNodes.Graph.Basic

/-!
# Cursors

A cursor walks the users or the edges of a node step by step while the graph changes elsewhere. It
remembers the node's stamp from when it was made, and a step after the walked list has changed is a
fault.
-/

namespace SeaOfNodes

/-- A place in the usage list of a node. -/
structure UsageCursor where
  node : NodeId
  index : Nat
  stamp : UInt32
deriving DecidableEq, Repr

namespace UsageCursor

/-- The cursor before the first user. -/
def start (g : Graph) (id : NodeId) : Except Fault UsageCursor :=
  match g.get? id with
  | some e => .ok ⟨id, 0, e.usageStamp⟩
  | none => .error .outOfRange

/-- The next user, and the cursor behind it. -/
def next (c : UsageCursor) (g : Graph) : Except Fault (Option NodeId × UsageCursor) :=
  match g.get? c.node with
  | none => .error .outOfRange
  | some e =>
    if e.usageStamp ≠ c.stamp then .error (.usagesModified (e.node.label c.node))
    else match e.usages.get? c.index with
      | some usage => .ok (some usage, { c with index := c.index + 1 })
      | none => .ok (none, c)

end UsageCursor

/-- A place in the edges of a node. -/
structure EdgeCursor where
  node : NodeId
  direction : Direction
  point : Links.Point
  stamp : UInt32
deriving DecidableEq, Repr

namespace EdgeCursor

/-- The cursor before the first slot. -/
def start (g : Graph) (id : NodeId) (d : Direction) : Except Fault EdgeCursor :=
  match g.get? id with
  | some e => .ok ⟨id, d, ⟨0, 0⟩, e.edgeStamp⟩
  | none => .error .outOfRange

/-- The next slot, and the cursor behind it. -/
def next (c : EdgeCursor) (g : Graph) :
    Except Fault (Option (Position × Option NodeId) × EdgeCursor) :=
  match g.get? c.node with
  | none => .error .outOfRange
  | some e =>
    if e.edgeStamp ≠ c.stamp then .error (.edgesModified (e.node.label c.node))
    else match Links.step c.direction (e.node.links c.direction) c.point with
      | (some slot, point) => .ok (some slot, { c with point })
      | (none, _) => .ok (none, c)

end EdgeCursor

end SeaOfNodes
