import SeaOfNodes.Graph.UsageList
import SeaOfNodes.Node.Render

/-!
# Graphs

A graph holds every node it was ever given; a deleted node keeps its place, so a handle never comes
to mean another node. Beside each node stands what others say about it: its users, one entry per
input edge, and its predecessor, the node whose successor it is. Nodes are also listed by class, in
the order of registration, and nodes without inputs are remembered for value numbering.

An operation on a graph either gives a new graph or a fault; after a fault there is no new graph.
-/

namespace SeaOfNodes

/-- A node with what the graph knows about it. -/
structure Entry where
  node : Node
  /-- False once the node is deleted. -/
  alive : Bool := true
  usages : UsageList := {}
  predecessor : Option NodeId := none
  /-- Counts the writes to the node's edges. -/
  edgeStamp : UInt32 := 0
  /-- Counts the changes of the usage list. -/
  usageStamp : UInt32 := 0
deriving Repr

/-- The nodes of one class. -/
structure ClassList where
  /-- In the order of registration; may still list deleted nodes. -/
  ids : List NodeId := []
  /-- The number of deletions since the list was last compacted. -/
  stale : Nat := 0
deriving Repr

/-- What can be observed of the changes of a graph. -/
inductive Event
  /-- A node was registered. -/
  | added (id : NodeId)
  /-- An input of the node was written. -/
  | inputChanged (id : NodeId)
  /-- The node lost its last user. -/
  | zeroUsages (id : NodeId)
deriving DecidableEq, Repr

/-- A graph of nodes. -/
structure Graph where
  name : String
  entries : Arena NodeTag Entry := .empty
  classes : Vector ClassList NodeClass.count := .replicate NodeClass.count {}
  /-- The node remembered for each operation without inputs, the latest first. -/
  leaves : List (Op × NodeId) := []
  deletedCount : Nat := 0
  start : Option NodeId := none
  /-- The events since recording began or was last drained, the latest last. -/
  events : Option (Array Event) := none

/-- Operations on a graph, which may fault. -/
abbrev GraphM := StateT Graph (Except Fault)

namespace Graph

/-- The graph without nodes. -/
def empty (name : String) : Graph := { name }

instance : Inhabited Graph := ⟨empty ""⟩

/-- The entry of a handle, alive or deleted. -/
def get? (g : Graph) (id : NodeId) : Option Entry := g.entries.get? id

/-- The node of a handle, alive or deleted. -/
def node? (g : Graph) (id : NodeId) : Option Node := (g.get? id).map (·.node)

/-- Whether a handle names a node that is not deleted. -/
def isAlive (g : Graph) (id : NodeId) : Bool := (g.get? id).any (·.alive)

/-- The number of handles ever given out. -/
def bound (g : Graph) : Nat := g.entries.size

/-- The number of nodes that are not deleted. -/
def aliveCount (g : Graph) : Nat := g.bound - g.deletedCount

/-- The nodes that are not deleted, by handle. -/
def nodes (g : Graph) : List NodeId := g.entries.handles.filter g.isAlive

/-- The nodes of a class that are not deleted, in the order of registration. -/
def nodesOf (g : Graph) (cls : NodeClass) : List NodeId := g.classes[cls.index].ids.filter g.isAlive

/-- Give a class another list of nodes. -/
def withList (g : Graph) (cls : NodeClass) (list : ClassList) : Graph :=
  { g with classes := g.classes.set cls.index list }

/-- Whether there is a node of a class. -/
def hasNodesOf (g : Graph) (cls : NodeClass) : Bool := !(g.nodesOf cls).isEmpty

/-- The nodes registered since the graph had `mark` handles, deleted ones apart. -/
def nodesSince (g : Graph) (mark : Nat) : List NodeId := g.nodes.filter (mark ≤ ·.index)

/-! ### Reading in the monad -/

/-- Fail with a fault. -/
def fail {α : Type} (fault : Fault) : GraphM α := throw fault

/-- The entry of a handle that must be registered. -/
def entry (id : NodeId) : GraphM Entry := do
  match (← get).get? id with
  | some e => return e
  | none => fail .outOfRange

/-- The node of a handle that must be registered. -/
def node (id : NodeId) : GraphM Node := return (← entry id).node

/-- The label of a handle that must be registered. -/
def label (id : NodeId) : GraphM NodeLabel := return (← node id).label id

/-- The handle must name a node that is not deleted. -/
def requireAlive (wiring : Wiring) (id : NodeId) : GraphM Unit := do
  match (← get).get? id with
  | some e => unless e.alive do fail (.deletedNode wiring (e.node.label id))
  | none => fail (.unknownNode wiring id)

/-- A possible handle, if present, must name a node that is not deleted. -/
def requireAlive? (wiring : Wiring) : Option NodeId → GraphM Unit
  | some id => requireAlive wiring id
  | none => return

/-- The place of a field of a node. -/
def fieldIndex (id : NodeId) (d : Direction) (name : String) : GraphM Nat := do
  let n ← node id
  match n.layout.fieldIndex? d name with
  | some field => return field
  | none => fail (.noFieldNamed n.cls d name)

/-! ### Elementary changes -/

/-- Change the entry of a handle. -/
def modifyEntry (id : NodeId) (f : Entry → Entry) : GraphM Unit :=
  modify fun g => { g with entries := g.entries.modify id f }

/-- Exchange a node's edges, which counts as a write. -/
def writeNode (id : NodeId) (n : Node) : GraphM Unit :=
  modifyEntry id fun e => { e with node := n, edgeStamp := e.edgeStamp + 1 }

/-- Note an event, if events are recorded. -/
def record (event : Event) : GraphM Unit :=
  modify fun g => { g with events := g.events.map (·.push event) }

/-- Start recording events. -/
def trackEvents (g : Graph) : Graph := { g with events := some (g.events.getD #[]) }

/-- The events recorded so far. -/
def recordedEvents (g : Graph) : List Event := (g.events.getD #[]).toList

/-- Forget the recorded events and go on recording. -/
def drainEvents (g : Graph) : Graph := { g with events := g.events.map fun _ => #[] }

/-- Make a node the entry of the method. -/
def setStart (g : Graph) (id : NodeId) : Graph := { g with start := some id }

end Graph

end SeaOfNodes
