import SeaOfNodes.Graph.Edges

/-!
# Adding nodes

A node is registered under a fresh handle, and its edges are entered in the books of their other
ends. Nodes of a value-numberable class are shared: asking for one gives an equal node that is
already there, if there is one. For a node without inputs that is the one remembered for its
operation; any other node is searched among the users of that one of its inputs with the fewest
users.
-/

namespace SeaOfNodes.Graph

/-- A class list is compacted when more than this many of its nodes, and more than half of them,
were deleted since. -/
def compactionThreshold : Nat := 16

/-- List a new node under its class. -/
def enlist (g : Graph) (cls : NodeClass) (id : NodeId) : Graph :=
  let list := g.classes.get cls.index
  let list : ClassList :=
    if compactionThreshold < list.stale && list.ids.length < list.stale * 2 then
      ⟨list.ids.filter g.isAlive, 0⟩
    else list
  g.withList cls { list with ids := list.ids ++ [id] }

/-- Register a node, shared or not. -/
def addFresh (n : Node) : GraphM NodeId := do
  for target in n.targets .inputs ++ n.targets .successors do requireAlive .newNode target
  let id := (← get).entries.next
  modify fun g => { g with entries := g.entries.push { node := n } }
  modify fun g => g.enlist n.cls id
  for input in n.targets .inputs do addUsage input id
  for successor in n.targets .successors do updatePredecessor id none (some successor)
  record (.added id)
  return id

/-- Register a node of a class that is not value-numberable. -/
def add (n : Node) : GraphM NodeId := do
  if n.op.isValueNumberable then fail (.valueNumberable n.cls)
  addFresh n

/-- Remember a node for an operation without inputs. -/
def remember (op : Op) (id : NodeId) : GraphM Unit :=
  modify fun g => { g with leaves := (op, id) :: g.leaves.filter (·.1 ≠ op) }

/-- The node remembered for an operation. One that was deleted is forgotten. -/
def findLeaf (op : Op) : GraphM (Option NodeId) := do
  match (← get).leaves.lookup op with
  | none => return none
  | some id =>
    let e ← entry id
    if e.alive && e.node.op == op then return some id
    modify fun g => { g with leaves := g.leaves.filter (·.1 ≠ op) }
    return none

/-- The first of the inputs with the fewest users, given the best one so far; none if there are no
inputs, or one of them has no users. -/
def fewestUsed : List NodeId → Option (NodeId × Nat) → GraphM (Option NodeId)
  | [], best => return best.map (·.1)
  | input :: rest, best => do
    let count := (← entry input).usages.size
    if count = 0 then return none
    match best with
    | some (_, least) =>
      fewestUsed rest (if count < least then some (input, count) else best)
    | none => fewestUsed rest (some (input, count))

/-- The first of the users that is structurally equal to a node. -/
def findAmong (n : Node) : List NodeId → GraphM (Option NodeId)
  | [] => return none
  | user :: rest => do
    if (← node user).sameStructure n then return some user
    findAmong n rest

/-- A node structurally equal to the given one. -/
def findEqual (n : Node) : GraphM (Option NodeId) := do
  if n.op.isLeaf then findLeaf n.op
  else match ← fewestUsed (n.targets .inputs) none with
    | none => return none
    | some input => findAmong n (← entry input).usages.toList

/-- An equal node that is already there, or the given one newly registered. -/
def intern (n : Node) : GraphM NodeId := do
  unless n.op.isValueNumberable do fail (.notValueNumberable n.cls)
  match ← findEqual n with
  | some id => return id
  | none =>
    let id ← addFresh n
    if n.op.isLeaf then remember n.op id
    return id

/-- Register a node, sharing it if its class allows. -/
def addOrIntern (n : Node) : GraphM NodeId :=
  if n.op.isValueNumberable then intern n else addFresh n

/-- Register a node without inputs anew even if there is an equal one, which stays the one that is
remembered. -/
def addLeaf (n : Node) : GraphM NodeId := do
  let existing ← findEqual n
  let id ← addFresh n
  if existing.isNone then remember n.op id
  return id

/-- Register a copy of a node with some of its edges; a copy without input fields is shared. -/
def cloneNode (id : NodeId) (kept : KeptEdges) : GraphM NodeId := do
  let n := (← node id).copy kept
  if n.op.isValueNumberable && n.op.isLeaf then intern n else addFresh n

end SeaOfNodes.Graph
