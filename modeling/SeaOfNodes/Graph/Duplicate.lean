import SeaOfNodes.Graph.Register

/-!
# Duplicating sets of nodes

Each node of the set gets a copy without edges; then the inputs of the copies are written, then
their successors. An edge to a node that is replaced goes to the replacement, and an edge to a node
of the set to its copy. Within one graph any other input stays as it is; between graphs there must
be none. Any other successor is dropped, for it has a predecessor already.
-/

namespace SeaOfNodes

/-- A finite map between handles. -/
structure Renaming where
  pairs : List (NodeId × NodeId)

namespace Renaming

/-- The map without entries. -/
def empty : Renaming := ⟨[]⟩

/-- The new handle of an old one. -/
def get? (r : Renaming) (old : NodeId) : Option NodeId := r.pairs.lookup old

/-- Map an old handle to a new one. -/
def insert (r : Renaming) (old new : NodeId) : Renaming :=
  ⟨(old, new) :: r.pairs.filter (·.1 ≠ old)⟩

/-- The map of a list of pairs; of two pairs with one old handle the later counts. -/
def ofList (pairs : List (NodeId × NodeId)) : Renaming :=
  pairs.foldl (fun r (old, new) => r.insert old new) empty

/-- The pairs, by old handle. -/
def toList (r : Renaming) : List (NodeId × NodeId) := r.pairs.mergeSort fun a b => a.1.le b.1

end Renaming

namespace Graph

/-- How copies of nodes without inputs are registered. -/
inductive LeafPolicy
  /-- Equal ones become one node. -/
  | shared
  /-- Each gets a copy of its own. -/
  | oneToOne
deriving DecidableEq

/-- The nodes to be copied: those of the list that are not replaced. -/
def snapshot (source : Graph) (ids : List NodeId) (replacements : Renaming) :
    Except Fault (List (NodeId × Node)) :=
  (ids.filter fun id => (replacements.get? id).isNone).mapM fun id =>
    match source.node? id with
    | some n => .ok (id, n)
    | none => .error .outOfRange

/-- Register a copy without edges. -/
def addBare (policy : LeafPolicy) (n : Node) : GraphM NodeId :=
  let bare := n.copy .none
  if bare.op.isValueNumberable && bare.op.isLeaf then
    match policy with
    | .shared => intern bare
    | .oneToOne => addLeaf bare
  else addFresh bare

/-- Write one edge of a copy: appended if it is of a list. -/
def attach (id : NodeId) (n : Node) (p : Position) (target : Option NodeId) : GraphM Unit := do
  if let some field := n.fieldSpec? p then
    if field.shape = .list then let _ ← pushEdge id p.direction field.name target
    else if target.isSome then let _ ← setEdge id p target

/-- Where an input of a copy goes. -/
def mapInput (map : Renaming) (sameGraph : Bool) (old : NodeId) (n : Node) (input : NodeId) :
    GraphM NodeId :=
  match map.get? input with
  | some new => return new
  | none => if sameGraph then return input else fail (.unresolvedInput input old n.cls)

/-- Copy nodes and connect the copies. -/
def duplicateNodes (nodes : List (NodeId × Node)) (replacements : Renaming) (policy : LeafPolicy)
    (sameGraph : Bool) : GraphM Renaming := do
  let map ← nodes.foldlM
    (fun map (old, n) => return map.insert old (← addBare policy n)) replacements
  for (old, n) in nodes do
    if let some new := map.get? old then
      for (p, value) in n.walk .inputs do
        attach new n p (← value.mapM (mapInput map sameGraph old n))
  for (old, n) in nodes do
    if let some new := map.get? old then
      for (p, value) in n.walk .successors do
        attach new n p (value.bind map.get?)
  return map

/-- Copy nodes of another graph into this one. -/
def addDuplicates (ids : List NodeId) (source : Graph) (replacements : Renaming) :
    GraphM Renaming := do
  duplicateNodes (← source.snapshot ids replacements) replacements .shared false

/-- Copy nodes within a graph. -/
def duplicateInPlace (ids : List NodeId) (replacements : Renaming) : GraphM Renaming := do
  duplicateNodes (← (← get).snapshot ids replacements) replacements .shared true

/-- A fresh graph with a copy of every node, and the map from nodes to copies. -/
def copyWithMap (g : Graph) : Except Fault (Graph × Renaming) := do
  let nodes ← g.snapshot g.nodes .empty
  let (map, copy) ← (duplicateNodes nodes .empty .oneToOne false).run (Graph.empty g.name)
  return ({ copy with start := g.start.bind map.get? }, map)

end Graph

end SeaOfNodes
