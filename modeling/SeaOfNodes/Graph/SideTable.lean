import SeaOfNodes.BitSet
import SeaOfNodes.Graph.Basic

/-!
# Side tables

Sets of nodes, maps from nodes, and worklists, all of which grow as needed.
-/

namespace SeaOfNodes

/-- A set of nodes. -/
structure NodeSet where
  bits : BitSet

namespace NodeSet

/-- The empty set. -/
def empty : NodeSet := ⟨.empty⟩

/-- The empty set with room for the nodes of a graph. -/
def sizedFor (g : Graph) : NodeSet := ⟨.withCapacity g.bound⟩

/-- Whether a node belongs to the set. -/
def contains (s : NodeSet) (id : NodeId) : Bool := s.bits.contains id.index

/-- Add a node. -/
def insert (s : NodeSet) (id : NodeId) : NodeSet := ⟨s.bits.insert id.index⟩

/-- Take a node out. -/
def erase (s : NodeSet) (id : NodeId) : NodeSet := ⟨s.bits.erase id.index⟩

/-- Take all nodes out. -/
def clear (s : NodeSet) : NodeSet := ⟨s.bits.clear⟩

/-- The number of nodes. -/
def size (s : NodeSet) : Nat := s.bits.count

/-- The nodes, by handle. -/
def toList (s : NodeSet) : List NodeId := s.bits.toList.map Handle.mk

end NodeSet

/-- A partial map from nodes. -/
structure NodeTable (α : Type) where
  values : Array (Option α)

namespace NodeTable

variable {α : Type}

/-- The map without entries. -/
def empty : NodeTable α := ⟨#[]⟩

/-- The map without entries, with room for the nodes of a graph. -/
def sizedFor (g : Graph) : NodeTable α := ⟨Array.replicate g.bound none⟩

/-- The value of a node. -/
def get? (t : NodeTable α) (id : NodeId) : Option α := (t.values[id.index]?).join

/-- Whether a node has a value. -/
def contains (t : NodeTable α) (id : NodeId) : Bool := (t.get? id).isSome

/-- Give a node a value. -/
def insert (t : NodeTable α) (id : NodeId) (value : α) : NodeTable α :=
  let values := t.values ++ Array.replicate (id.index + 1 - t.values.size) none
  ⟨values.setIfInBounds id.index (some value)⟩

/-- Take a node's value away. -/
def erase (t : NodeTable α) (id : NodeId) : NodeTable α := ⟨t.values.setIfInBounds id.index none⟩

/-- Change the value of a node that has one. -/
def modify (t : NodeTable α) (id : NodeId) (f : α → α) : NodeTable α :=
  ⟨t.values.modify id.index (Option.map f)⟩

/-- The nodes that have a value, with it, by handle. -/
def toList (t : NodeTable α) : List (NodeId × α) :=
  t.values.toList.zipIdx.filterMap fun (value, index) => value.map (⟨index⟩, ·)

end NodeTable

/-- A queue that holds each node at most once. A queue that tracks visits accepts each node only
once ever. -/
structure Worklist where
  queue : List NodeId
  queued : NodeSet
  visited : Option NodeSet

namespace Worklist

/-- The empty queue for a graph. -/
def create (g : Graph) (trackVisited : Bool) : Worklist :=
  ⟨[], .sizedFor g, if trackVisited then some (.sizedFor g) else none⟩

/-- Whether a node is refused: it was visited before, or it is queued now. -/
def refuses (w : Worklist) (id : NodeId) : Bool :=
  w.visited.any (·.contains id) || w.queued.contains id

/-- Queue a node unless it is refused. -/
def add (w : Worklist) (id : NodeId) : Worklist :=
  let visited := w.visited.map (·.insert id)
  if w.refuses id then { w with visited }
  else ⟨w.queue ++ [id], w.queued.insert id, visited⟩

/-- Queue several nodes. -/
def addAll (w : Worklist) (ids : List NodeId) : Worklist := ids.foldl add w

/-- The oldest node of the queue. -/
def first? (w : Worklist) : Option NodeId := w.queue.head?

/-- Take the oldest node off the queue. -/
def pop (w : Worklist) : Worklist :=
  match w.queue with
  | [] => w
  | id :: rest => { w with queue := rest, queued := w.queued.erase id }

end Worklist

end SeaOfNodes
