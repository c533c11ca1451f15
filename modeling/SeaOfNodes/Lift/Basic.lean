import SeaOfNodes.Flow.Map
import SeaOfNodes.Frame.Merge

/-!
# Lifting: the state

Lifting interprets the instructions of each block on a frame of nodes and strings the nodes that
have effects together. What is known of a block before it is lifted is its arrival: the node through
which it is entered and the frame that it is entered with.

A method that cannot be lifted is a bailout, and nothing of its graph remains.
-/

namespace SeaOfNodes

/-- Why there is no graph. -/
inductive Failure
  | bailout (cause : Bailout)
  | fault (cause : Fault)
  | flaw (cause : Flaw)
deriving DecidableEq, Repr

namespace Lift

/-- How a block is entered. -/
structure Arrival where
  first : NodeId
  /-- Absent while another frame is being merged into it. -/
  frame : Option Frame

/-- The state of lifting. -/
structure State where
  method : Method
  options : Options
  map : BlockMap
  graph : Graph
  /-- The frame before the next instruction. -/
  frame : Frame
  /-- The node after which the next one comes; none once control has left the block. -/
  last : Option NodeId := none
  /-- The block that is being lifted. -/
  current : Option BlockId := none
  arrivals : List (BlockId × Arrival) := []
  returnBlock : Option BlockId := none
  unwindBlock : Option BlockId := none
  /-- The line of the latest line marker. -/
  line : Option Int32 := none

end Lift

/-- Steps of lifting. -/
abbrev LiftM := StateT Lift.State (Except Failure)

namespace Lift

/-- Give up on the method. -/
def bailout {α : Type} (cause : Bailout) : LiftM α := throw (.bailout cause)

/-- Give up on a malformed method. -/
def malformed {α : Type} (cause : Malformation) : LiftM α := bailout (.malformed cause)

/-- Go on with a result, or give up. -/
def ofExcept {α : Type} : Except Bailout α → LiftM α
  | .ok a => return a
  | .error cause => bailout cause

/-- Work on the graph. -/
def onGraph {α : Type} (act : GraphM α) : LiftM α := do
  let s ← get
  match act.run s.graph with
  | .ok (a, graph) =>
    set { s with graph }
    return a
  | .error cause => throw (.fault cause)

/-- Work on the frame. -/
def onFrame {α : Type} (act : FrameM α) : LiftM α := do
  let s ← get
  let (result, frame) := act.run.run s.frame
  set { s with frame }
  ofExcept result

/-- Change the frame. -/
def modifyFrame (f : Frame → Frame) : LiftM Unit := modify fun s => { s with frame := f s.frame }

/-- Pop a value of a kind. -/
def pop (kind : Kind) : LiftM NodeId := onFrame (Frame.pop kind)

/-- Push a value of a kind that has values. -/
def push (kind : Kind) (id : NodeId) : LiftM Unit := do
  if kind = .void || kind = .illegal then throw (.fault (.noValue kind))
  modifyFrame (Frame.push kind id)

/-- Share a node. -/
def intern (n : Node) : LiftM NodeId := onGraph (Graph.intern n)

/-- Share a node and push it as a value of a kind. -/
def pushNew (kind : Kind) (n : Node) : LiftM Unit := do push kind (← intern n)

/-- Register a frame as a node and make it the state after another node. -/
def setState (id : NodeId) (f : Frame) (bci : Int) : LiftM Unit :=
  onGraph do
    let state ← f.materialize (Int32.ofInt bci)
    Graph.setStateAfter id (some state)

/-- The class of a node. -/
def classOf (id : NodeId) : LiftM NodeClass := onGraph do return (← Graph.node id).cls

/-! ### Blocks -/

/-- The block of a handle. -/
def block (id : BlockId) : LiftM Block := return (← get).map.block id

/-- The block that is being lifted. -/
def current : LiftM BlockId := do
  match (← get).current with
  | some id => return id
  | none => malformed .noCurrentBlock

/-- A successor of the block that is being lifted. -/
def successor (index : Nat) : LiftM BlockId := do
  let b ← block (← current)
  match b.successors[index]? with
  | some id => return id
  | none => malformed (.noSuccessor b.text index)

/-- Add a block to the map. -/
def addBlock (b : Block) : LiftM BlockId :=
  modifyGet fun s => (s.map.blocks.next, { s with map := s.map.addBlock b })

/-- The block where all returns meet; `bci` is that of the first of them. -/
def returnBlock (bci : Nat) : LiftM BlockId := do
  match (← get).returnBlock with
  | some id => return id
  | none =>
    let id ← addBlock (.startingAt bci .methodReturn)
    modify fun s => { s with returnBlock := some id }
    return id

/-- The block where exceptions leave the method; `bci` is that of the first of them. -/
def unwindBlock (bci : Nat) : LiftM BlockId := do
  match (← get).unwindBlock with
  | some id => return id
  | none =>
    let id ← addBlock (.startingAt (-1) (.unwind bci))
    modify fun s => { s with unwindBlock := some id }
    return id

/-- How a block is entered, if anything leads there yet. -/
def arrival? (id : BlockId) : LiftM (Option Arrival) := return (← get).arrivals.lookup id

/-- Say how a block is entered. -/
def setArrival (id : BlockId) (a : Arrival) : LiftM Unit :=
  modify fun s => { s with arrivals := (id, a) :: s.arrivals.filter (·.1 ≠ id) }

/-- A frame without the locals that are not live before a block. -/
def clearedFor (id : BlockId) (f : Frame) : LiftM Frame := do
  match (← get).map.liveIn? id with
  | some live => return f.clearDead live
  | none => return f

/-! ### Control flow -/

/-- Let control go on to a node. -/
def appendNode (id : NodeId) : LiftM Unit := do
  if let some last := (← get).last then onGraph (Graph.setNext last (some id))
  let cls ← classOf id
  let goesOn := (cls.layout.fieldIndex? .successors "next").isSome
  modify fun s => { s with last := if goesOn then some id else none }

/-- Register a node and let control go on to it. -/
def append (n : Node) : LiftM NodeId := do
  let id ← onGraph (Graph.add n)
  appendNode id
  return id

/-- Let control leave the block to a node. -/
def appendJump (target : NodeId) : LiftM Unit := do
  if let some last := (← get).last then onGraph (Graph.setNext last (some target))
  modify fun s => { s with last := none }

end Lift

end SeaOfNodes
