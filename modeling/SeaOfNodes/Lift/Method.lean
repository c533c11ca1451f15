import SeaOfNodes.Lift.Cleanup
import SeaOfNodes.Lift.Instruction

/-!
# Lifting methods

The blocks are lifted in reverse postorder, so that a block is lifted after the blocks that lead to
it, back edges apart. The blocks where returns and exceptions leave the method come last.
-/

namespace SeaOfNodes

namespace Lift

open Bytecode

/-- Open the loop of a header block: control enters through an end, and every slot gets a phi. -/
def openLoop (id : BlockId) (bci : Int) : LiftM Unit := do
  let last := (← get).last
  let loopBegin ← onGraph do
    let forwardEnd ← Graph.add .forwardEnd
    let loopBegin ← Graph.add .loopBegin
    if let some last := last then Graph.setNext last (some forwardEnd)
    Graph.addForwardEnd loopBegin forwardEnd
    return loopBegin
  modify fun s => { s with last := some loopBegin }
  let f ← onGraph ((← get).frame.insertLoopPhis loopBegin)
  modifyFrame fun _ => f
  setState loopBegin f bci
  setArrival id ⟨loopBegin, some f⟩

/-- Mark the line of an instruction if it differs from the latest one. -/
def markLine (bci : Nat) : LiftM Unit := do
  let s ← get
  if let some line := s.method.line? bci then
    if s.line ≠ some line then
      modify fun s => { s with line := some line }
      let infopoint ← append (.infopoint line)
      setState infopoint (← get).frame bci

/-- Give a node that carries the state after it that state, unless it has one. -/
def completeState (id : NodeId) (bci : Nat) : LiftM Unit := do
  if (← classOf id).has .stateSplit then
    if (← onGraph (Graph.stateAfter? id)).isNone then setState id (← get).frame bci

/-- Leave a block for the one that follows it. -/
def fallThrough : LiftM Unit := do jumpTo (← successor 0)

/-- Forget the locals that are not live after a block. -/
def clearAfter (id : BlockId) : LiftM Unit := do
  if let some live := (← get).map.liveOut? id then modifyFrame (·.clearDead live)

/-- Lift instructions, the last of which is at `stop`. -/
def instructions (id : BlockId) (stop : Int) : List Cursor → LiftM Unit
  | [] => return
  | c :: rest => do
    if (← get).options.eagerInfopoints then markLine c.bci
    instruction c
    let some last := (← get).last | return
    if stop < c.next then
      clearAfter id
      completeState last c.next
      fallThrough
    else
      completeState last c.next
      instructions id stop rest

/-- Lift a block of instructions. -/
def bytecodes (id : BlockId) (b : Block) : LiftM Unit := do
  modifyFrame fun f => { f with rethrow := false }
  if b.isLoopHeader then openLoop id b.start
  instructions id b.stop (Cursor.walkFrom (← get).method.code b.start.toNat)

/-- Lift a block that is entered through `first` with a frame. -/
def enteredBlock (id : BlockId) (first : NodeId) (f : Frame) : LiftM Unit := do
  modify fun s =>
    { s with current := some id, last := some first, frame := f.dropDeleted s.graph }
  let b ← block id
  if (← classOf first) = .merge then setState first (← get).frame b.stateBci
  match b.kind with
  | .methodReturn =>
    let kind := (← get).method.result
    let result ← if kind = .void then pure none else pure (some (← pop kind))
    let _ ← append (.methodReturn result)
  | .unwind _ =>
    let exception ← pop .object
    let _ ← append (.unwind exception)
  | .dispatch handler bci => dispatch id handler bci
  | .bytecodes => bytecodes id b

/-- Lift a block, if anything leads there. -/
def liftBlock (id : BlockId) : LiftM Unit := do
  match ← arrival? id with
  | some ⟨first, some f⟩ => enteredBlock id first f
  | _ => return

/-- The start of the method, from which the first block is entered. -/
def begin_ (startBlock : BlockId) : LiftM Unit := do
  let start ← onGraph (Graph.add .start)
  onGraph (modify (·.setStart start))
  let f ← clearedFor startBlock (← get).frame
  modify fun s => { s with frame := f, last := some start }
  setState start f 0
  if (← block startBlock).isLoopHeader then jumpTo startBlock
  else setArrival startBlock ⟨start, some f⟩

/-- Lift all blocks. -/
def all : LiftM Unit := do
  let order := (← get).map.order
  if let some startBlock := order.head? then begin_ startBlock
  for id in order do liftBlock id
  if let some id := (← get).returnBlock then liftBlock id
  if let some id := (← get).unwindBlock then liftBlock id
  onGraph Graph.cleanUp

end Lift

/-- The state before lifting: the frame of the method's parameters, and nothing else. -/
def Lift.initial (m : Method) (options : Options) (map : BlockMap) : Except Failure Lift.State :=
  match (Frame.entry m).run (Graph.empty m.qualifiedName) with
  | .ok (frame, graph) => .ok { method := m, options, map, graph, frame }
  | .error cause => .error (.fault cause)

/-- The graph of a method. -/
def Method.lift (m : Method) (options : Options) : Except Failure Graph := do
  let map ← (BlockMap.create m options).mapError Failure.bailout
  let (_, s) ← Lift.all.run (← Lift.initial m options map)
  if options.verifyGraph then s.graph.verify.mapError Failure.flaw
  return s.graph

end SeaOfNodes
