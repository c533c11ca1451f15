import SeaOfNodes.Flow.Liveness
import SeaOfNodes.Flow.Order
import SeaOfNodes.Flow.Subroutine
import SeaOfNodes.Graph.Verify

/-!
# Block maps

The control flow of a method: its blocks in reverse postorder, its loops and, if asked for, its live
locals.
-/

namespace SeaOfNodes

/-- The control flow of a method. -/
structure BlockMap where
  blocks : Blocks
  /-- The block of each byte of the code; copies of subroutine blocks do not show. -/
  blockAt : Array (Option BlockId)
  /-- The blocks that are reached, in reverse postorder. -/
  order : List BlockId
  /-- The headers of the loops. -/
  headers : Array BlockId
  hasSubroutines : Bool
  liveness : Option Flow.Liveness

namespace BlockMap

open SeaOfNodes.Flow

/-- The number of 64-bit masks' bits that a round can add, and one round more. -/
def maskRounds (blocks : Blocks) : Nat := 64 * blocks.size + 2

/-- Number the blocks in order. -/
def numbered (blocks : Blocks) (order : List BlockId) : Blocks :=
  order.zipIdx.foldl (fun blocks (id, number) =>
    blocks.modify id fun b => { b with number := some number }) blocks

/-- The block map of a method. -/
def create (m : Method) (options : Options) : Except Bailout BlockMap := do
  let d ← discover m options
  let some start := (d.blockAt[0]?).join | throw (.malformed (.noBlock 0))
  let blocks ←
    if d.hasSubroutines then
      if options.supportJsr then inlineSubroutines d start else throw (.subroutine .disabled)
    else pure d.blocks
  let s ← Flow.order blocks start (min options.loopLimit maxLoops)
  let blocks ← completeMasks start (maskRounds s.blocks) s.blocks
  let blocks := numbered blocks s.order
  return {
    blocks
    blockAt := d.blockAt
    order := s.order
    headers := s.headers
    hasSubroutines := d.hasSubroutines
    liveness :=
      if options.livenessAnalysis then some (Liveness.compute blocks s.order m.code) else none }

/-- The block of a handle. -/
def block (map : BlockMap) (id : BlockId) : Block := map.blocks.block id

/-- Where the method starts. -/
def start? (map : BlockMap) : Option BlockId := map.order.head?

/-- The block at a bci. -/
def at? (map : BlockMap) (bci : Nat) : Option BlockId := (map.blockAt[bci]?).join

/-- The number of loops. -/
def loopCount (map : BlockMap) : Nat := map.headers.size

/-- The header of a loop. -/
def header? (map : BlockMap) (loop : Nat) : Option BlockId := map.headers[loop]?

/-- What is live before a block; none if nothing is known. -/
def liveIn? (map : BlockMap) (id : BlockId) : Option BitSet := map.liveness.bind (·.liveIn? id)

/-- What is live after a block; none if nothing is known. -/
def liveOut? (map : BlockMap) (id : BlockId) : Option BitSet := map.liveness.bind (·.liveOut? id)

/-- Where exceptions of a block go: its last successor, if that is a dispatch block. -/
def dispatch? (map : BlockMap) (id : BlockId) : Option BlockId :=
  (map.block id).successors.getLast?.filter fun s => (map.block s).isDispatch

/-- Add a block; its handle is `map.blocks.next`. -/
def addBlock (map : BlockMap) (b : Block) : BlockMap := { map with blocks := map.blocks.push b }

/-! ### Verifying -/

/-- What is wrong with a successor at a place. -/
def successorComplaint? (map : BlockMap) (successors : List BlockId) (id : BlockId) (place : Nat) :
    Option String :=
  if (map.block id).isDispatch && place + 1 ≠ successors.length then
    some "exception dispatch successor must be last"
  else if (successors.take place).contains id && successors.length ≠ 2 then
    some ("successor " ++ (map.block id).text ++ " listed twice")
  else none

/-- Check that a dispatch block is the last successor, and that no successor is listed twice, except
by a branch to the next instruction. -/
def verify (map : BlockMap) : Except Flaw Unit :=
  let flaw? := map.order.findSome? fun id =>
    let b := map.block id
    b.successors.zipIdx.findSome? fun (successor, place) =>
      (map.successorComplaint? b.successors successor place).map (Flaw.mk b.text)
  match flaw? with
  | some flaw => .error flaw
  | none => .ok ()

/-! ### Text -/

/-- The headers of the loops of a mask. -/
def headersText (map : BlockMap) (mask : LoopMask) : String :=
  String.join ((mask.toList.filterMap map.header?).map fun id =>
    " B" ++ (map.block id).numberText)

/-- A block with its successors and loops. -/
def blockText (map : BlockMap) (id : BlockId) : String :=
  let b := map.block id
  b.text ++ (if b.scope.isEmpty then "" else " jsr" ++ b.scope.text) ++
    "\n  Sux :" ++ String.join (b.successors.map fun s => " " ++ (map.block s).text) ++
    "\n  Loop :" ++ map.headersText b.loops ++
    "\n  Exits :" ++ map.headersText b.exits ++ "\n"

/-- All blocks, in order. -/
def text (map : BlockMap) : String := String.join (map.order.map map.blockText)

end BlockMap

end SeaOfNodes
