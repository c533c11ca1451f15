import SeaOfNodes.Arena
import SeaOfNodes.Flow.Scope

/-!
# Blocks

A block is a run of instructions entered at its start and left at its end, or one of the points that
exceptions and returns pass through. Loops are numbered; the loops of a block are a mask of 64 bits.
-/

namespace SeaOfNodes

/-- The tag of block handles. -/
inductive BlockTag

/-- The place of a block in its map. -/
abbrev BlockId := Handle BlockTag

/-- What a block stands for. -/
inductive BlockKind
  | bytecodes
  /-- Tries one row of the exception table; `bci` is where the exception was raised. -/
  | dispatch (handler : Nat) (bci : Int)
  /-- Where all returns of the method meet. -/
  | methodReturn
  /-- Where exceptions leave the method; `bci` is where the first of them was raised. -/
  | unwind (bci : Int)
deriving DecidableEq, Repr, Inhabited

/-- A set of loops. -/
abbrev LoopMask := UInt64

/-- The loops of a mask, ascending. -/
def LoopMask.toList (mask : LoopMask) : List Nat := (List.range 64).filter mask.toNat.testBit

/-- The mask of one loop. -/
def LoopMask.single (loop : Nat) : LoopMask := 1 <<< loop.toUInt64

/-- A block. -/
structure Block where
  /-- The place in the order of blocks; none before it is known, or if it is never reached. -/
  number : Option Nat := none
  /-- The first bci; -1 where there are no instructions. -/
  start : Int
  /-- The bci of the last instruction; -1 where there are no instructions. -/
  stop : Int
  kind : BlockKind
  /-- Whether this is where an exception handler starts. -/
  isHandler : Bool := false
  isLoopHeader : Bool := false
  /-- The number of the loop, for a header. -/
  loop : Nat := 0
  /-- The loops to which the block belongs. -/
  loops : LoopMask := 0
  /-- The loops that are left on entering the block. -/
  exits : LoopMask := 0
  /-- Where control may go; at most the last one is a dispatch block. -/
  successors : List BlockId := []
  /-- The subroutine called at the end of the block. -/
  callee : Option BlockId := none
  /-- The bci after that call. -/
  returnBci : Nat := 0
  /-- Where the return at the end of a subroutine leads. -/
  continuation : Option BlockId := none
  /-- Whether the block ends with a return from a subroutine. -/
  endsSubroutine : Bool := false
  /-- The subroutines in which this copy of the block stands. -/
  scope : Scope := .empty
deriving DecidableEq, Repr, Inhabited

namespace Block

/-- A block that starts at a bci. -/
def startingAt (start : Int) (kind : BlockKind) : Block := { start, stop := start, kind }

/-- Whether exceptions pass through the block. -/
def isDispatch (b : Block) : Bool :=
  match b.kind with
  | .dispatch .. | .unwind _ => true
  | _ => false

/-- The bci of frame states made on entry. -/
def stateBci (b : Block) : Int :=
  match b.kind with
  | .dispatch _ bci | .unwind bci => bci
  | .bytecodes | .methodReturn => b.start

/-- The block's number as text; a block without a number has the largest of 64 bits. -/
def numberText (b : Block) : String := toString (b.number.getD (UInt64.size - 1))

/-- The block in brief, as in `B3[10->17 L]`. -/
def text (b : Block) : String :=
  let range := match b.kind with
    | .dispatch _ bci => "dispatch@" ++ toString bci
    | .unwind bci => "unwind@" ++ toString bci
    | .methodReturn => "return@" ++ toString b.start
    | .bytecodes => toString b.start ++ "->" ++ toString b.stop
  "B" ++ b.numberText ++ "[" ++ range ++ (if b.isLoopHeader || b.isHandler then " " else "") ++
    (if b.isLoopHeader then "L" else "") ++ (if b.isHandler then "!" else "") ++ "]"

end Block

/-- The blocks of a method. -/
abbrev Blocks := Arena BlockTag Block

/-- The block of a handle. -/
def Blocks.block (blocks : Blocks) (id : BlockId) : Block := (blocks.get? id).getD default

end SeaOfNodes
