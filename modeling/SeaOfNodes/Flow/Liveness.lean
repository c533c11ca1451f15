import SeaOfNodes.BitSet
import SeaOfNodes.Bytecode.Cursor
import SeaOfNodes.Flow.Block

/-!
# Live locals

A local is live at a point if some way on from there reads it before it is written. Per block,
`reads` holds the locals read before any write to them and `writes` those written before any read.
What is live after a block is what is live before some successor; what is live before it is that
without its writes, together with its reads. The least solution is found by passes over the blocks,
last one first.
-/

namespace SeaOfNodes.Flow

/-- The locals that a block reads and writes first. -/
structure Effects where
  reads : BitSet := .empty
  writes : BitSet := .empty

namespace Effects

/-- Note that a local is read. -/
def read (e : Effects) (index : Nat) : Effects :=
  if e.writes.contains index then e else { e with reads := e.reads.insert index }

/-- Note that a local is written. -/
def write (e : Effects) (index : Nat) : Effects :=
  if e.reads.contains index then e else { e with writes := e.writes.insert index }

/-- Apply `f` to the locals that a value of a kind takes. -/
def onSlots (f : Effects → Nat → Effects) (e : Effects) (kind : Kind) (index : Nat) : Effects :=
  if kind.isTwoSlot then f (f e index) (index + 1) else f e index

/-- Note what an instruction does to the locals. -/
def step (e : Effects) (c : Bytecode.Cursor) : Effects :=
  match c.form? with
  | some (.load kind slot) => e.onSlots read kind (slot.getD c.localIndex)
  | some (.store kind slot) => e.onSlots write kind (slot.getD c.localIndex)
  | some .increment | some .ret => e.read c.localIndex
  | _ => e

/-- What a run of instructions does to the locals. -/
def ofRange (code : Array UInt8) (start stop : Nat) : Effects :=
  ((Bytecode.Cursor.walkFrom code start).takeWhile (·.bci ≤ stop)).foldl step {}

/-- What a block does to the locals. -/
def ofBlock (code : Array UInt8) (b : Block) : Effects :=
  if b.kind = .bytecodes then ofRange code b.start.toNat b.stop.toNat else {}

end Effects

/-- The live locals before and after each block, by handle. -/
structure Liveness where
  before : Array BitSet
  after : Array BitSet

namespace Liveness

/-- What is live before a block; none if the block was not there yet. -/
def liveIn? (l : Liveness) (id : BlockId) : Option BitSet := l.before[id.index]?

/-- What is live after a block; none if the block was not there yet. -/
def liveOut? (l : Liveness) (id : BlockId) : Option BitSet := l.after[id.index]?

/-- Whether a local is live before a block. -/
def isLiveIn (l : Liveness) (id : BlockId) (index : Nat) : Bool :=
  (l.liveIn? id).all (·.contains index)

/-- Whether a local is live after a block. -/
def isLiveOut (l : Liveness) (id : BlockId) (index : Nat) : Bool :=
  (l.liveOut? id).all (·.contains index)

/-- Bring one block up to date with its successors. -/
def update (l : Liveness) (id : BlockId) (successors : List BlockId) (e : Effects) : Liveness :=
  let after := successors.foldl (fun s t => s.union ((l.liveIn? t).getD .empty))
    ((l.liveOut? id).getD .empty)
  { before := l.before.setIfInBounds id.index ((after.diff e.writes).union e.reads)
    after := l.after.setIfInBounds id.index after }

/-- One pass over blocks. -/
def pass (rows : List (BlockId × List BlockId × Effects)) (l : Liveness) : Liveness :=
  rows.foldl (fun l (id, successors, e) => l.update id successors e) l

/-- Passes until nothing changes. Each pass but the last makes a local live before some block. -/
def solve (rows : List (BlockId × List BlockId × Effects)) : Nat → Liveness → Liveness
  | 0, l => l
  | rounds + 1, l =>
    let next := pass rows l
    if next.before == l.before then next else solve rows rounds next

/-- The number of locals that instructions can name. -/
def maxNamed : Nat := 65537

/-- The live locals of blocks in a given order. -/
def compute (blocks : Blocks) (order : List BlockId) (code : Array UInt8) : Liveness :=
  let rows := order.reverse.map fun id =>
    let b := blocks.block id
    (id, b.successors, Effects.ofBlock code b)
  let none := Array.replicate blocks.size BitSet.empty
  solve rows (blocks.size * maxNamed + 2) ⟨none, none⟩

end Liveness

end SeaOfNodes.Flow
