import SeaOfNodes.BitSet
import SeaOfNodes.Flow.Block

/-!
# The order of blocks, and loops

A depth-first walk from the start gives the reverse postorder: a block comes before the blocks it
leads to, back edges apart. A block that is reached again while the walk is still below it is the
header of a loop. A block belongs to a loop when it leads back to the header; a second walk,
repeated until nothing changes, completes the masks and finds the loops that each edge leaves.

A loop that can be entered past its header would make the start belong to it, and is a bailout.
-/

namespace SeaOfNodes.Flow

/-- The state of the walk that orders the blocks. -/
structure Ordering where
  blocks : Blocks
  /-- The headers found so far, by loop. -/
  headers : Array BlockId := #[]
  visited : BitSet := .empty
  /-- The visited blocks that the walk has not left yet. -/
  active : BitSet := .empty
  /-- The blocks that the walk has left, the latest first. -/
  order : List BlockId := []

/-- Steps of the walk, which may bail out. -/
abbrev OrderM := StateT Ordering (Except Bailout)

/-- The loops around a block that are seen from outside: its own loop apart. -/
def outerLoops (b : Block) : LoopMask :=
  if b.isLoopHeader then b.loops &&& ~~~(LoopMask.single b.loop) else b.loops

namespace Ordering

/-- The block of a handle. -/
def block (id : BlockId) : OrderM Block := return (← get).blocks.block id

/-- Change a block. -/
def modifyBlock (id : BlockId) (f : Block → Block) : OrderM Unit :=
  modify fun s => { s with blocks := s.blocks.modify id f }

/-- Make a block the header of a new loop, unless it is a header already. -/
def addHeader (limit : Nat) (id : BlockId) : OrderM Unit := do
  let b ← block id
  if b.isLoopHeader then return
  if b.isHandler then throw .loopFormedByExceptionHandler
  let loop := (← get).headers.size
  if limit ≤ loop then throw (.tooManyLoops limit)
  modifyBlock id fun b => { b with isLoopHeader := true, loop, loops := LoopMask.single loop }
  modify fun s => { s with headers := s.headers.push id }

/-- Walk from a block; gives the loops to which its predecessor belongs because of it. Each call
goes one block deeper, and a visited block is not entered again. -/
def visit (limit : Nat) : Nat → BlockId → OrderM LoopMask
  | 0, _ => return 0
  | fuel + 1, id => do
    let s ← get
    if s.visited.contains id.index then
      if s.active.contains id.index then
        addHeader limit id
        return (← block id).loops
      return outerLoops (s.blocks.block id)
    modify fun s =>
      { s with visited := s.visited.insert id.index, active := s.active.insert id.index }
    let loops ← (s.blocks.block id).successors.foldlM
      (fun loops successor => return loops ||| (← visit limit fuel successor)) 0
    modifyBlock id fun b => { b with loops }
    modify fun s => { s with active := s.active.erase id.index, order := id :: s.order }
    return outerLoops (← block id)

end Ordering

/-- The blocks with their loops, the headers, and the blocks in order. -/
def order (blocks : Blocks) (start : BlockId) (limit : Nat) : Except Bailout Ordering := do
  let (loops, s) ← (Ordering.visit limit (blocks.size + 1) start).run { blocks }
  if loops ≠ 0 then throw .nonReducibleLoop
  return s

/-! ### Completing the masks -/

/-- The state of a walk that completes the masks. -/
structure MaskWalk where
  blocks : Blocks
  visited : BitSet := .empty
  /-- Whether a mask has grown. -/
  changed : Bool := false

namespace MaskWalk

/-- Walk from a block; gives the loops to which its predecessor belongs because of it. -/
def visit : Nat → BlockId → StateM MaskWalk LoopMask
  | 0, _ => return 0
  | fuel + 1, id => do
    let s ← get
    let b := s.blocks.block id
    if s.visited.contains id.index then return outerLoops b
    set { s with visited := s.visited.insert id.index }
    let loops ← b.successors.foldlM
      (fun loops successor => return loops ||| (← visit fuel successor)) b.loops
    for successor in b.successors do
      modify fun s =>
        { s with
          blocks := s.blocks.modify successor fun t => { t with exits := loops &&& ~~~t.loops } }
    modify fun s =>
      { s with
        blocks := s.blocks.modify id fun b => { b with loops }
        changed := s.changed || (s.blocks.block id).loops != loops }
    return outerLoops ((← get).blocks.block id)

end MaskWalk

/-- Walk until no mask grows. Each round but the last adds a bit to one of the masks. -/
def completeMasks (start : BlockId) : Nat → Blocks → Except Bailout Blocks
  | 0, blocks => return blocks
  | rounds + 1, blocks => do
    let (loops, s) := (MaskWalk.visit (blocks.size + 1) start).run { blocks }
    if loops ≠ 0 then throw .nonReducibleLoop
    if s.changed then completeMasks start rounds s.blocks else return s.blocks

end SeaOfNodes.Flow
