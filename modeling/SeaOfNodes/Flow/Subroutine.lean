import SeaOfNodes.Flow.Discover

/-!
# Inlining subroutines

A block of a subroutine is copied once per scope in which it is reached, so that the return at the
end of a subroutine leads to one block only. Blocks outside subroutines are not copied.
-/

namespace SeaOfNodes.Flow

/-- The blocks and copies made so far. -/
structure Inlining where
  blocks : Blocks
  /-- The blocks that were dealt with. -/
  visited : BitSet := .empty
  /-- The copies, by block and scope. -/
  copies : List ((BlockId × Scope) × BlockId) := []

/-- Steps of inlining, which may bail out. -/
abbrev InlineM := StateT Inlining (Except Bailout)

namespace Inlining

/-- The block of a handle. -/
def block (id : BlockId) : InlineM Block := return (← get).blocks.block id

/-- Change a block. -/
def modifyBlock (id : BlockId) (f : Block → Block) : InlineM Unit :=
  modify fun s => { s with blocks := s.blocks.modify id f }

/-- The copy of a block for a scope. -/
def copyFor (id : BlockId) (scope : Scope) : InlineM BlockId := do
  let s ← get
  match s.copies.lookup (id, scope) with
  | some copy => return copy
  | none =>
    let copy := s.blocks.next
    set { s with
      blocks := s.blocks.push { s.blocks.block id with scope }
      copies := ((id, scope), copy) :: s.copies }
    return copy

/-- Let a return from a subroutine lead to where the innermost call continues. -/
def addContinuation (blockAt : Array (Option BlockId)) (id : BlockId) (scope : Scope) :
    InlineM Unit := do
  if scope.isEmpty then throw (.subroutine .outside)
  match (blockAt[scope.returnAddress]?).join with
  | none => throw (.subroutine .unknownReturn)
  | some target =>
    modifyBlock id fun b =>
      { b with continuation := some target, successors := b.successors ++ [target] }

/-- The scope of a successor of a block. -/
def scopeAfter (b : Block) (successor : BlockId) : InlineM Scope := do
  let entered ← if b.callee = some successor then b.scope.push b.returnBci else pure b.scope
  return if b.continuation = some successor then b.scope.pop else entered

/-- Lead one successor of a block to its copy for the scope in which it is reached. -/
def retarget (id : BlockId) (place : Nat) : InlineM Unit := do
  let b ← block id
  let some successor := b.successors[place]? | return
  let scope ← scopeAfter b successor
  let own := (← block successor).scope
  if !own.isWithin scope then throw (.subroutine (.unstructured own.text scope.text))
  if scope.isEmpty then return
  let copy ← copyFor successor scope
  modifyBlock id fun b =>
    { b with
      successors := b.successors.set place copy
      callee := if b.callee = some successor then some copy else b.callee
      continuation := if b.continuation = some successor then some copy else b.continuation }

/-- Mark a block as dealt with and complete it if it returns. The result is the places of the successors that
are to be led to copies. -/
def enter (blockAt : Array (Option BlockId)) (id : BlockId) : InlineM (List Nat) := do
  modify fun s => { s with visited := s.visited.insert id.index }
  let b ← block id
  if b.endsSubroutine then addContinuation blockAt id b.scope
  if b.callee.isSome || !b.scope.isEmpty then return List.range (← block id).successors.length
  return []

/-- Deal with a block and with what is reached from it. Each call goes one block deeper. -/
def visit (blockAt : Array (Option BlockId)) : Nat → BlockId → InlineM Unit
  | 0, _ => return
  | fuel + 1, id => do
    for place in ← enter blockAt id do retarget id place
    for successor in (← block id).successors do
      if !(← get).visited.contains successor.index then visit blockAt fuel successor

/-- More than the number of blocks that copying can make of `n`: a copy of a copy has more bits in
its scope, and a block is copied once per scope. -/
def depthBound (n : Nat) : Nat := n * (UInt64.size + 1).pow 65 + 1

end Inlining

/-- The blocks with the subroutines inlined that are called from `start` on. -/
def inlineSubroutines (d : Discovery) (start : BlockId) : Except Bailout Blocks := do
  let fuel := Inlining.depthBound d.blocks.size
  let (_, s) ← (Inlining.visit d.blockAt fuel start).run { blocks := d.blocks }
  return s.blocks

end SeaOfNodes.Flow
