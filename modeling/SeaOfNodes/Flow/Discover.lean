import SeaOfNodes.Bytecode.Check
import SeaOfNodes.Flow.Block
import SeaOfNodes.Method
import SeaOfNodes.Options

/-!
# Finding blocks

The instructions are read once, in order. A block ends where control may go elsewhere: at branches,
returns, throws and calls, and at instructions that may raise an exception which some handler
catches. A branch into a block that was read already splits it in two.

An exception raised at an instruction goes through a chain of dispatch blocks, one per handler that
covers the instruction. Chains with a common end share it.
-/

namespace SeaOfNodes.Flow

/-- The blocks found so far. -/
structure Discovery where
  blocks : Blocks := .empty
  /-- The block of each byte of the code, as far as known. -/
  blockAt : Array (Option BlockId)
  /-- Dispatch blocks by what follows them in the chain and by their handler. -/
  chains : List ((Option BlockId × Nat) × BlockId) := []
  /-- Whether a subroutine is called. -/
  hasSubroutines : Bool := false

/-- Steps of the search, which may bail out. -/
abbrev DiscoverM := StateT Discovery (Except Bailout)

namespace Discovery

/-- The block of a handle. -/
def block (id : BlockId) : DiscoverM Block := return (← get).blocks.block id

/-- Change a block. -/
def modifyBlock (id : BlockId) (f : Block → Block) : DiscoverM Unit :=
  modify fun d => { d with blocks := d.blocks.modify id f }

/-- Add a block. -/
def addBlock (b : Block) : DiscoverM BlockId :=
  modifyGet fun d => (d.blocks.next, { d with blocks := d.blocks.push b })

/-- The block at a bci, as far as known. -/
def blockAt? (bci : Nat) : DiscoverM (Option BlockId) := return ((← get).blockAt[bci]?).join

/-- Say which block a bci belongs to. -/
def assign (bci : Nat) (id : BlockId) : DiscoverM Unit :=
  modify fun d => { d with blockAt := d.blockAt.setIfInBounds bci (some id) }

/-- Split a block in two at a bci. What follows the end of the block goes with the second part, to
which the first one leads. -/
def split (id : BlockId) (bci : Nat) : DiscoverM BlockId := do
  let head ← block id
  let tail ← addBlock
    { Block.startingAt bci .bytecodes with
      stop := head.stop
      successors := head.successors
      callee := head.callee
      returnBci := head.returnBci
      endsSubroutine := head.endsSubroutine }
  modifyBlock id fun b =>
    { b with
      stop := bci - 1
      successors := [tail]
      callee := none
      returnBci := 0
      endsSubroutine := false }
  for offset in List.range (head.stop - bci + 1).toNat do assign (bci + offset) tail
  return tail

/-- The block that starts at a bci. -/
def blockFrom (bci : Nat) : DiscoverM BlockId := do
  match ← blockAt? bci with
  | none =>
    let id ← addBlock (.startingAt bci .bytecodes)
    assign bci id
    return id
  | some id =>
    if (← block id).start = bci then return id
    split id bci

/-- Let control go from the block at a bci to another block. -/
def connect (bci : Nat) (successor : BlockId) : DiscoverM Unit := do
  if (← block successor).isHandler then throw .handlerReachedByNormalFlow
  match ← blockAt? bci with
  | some id => modifyBlock id fun b => { b with successors := b.successors ++ [successor] }
  | none => throw (.malformed (.noBlock bci))

/-- Let control go from the block at a bci to where another bci is. -/
def connectTo (bci target : Nat) : DiscoverM Unit := do connect bci (← blockFrom target)

/-- A branch target as a bci. -/
def targetBci (target : Int) : DiscoverM Nat :=
  if target < 0 then throw (.malformed (.negativeTarget target)) else return target.toNat

/-! ### Exception dispatch -/

/-- A start for each exception handler. -/
def addHandlers (handlers : List Handler) (starts : BitSet) : DiscoverM Unit := do
  let size := (← get).blockAt.size
  for h in handlers do
    if h.stop ≤ h.start || size < h.stop || !starts.contains h.entry then
      throw (.malformed (.handlerRange h.start h.stop h.entry))
    let id ← blockFrom h.entry
    modifyBlock id fun b => { b with isHandler := true }

/-- The dispatch block of a handler in front of the rest of a chain. -/
def link (handler : Nat) (h : Handler) (bci : Nat) (rest : Option BlockId) : DiscoverM BlockId := do
  match (← get).chains.lookup (rest, handler) with
  | some id => return id
  | none =>
    let entry ← blockAt? h.entry
    let id ← addBlock
      { Block.startingAt (-1) (.dispatch handler bci) with
        successors := entry.toList ++ rest.toList }
    modify fun d => { d with chains := ((rest, handler), id) :: d.chains }
    return id

/-- The chain of the handlers, the last one first, that cover a bci. A handler that catches
everything ends the chain. -/
def linkAll (bci : Nat) : List (Handler × Nat) → Option BlockId → DiscoverM (Option BlockId)
  | [], chain => return chain
  | (h, index) :: others, chain => do
    if h.covers bci then
      let rest := if h.isCatchAll then none else chain
      linkAll bci others (some (← link index h bci rest))
    else linkAll bci others chain

/-- Where an exception raised at a bci goes first; none if no handler is entered. -/
def dispatch (options : Options) (handlers : List Handler) (bci : Nat) :
    DiscoverM (Option BlockId) :=
  if options.omitExceptionEdges then return none
  else linkAll bci handlers.zipIdx.reverse none

/-- Let an exception raised at a bci go to where it is handled. -/
def connectDispatch (options : Options) (handlers : List Handler) (bci : Nat) : DiscoverM Unit := do
  if let some id := ← dispatch options handlers bci then connect bci id

/-! ### Instructions -/

/-- Put a number in its place among ascending numbers, unless it is there. -/
def insertAscending (n : Nat) : List Nat → List Nat
  | [] => [n]
  | m :: rest =>
    if n < m then n :: m :: rest else if n = m then m :: rest else m :: insertAscending n rest

/-- The targets of a switch: those of the cases, ascending and each once, then the default's unless
it is one of them. -/
def switchTargets (s : Bytecode.SwitchTable) : DiscoverM (List Nat) := do
  let targets ← s.cases.mapM fun (_, target) => targetBci target
  let targets := targets.foldr insertAscending []
  let default ← targetBci s.default
  return if targets.contains default then targets else targets ++ [default]

/-- Let control go on from an instruction that is the last of its block `id`; tells whether it is.
-/
def leave (m : Method) (options : Options) (c : Bytecode.Cursor) (id : BlockId) :
    DiscoverM Bool := do
  let some form := c.form? | return false
  match form with
  | .methodReturn _ => return true
  | .throw =>
    connectDispatch options m.handlers c.bci
    return true
  | .branch .. | .branchNull _ =>
    let target ← blockFrom (← targetBci c.target)
    let next ← blockFrom c.next
    connect c.bci target
    connect c.bci next
    return true
  | .jump _ =>
    connectTo c.bci (← targetBci c.target)
    return true
  | .tableSwitch | .lookupSwitch =>
    if let some s := c.switch? then
      for target in ← switchTargets s do connectTo c.bci target
    return true
  | .call _ =>
    modify fun d => { d with hasSubroutines := true }
    let target ← targetBci c.target
    if target = 0 then throw (.subroutine .targetZero)
    let callee ← blockFrom target
    if let some owner := ← blockAt? c.bci then
      modifyBlock owner fun b => { b with callee := some callee, returnBci := c.next }
    connect c.bci callee
    return true
  | .ret =>
    modifyBlock id fun b => { b with endsSubroutine := true }
    return true
  | .invoke _ | .invokeDynamic =>
    connectTo c.bci c.next
    connectDispatch options m.handlers c.bci
    return true
  | _ =>
    if form.canTrap then
      if let some handler := ← dispatch options m.handlers c.bci then
        connectTo c.bci c.next
        connect c.bci handler
        return true
    return false

/-- The block of the next instruction: the open one, or a new one to which the open one leads. -/
def blockOf (current : Option BlockId) (bci : Nat) : DiscoverM BlockId := do
  match current, ← blockAt? bci with
  | some id, none => return id
  | _, _ =>
    let id ← blockFrom bci
    if let some previous := current then connect (← block previous).stop.toNat id
    return id

/-- Read instructions; `current` is the open block. -/
def scan (m : Method) (options : Options) : List Bytecode.Cursor → Option BlockId → DiscoverM Unit
  | [], _ => return
  | c :: rest, current => do
    let id ← blockOf current c.bci
    assign c.bci id
    modifyBlock id fun b => { b with stop := c.bci }
    let closed ← leave m options c id
    scan m options rest (if closed then none else some id)

end Discovery

/-- The blocks of a method. -/
def discover (m : Method) (options : Options) : Except Bailout Discovery := do
  let starts ← Bytecode.check m.code
  let search : DiscoverM Unit := do
    Discovery.addHandlers m.handlers starts
    Discovery.scan m options (Bytecode.instructions m.code) none
  let (_, d) ← search.run { blockAt := Array.replicate m.code.size none }
  return d

end SeaOfNodes.Flow
