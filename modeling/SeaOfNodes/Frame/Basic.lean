import SeaOfNodes.BitSet
import SeaOfNodes.Graph.Register
import SeaOfNodes.Method

/-!
# Frames

A frame is what is known of the locals and the operand stack at a point of a method: for each slot
the node that computes its value, and the kind of that value. A value of two slots stands in the
lower one and leaves the upper one empty.

Popping may bail out. The slots popped before that stay popped.
-/

namespace SeaOfNodes

/-- A value in a slot. -/
structure Slot where
  node : NodeId
  /-- The kind that the value has on the stack. -/
  kind : Kind
deriving DecidableEq, Repr

/-- A node as a value of a kind. -/
def Slot.of (node : NodeId) (kind : Kind) : Slot := ⟨node, kind.onStack⟩

/-- The locals and the operand stack at a point of a method. -/
structure Frame where
  /-- The method, in words. -/
  method : String
  locals : List (Option Slot)
  /-- The operand stack, top first. -/
  stack : List (Option Slot)
  /-- Whether the value on top is an exception that is being raised again. -/
  rethrow : Bool
deriving DecidableEq, Repr

/-- Operations on a frame, which may bail out. -/
abbrev FrameM := ExceptT Bailout (StateM Frame)

namespace Frame

/-- The value of a local. -/
def localAt? (f : Frame) (index : Nat) : Option Slot := (f.locals[index]?).join

/-- The slot at a depth below the top of the stack. -/
def peek? (f : Frame) (depth : Nat) : Option Slot := (f.stack[depth]?).join

/-- Whether a slot holds a node. -/
def contains (f : Frame) (id : NodeId) : Bool :=
  (f.locals ++ f.stack).any fun slot => slot.any (·.node = id)

/-! ### The operand stack -/

/-- Push a slot. -/
def pushSlot (slot : Option Slot) (f : Frame) : Frame := { f with stack := slot :: f.stack }

/-- Push a value of a kind. -/
def push (kind : Kind) (id : NodeId) (f : Frame) : Frame :=
  let f := f.pushSlot (some (Slot.of id kind))
  if kind.isTwoSlot then f.pushSlot none else f

/-- Pop a slot. -/
def popSlot : FrameM (Option Slot) := do
  let f ← get
  match f.stack with
  | slot :: rest =>
    set { f with stack := rest }
    return slot
  | [] => throw (.malformed .stackUnderflow)

/-- Pop a value of a kind. -/
def pop (kind : Kind) : FrameM NodeId := do
  let kind := kind.onStack
  if kind.isTwoSlot then
    if (← popSlot).isSome then throw (.malformed (.missingUpperHalf kind))
  match ← popSlot with
  | some slot =>
    if slot.kind = kind then return slot.node
    throw (.malformed (.wrongOnStack kind (some slot.kind)))
  | none => throw (.malformed (.wrongOnStack kind none))

/-- Pop values of several kinds, the last kind first; gives them in the order of the kinds. -/
def popAll (kinds : List Kind) : FrameM (List NodeId) :=
  return (← kinds.reverse.mapM pop).reverse

/-- Empty the operand stack. -/
def clearStack (f : Frame) : Frame := { f with stack := [] }

/-! ### Locals -/

/-- The node in a local that must hold a value of a kind. -/
def load (f : Frame) (index : Nat) (kind : Kind) : Except Bailout NodeId :=
  let kind := kind.onStack
  match f.localAt? index with
  | some slot =>
    if slot.kind = kind then .ok slot.node
    else .error (.malformed (.wrongInLocal index kind (some slot.kind)))
  | none => .error (.malformed (.wrongInLocal index kind none))

/-- Write a local. A value of two slots empties the next local; a value in place of the upper half
of another one empties its lower half. -/
def store (f : Frame) (index : Nat) (slot : Option Slot) : Except Bailout Frame :=
  let twoSlot := slot.any (·.kind.isTwoSlot)
  let last := if twoSlot then index + 1 else index
  if f.locals.length ≤ last then .error (.malformed (.localRange last))
  else
    let splits := slot.isSome && 0 < index && (f.localAt? (index - 1)).any (·.kind.isTwoSlot)
    let locals := if splits then f.locals.set (index - 1) none else f.locals
    let locals := locals.set index slot
    .ok { f with locals := if twoSlot then locals.set (index + 1) none else locals }

/-- Empty the locals that are not live. -/
def clearDead (f : Frame) (live : BitSet) : Frame :=
  { f with locals := f.locals.zipIdx.map fun (slot, index) =>
      if live.contains index then slot else none }

/-! ### Whole frames -/

/-- The frame that an exception handler sees: the same locals, and only the exception on the stack
if one is given. -/
def withException (f : Frame) (exception : Option NodeId) : Frame :=
  let f := f.clearStack
  match exception with
  | some id => { f.push .object id with rethrow := true }
  | none => f

/-- Put the parameters into the locals from `slot` on; `index` counts them. -/
def placeParameters : List Kind → Nat → Nat → List (Option Slot) → GraphM (List (Option Slot))
  | [], _, _, locals => return locals
  | kind :: rest, index, slot, locals => do
    let id ← Graph.intern (.parameter (Int32.ofNat index) kind.onStack)
    if locals.length ≤ slot then Graph.fail .outOfRange
    placeParameters rest (index + 1) (slot + kind.slotCount) (locals.set slot (some (.of id kind)))

/-- The frame on entry to a method: the receiver, then the parameters. -/
def entry (m : Method) : GraphM Frame := do
  let kinds := if m.isStatic then m.parameters else .object :: m.parameters
  let locals ← placeParameters kinds 0 0 (List.replicate m.maxLocals none)
  return ⟨m.qualifiedName, locals, [], false⟩

/-- Register the frame as a node. -/
def materialize (f : Frame) (bci : Int32) : GraphM NodeId :=
  let nodes (slots : List (Option Slot)) := slots.map fun slot => slot.map (·.node)
  Graph.add (.frameState f.method bci (nodes f.locals) (nodes f.stack.reverse) f.rethrow)

end Frame

end SeaOfNodes
