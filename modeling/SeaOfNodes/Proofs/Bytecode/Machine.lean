import SeaOfNodes.Bytecode.Cursor
import SeaOfNodes.Method
import SeaOfNodes.Proofs.Graph.Evaluation

/-!
# The operand-stack machine

How straight-line code runs: locals and an operand stack of words, where a value of two slots is a word
with the value and an empty one above it, or after it among the locals. What the operators do is left to
an interpretation. The machine is stuck where a word that is needed is empty or not there.
-/

namespace SeaOfNodes

open Bytecode

/-- The kind and the bits of a number in a pool. -/
def PoolEntry.number? : PoolEntry → Option (Kind × Int64)
  | .int value => some (.int, value.toInt64)
  | .long value => some (.long, value)
  | .float bits => some (.float, bits.toUInt64.toInt64)
  | .double bits => some (.double, bits.toInt64)
  | _ => none

/-- How many words a rearrangement takes off the stack, and which of them it puts there instead; places
count from the top. -/
def Bytecode.Shuffle.places : Shuffle → Nat × List Nat
  | .pop => (1, [])
  | .pop2 => (2, [])
  | .dup => (1, [0, 0])
  | .dupX1 => (2, [0, 1, 0])
  | .dupX2 => (3, [0, 1, 2, 0])
  | .dup2 => (2, [0, 1, 0, 1])
  | .dup2X1 => (3, [0, 1, 2, 0, 1])
  | .dup2X2 => (4, [0, 1, 2, 3, 0, 1])
  | .swap => (2, [1, 0])

/-- The words of the machine. -/
structure Machine (α : Type) where
  locals : List (Option α)
  /-- The operand stack, top first. -/
  stack : List (Option α)

namespace Machine

variable {α : Type}

/-- Push a value of a kind. -/
def push (kind : Kind) (v : α) (w : Machine α) : Machine α :=
  { w with stack := if kind.isTwoSlot then none :: some v :: w.stack else some v :: w.stack }

/-- Pop a value of a kind. -/
def pop (kind : Kind) (w : Machine α) : Option (α × Machine α) :=
  match kind.isTwoSlot, w.stack with
  | true, none :: some v :: rest => some (v, { w with stack := rest })
  | false, some v :: rest => some (v, { w with stack := rest })
  | _, _ => none

/-- The value of a local. -/
def load (index : Nat) (w : Machine α) : Option α := (w.locals[index]?).join

/-- Write a value of a kind to a local. -/
def store (kind : Kind) (index : Nat) (v : α) (w : Machine α) : Option (Machine α) :=
  if index + kind.slotCount ≤ w.locals.length then
    let locals := w.locals.set index (some v)
    some { w with locals := if kind.isTwoSlot then locals.set (index + 1) none else locals }
  else none

/-- Rearrange the words on top of the stack. -/
def shuffle (s : Shuffle) (w : Machine α) : Option (Machine α) :=
  let (count, places) := s.places
  if count ≤ w.stack.length then
    (places.mapM (w.stack[·]?)).map fun words => { w with stack := words ++ w.stack.drop count }
  else none

/-- Run an instruction that computes. -/
def step (I : Interpretation α) (pool : Pool) (c : Cursor) (w : Machine α) : Option (Machine α) :=
  match c.form? with
  | some .nop => some w
  | some (.constant kind bits) => some (w.push kind (I.constant kind bits))
  | some .pushByte => some (w.push .int (I.constant .int c.signedByte.toInt64))
  | some .pushShort => some (w.push .int (I.constant .int c.signedShort.toInt64))
  | some (.loadConstant twoBytes) => do
    let entry ← pool.get? (if twoBytes then c.poolIndex.toNat else c.byte.toNat)
    let (kind, bits) ← entry.number?
    some (w.push kind (I.constant kind bits))
  | some (.load kind slot) => (w.load (slot.getD c.localIndex)).map (w.push kind)
  | some (.store kind slot) => do
    let (v, w) ← w.pop kind
    w.store kind (slot.getD c.localIndex) v
  | some (.shuffle s) => w.shuffle s
  | some (.arith op kind) => do
    let (y, w) ← w.pop kind
    let (x, w) ← w.pop kind
    some (w.push kind (I.binary op kind x y))
  | some (.shift op kind) => do
    let (y, w) ← w.pop .int
    let (x, w) ← w.pop kind
    some (w.push kind (I.binary op kind x y))
  | some (.negate kind) => do
    let (x, w) ← w.pop kind
    some (w.push kind (I.negate kind x))
  | some .increment => do
    let x ← w.load c.localIndex
    w.store .int c.localIndex (I.binary .add .int x (I.constant .int c.delta.toInt64))
  | some (.convert source target) => do
    let (x, w) ← w.pop source
    some (w.push target (I.convert source target x))
  | some (.compare kind unorderedIsLess) => do
    let (y, w) ← w.pop kind
    let (x, w) ← w.pop kind
    some (w.push .int (I.compare kind unorderedIsLess x y))
  | _ => none

/-- Return a value of a kind, or nothing. -/
def leave (kind : Option Kind) (w : Machine α) : Option (Option α) :=
  match kind with
  | none => some none
  | some kind => (w.pop kind).map fun r => some r.1

/-- Run instructions up to a return; gives the value that is returned, if the return has one. -/
def run (I : Interpretation α) (pool : Pool) : List Cursor → Machine α → Option (Option α)
  | [], _ => none
  | c :: rest, w =>
    match c.form? with
    | some (.methodReturn kind) => w.leave kind
    | _ => (step I pool c w).bind (run I pool rest)

/-- Put the arguments into the locals from `slot` on; `index` counts them. -/
def place (I : Interpretation α) : List Kind → Nat → Nat → List (Option α) → List (Option α)
  | [], _, _, locals => locals
  | kind :: rest, index, slot, locals =>
    place I rest (index + 1) (slot + kind.slotCount)
      (locals.set slot (some (I.parameter (Int32.ofNat index) kind.onStack)))

/-- The machine on entry to a method: the receiver, then the parameters. -/
def entry (I : Interpretation α) (m : Method) : Machine α where
  locals := place I (if m.isStatic then m.parameters else .object :: m.parameters) 0 0
    (List.replicate m.maxLocals none)
  stack := []

end Machine

/-- What a method returns; none if its code does not run to a return. -/
def Method.execute {α : Type} (I : Interpretation α) (m : Method) : Option (Option α) :=
  Machine.run I m.pool (instructions m.code) (.entry I m)

end SeaOfNodes
