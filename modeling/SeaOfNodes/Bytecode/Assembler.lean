import SeaOfNodes.Bytecode.Opcode

/-!
# Assembling code

Code is written instruction by instruction, each in its shortest form. Branches go to labels, which
may be bound before or after they are used: a branch leaves room for its offset, and `finish` fills
in the distances.
-/

namespace SeaOfNodes.Bytecode

/-- The place of a branch offset that waits for its label. -/
structure LabelUse where
  /-- Where the branching instruction starts; offsets count from there. -/
  bci : Nat
  /-- Where the offset is written. -/
  place : Nat
  /-- Four bytes instead of two. -/
  far : Bool
  label : Nat
deriving Repr

/-- Code under construction. -/
structure Assembler where
  code : Array UInt8 := #[]
  /-- The number of labels created. -/
  labels : Nat := 0
  /-- Where labels are bound, the latest binding first. -/
  bound : List (Nat × Nat) := []
  /-- The uses of labels, in the order of their offsets. -/
  uses : Array LabelUse := #[]

/-- Why code cannot be finished. -/
inductive AssemblyError
  | unboundLabel (label : Nat)
  | farBranch (offset : Int)
deriving DecidableEq, Repr

/-- The wording of an assembly error. -/
def AssemblyError.message : AssemblyError → String
  | .unboundLabel label => s!"unbound label Label({label})"
  | .farBranch offset => s!"branch offset {offset} needs goto_w"

/-- A two-byte number, high byte first. -/
def shortBytes (n : UInt16) : List UInt8 := [(n >>> 8).toUInt8, n.toUInt8]

/-- A four-byte number, high byte first. -/
def wordBytes (n : UInt32) : List UInt8 :=
  [(n >>> 24).toUInt8, (n >>> 16).toUInt8, (n >>> 8).toUInt8, n.toUInt8]

namespace Assembler

/-- Where the next instruction starts. -/
def bci (a : Assembler) : Nat := a.code.size

/-- A new label; its number is `a.labels`. -/
def createLabel (a : Assembler) : Assembler := { a with labels := a.labels + 1 }

/-- Bind a label here. A later binding replaces an earlier one. -/
def bind (a : Assembler) (label : Nat) : Assembler :=
  { a with bound := (label, a.bci) :: a.bound }

/-- Append bytes. -/
def bytes (a : Assembler) (bs : List UInt8) : Assembler := { a with code := a.code ++ bs }

/-- An instruction without operands. -/
def emit (a : Assembler) (opcode : UInt8) : Assembler := a.bytes [opcode]

/-- An instruction with a one-byte operand. -/
def emitByte (a : Assembler) (opcode operand : UInt8) : Assembler := a.bytes [opcode, operand]

/-- An instruction with a two-byte operand. -/
def emitShort (a : Assembler) (opcode : UInt8) (operand : UInt16) : Assembler :=
  a.bytes (opcode :: shortBytes operand)

/-- The opcode of the `wide` modifier. -/
def wideOpcode : UInt8 := 196

/-- The opcode of an increment. -/
def incrementOpcode : UInt8 := 132

/-- A local load or store, widened if the index needs it. -/
def emitLocal (a : Assembler) (opcode : UInt8) (index : UInt16) : Assembler :=
  if index < 256 then a.emitByte opcode index.toUInt8
  else a.bytes (wideOpcode :: opcode :: shortBytes index)

/-- An increment of a local, widened if the index or the amount needs it. -/
def emitIncrement (a : Assembler) (index : UInt16) (delta : Int16) : Assembler :=
  if index < 256 && -128 ≤ delta && delta ≤ 127 then
    a.bytes [incrementOpcode, index.toUInt8, delta.toInt8.toUInt8]
  else a.bytes (wideOpcode :: incrementOpcode :: shortBytes index ++ shortBytes delta.toUInt16)

/-- An int constant in its shortest form: by opcode from -1 to 5, else in one byte, else in two. -/
def emitInt (a : Assembler) (value : Int32) : Assembler :=
  if -1 ≤ value && value ≤ 5 then a.emit (3 + value.toInt8.toUInt8)
  else if -128 ≤ value && value ≤ 127 then a.emitByte 16 value.toInt8.toUInt8
  else a.emitShort 17 value.toInt16.toUInt16

/-- Room for the offset of a label, counted from `bci`. -/
def use (a : Assembler) (bci : Nat) (far : Bool) (label : Nat) : Assembler :=
  { a with
    uses := a.uses.push ⟨bci, a.code.size, far, label⟩
    code := a.code ++ List.replicate (if far then 4 else 2) (0 : UInt8) }

/-- A branch to a label. Far jumps and calls have a four-byte offset. -/
def emitBranch (a : Assembler) (opcode : UInt8) (label : Nat) : Assembler :=
  let far := form? opcode == some (.jump true) || form? opcode == some (.call true)
  (a.emit opcode).use a.bci far label

/-- The opcode of a switch, padded to a multiple of four. -/
def beginSwitch (a : Assembler) (opcode : UInt8) : Assembler :=
  a.bytes (opcode :: List.replicate (3 - a.bci % 4) 0)

/-- A word of data. -/
def emitWord (a : Assembler) (value : Int32) : Assembler := a.bytes (wordBytes value.toUInt32)

/-- A switch over consecutive keys from `low` on. -/
def emitTableSwitch (a : Assembler) (low : Int32) (default : Nat) (targets : List Nat) :
    Assembler :=
  let high := low + Int32.ofNat targets.length - 1
  let head := ((a.beginSwitch 170).use a.bci true default |>.emitWord low).emitWord high
  targets.foldl (fun acc target => acc.use a.bci true target) head

/-- A switch over listed keys. -/
def emitLookupSwitch (a : Assembler) (default : Nat) (cases : List (Int32 × Nat)) : Assembler :=
  let head := ((a.beginSwitch 171).use a.bci true default).emitWord (Int32.ofNat cases.length)
  cases.foldl (fun acc c => (acc.emitWord c.1).use a.bci true c.2) head

/-- Overwrite bytes from a place on. -/
def overwrite (code : Array UInt8) (place : Nat) : List UInt8 → Array UInt8
  | [] => code
  | b :: bs => overwrite (code.setIfInBounds place b) (place + 1) bs

/-- Fill in the offset of one use of a label. -/
def patch (bound : List (Nat × Nat)) (code : Array UInt8) (use : LabelUse) :
    Except AssemblyError (Array UInt8) :=
  match bound.lookup use.label with
  | none => .error (.unboundLabel use.label)
  | some target =>
    let offset : Int := target - use.bci
    if use.far then .ok (overwrite code use.place (wordBytes (Int32.ofInt offset).toUInt32))
    else if -32768 ≤ offset && offset ≤ 32767 then
      .ok (overwrite code use.place (shortBytes (Int16.ofInt offset).toUInt16))
    else .error (.farBranch offset)

/-- The finished code, every offset filled in. -/
def finish (a : Assembler) : Except AssemblyError (Array UInt8) :=
  a.uses.toList.foldlM (patch a.bound) a.code

end Assembler

end SeaOfNodes.Bytecode
