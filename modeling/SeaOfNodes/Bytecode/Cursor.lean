import SeaOfNodes.Bytecode.Opcode

/-!
# Reading code

Code is an array of bytes; a bytecode index (bci) is a position in it. A cursor stands at one
instruction and reads its operands. The `wide` modifier belongs to the instruction it stands before:
the cursor reports the widened opcode and reads the wide operands.

Reading never fails. A byte past the end reads as zero, and so does a four-byte word of which any
byte is missing.
-/

namespace SeaOfNodes.Bytecode

/-- The byte at a position, zero past the end. -/
def byteAt (code : Array UInt8) (pos : Nat) : UInt8 := code.getD pos 0

/-- The two bytes at a position, the first one high. -/
def shortAt (code : Array UInt8) (pos : Nat) : UInt16 :=
  (byteAt code pos).toUInt16 <<< 8 ||| (byteAt code (pos + 1)).toUInt16

/-- The four bytes at a position as a signed word, if all of them are there. -/
def word? (code : Array UInt8) (pos : Nat) : Option Int32 :=
  if pos + 4 ≤ code.size then
    some ((shortAt code pos).toUInt32 <<< 16 ||| (shortAt code (pos + 2)).toUInt32).toInt32
  else none

/-- The word at a position, zero if it is not all there. -/
def wordAt (code : Array UInt8) (pos : Nat) : Int32 := (word? code pos).getD 0

/-- Where the operands of a switch start: at the next multiple of four. -/
def switchOperands (bci : Nat) : Nat := (bci + 4) / 4 * 4

/-- The length of the instruction at `bci`; none if its opcode is undefined, if it is no proper
switch or `wide` form, or if it runs past the end. -/
def length? (code : Array UInt8) (bci : Nat) : Option Nat := do
  let info ← opcodeInfo? (← code[bci]?)
  let length ← match info.form with
    | .tableSwitch => do
      let low ← word? code (switchOperands bci + 4)
      let high ← word? code (switchOperands bci + 8)
      if high < low then none
      else some (switchOperands bci - bci + 12 + 4 * (high.toInt - low.toInt + 1).toNat)
    | .lookupSwitch => do
      let pairs ← word? code (switchOperands bci + 4)
      if pairs < 0 then none
      else some (switchOperands bci - bci + 8 + 8 * pairs.toInt.toNat)
    | .wide => do
      match ← form? (← code[bci + 1]?) with
      | .increment => some 6
      | form => if form.isWidenable then some 4 else none
    | _ => some info.length
  if bci + length ≤ code.size then some length else none

/-! ### Switches -/

/-- The operands of the switch at `bci`. -/
structure SwitchTable where
  code : Array UInt8
  bci : Nat
  /-- Consecutive keys instead of listed ones. -/
  isTable : Bool

namespace SwitchTable

/-- The switch at `bci`, if there is one. -/
def at? (code : Array UInt8) (bci : Nat) : Option SwitchTable := do
  match ← form? (← code[bci]?) with
  | .tableSwitch => some ⟨code, bci, true⟩
  | .lookupSwitch => some ⟨code, bci, false⟩
  | _ => none

/-- The operand word at a distance from the first one. -/
def word (s : SwitchTable) (offset : Nat) : Int32 := wordAt s.code (switchOperands s.bci + offset)

/-- Where control goes if no case applies. -/
def default (s : SwitchTable) : Int := s.bci + (s.word 0).toInt

/-- The number of cases. -/
def size (s : SwitchTable) : Nat :=
  if s.isTable then ((s.word 8).toInt - (s.word 4).toInt + 1).toNat else (s.word 4).toInt.toNat

/-- The key of case `i`. -/
def key (s : SwitchTable) (i : Nat) : Int32 :=
  if s.isTable then s.word 4 + Int32.ofNat i else s.word (8 + 8 * i)

/-- Where control goes in case `i`. -/
def target (s : SwitchTable) (i : Nat) : Int :=
  s.bci + (if s.isTable then s.word (12 + 4 * i) else s.word (12 + 8 * i)).toInt

/-- The keys and targets of the first `n` cases. -/
def take (s : SwitchTable) (n : Nat) : List (Int32 × Int) :=
  (List.range (min n s.size)).map fun i => (s.key i, s.target i)

/-- The keys and targets of all cases, in order. -/
def cases (s : SwitchTable) : List (Int32 × Int) := s.take s.size

end SwitchTable

/-! ### Cursors -/

/-- A position at one instruction. -/
structure Cursor where
  code : Array UInt8
  /-- Where the instruction starts. -/
  bci : Nat
  /-- Where the next one starts. -/
  next : Nat
  /-- The opcode, widened if `wide`; none past the end. -/
  opcode : Option UInt8
  /-- Whether a `wide` modifier stands before the opcode. -/
  wide : Bool

namespace Cursor

/-- The cursor at `bci`. A position without an instruction is followed by the end of the code. -/
def seek (code : Array UInt8) (bci : Nat) : Cursor :=
  let wide := (code[bci]?.bind form?) == some .wide
  { code, bci, wide
    next := match length? code bci with
      | some length => bci + length
      | none => max code.size (bci + 1)
    opcode := if wide then code[bci + 1]? else code[bci]? }

/-- The cursor at the next instruction. -/
def advance (c : Cursor) : Cursor := seek c.code c.next

/-- The form of the instruction. -/
def form? (c : Cursor) : Option Form := c.opcode.bind Bytecode.form?

/-- The mnemonic of the instruction. -/
def mnemonic (c : Cursor) : String := Bytecode.mnemonic (c.opcode.getD 255)

/-- The index of a local variable. -/
def localIndex (c : Cursor) : Nat :=
  if c.wide then (shortAt c.code (c.bci + 2)).toNat else (byteAt c.code (c.bci + 1)).toNat

/-- The amount of an increment. -/
def delta (c : Cursor) : Int32 :=
  if c.wide then (shortAt c.code (c.bci + 4)).toInt16.toInt32
  else (byteAt c.code (c.bci + 2)).toInt8.toInt32

/-- The signed byte operand. -/
def signedByte (c : Cursor) : Int32 := (byteAt c.code (c.bci + 1)).toInt8.toInt32

/-- The unsigned byte operand. -/
def byte (c : Cursor) : UInt8 := byteAt c.code (c.bci + 1)

/-- The signed two-byte operand. -/
def signedShort (c : Cursor) : Int32 := (shortAt c.code (c.bci + 1)).toInt16.toInt32

/-- The two-byte operand that names a pool entry. -/
def poolIndex (c : Cursor) : UInt16 := shortAt c.code (c.bci + 1)

/-- The target of a four-byte offset. -/
def farTarget (c : Cursor) : Int := c.bci + (wordAt c.code (c.bci + 1)).toInt

/-- The target of a branch: far jumps and calls have a four-byte offset, all others two bytes. -/
def target (c : Cursor) : Int :=
  match c.form? with
  | some (.jump true) | some (.call true) => c.farTarget
  | _ => c.bci + c.signedShort.toInt

/-- The switch at this position. -/
def switch? (c : Cursor) : Option SwitchTable := SwitchTable.at? c.code c.bci

/-- Where an instruction may send control other than to the next one: the target of a branch, jump
or call, or the default and the cases of a switch. -/
def targets (c : Cursor) : List Int :=
  match c.form? with
  | some (.branch ..) | some (.branchNull _) | some (.jump _) | some (.call _) => [c.target]
  | _ =>
    match c.switch? with
    | some s => s.default :: s.cases.map (·.2)
    | none => []

/-- At most `n` instructions from `bci` on. -/
def walk (code : Array UInt8) : Nat → Nat → List Cursor
  | 0, _ => []
  | n + 1, bci =>
    let c := seek code bci
    match c.opcode with
    | none => []
    | some _ => c :: walk code n c.next

/-- The instructions from `bci` to the end of the code. An instruction takes at least one byte, so
their number is at most that of the bytes left. -/
def walkFrom (code : Array UInt8) (bci : Nat) : List Cursor := walk code (code.size - bci) bci

end Cursor

/-- The instructions of an array of code. -/
def instructions (code : Array UInt8) : List Cursor := Cursor.walkFrom code 0

end SeaOfNodes.Bytecode
