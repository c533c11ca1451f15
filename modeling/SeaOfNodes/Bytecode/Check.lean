import SeaOfNodes.Bailout
import SeaOfNodes.BitSet
import SeaOfNodes.Bytecode.Cursor

/-!
# Well-formed code

Code is well formed when it is a sequence of whole, defined instructions, every branch lands on the
start of one of them, and control cannot run off the end. The instructions are checked in order,
then the branch targets in order, so the first fault found is the one reported.
-/

namespace SeaOfNodes.Bytecode

/-- An instruction is defined and whole, and does not fall off the end of the code. -/
def checkInstruction (c : Cursor) : Except Bailout Unit :=
  match c.form?, length? c.code c.bci with
  | some form, some _ =>
    if c.next == c.code.size && !form.endsControlFlow then
      .error (.malformed (.fallsOffEnd c.mnemonic c.bci))
    else .ok ()
  | _, _ => .error (.malformed (.invalidInstruction c.mnemonic c.bci))

/-- A target is the start of an instruction. -/
def checkTarget (starts : BitSet) (size bci : Nat) (target : Int) : Except Bailout Unit :=
  if 0 ≤ target && target < size && starts.contains target.toNat then .ok ()
  else .error (.malformed (.badTarget bci target))

/-- The starts of the instructions of well-formed code. -/
def check (code : Array UInt8) : Except Bailout BitSet := do
  if code.isEmpty then throw (.malformed .emptyCode)
  let cursors := instructions code
  cursors.forM checkInstruction
  let starts := (cursors.map (·.bci)).foldl BitSet.insert (BitSet.withCapacity code.size)
  cursors.forM fun c => c.targets.forM (checkTarget starts code.size c.bci)
  return starts

end SeaOfNodes.Bytecode
