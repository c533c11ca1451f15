import SeaOfNodes.Lift.Exception

/-!
# Instructions

What each form of instruction does to the frame, the graph and the control flow.
-/

namespace SeaOfNodes.Bytecode.Shuffle

/-- How many words a shuffle takes off the stack. -/
def arity : Shuffle → Nat
  | .pop | .dup => 1
  | .pop2 | .dupX1 | .dup2 | .swap => 2
  | .dupX2 | .dup2X1 => 3
  | .dup2X2 => 4

/-- The words after a shuffle, given those before it; both top first. -/
def apply {α : Type} : Shuffle → List α → List α
  | .pop, _ :: r => r
  | .pop2, _ :: _ :: r => r
  | .dup, a :: r => a :: a :: r
  | .dupX1, a :: b :: r => a :: b :: a :: r
  | .dupX2, a :: b :: c :: r => a :: b :: c :: a :: r
  | .dup2, a :: b :: r => a :: b :: a :: b :: r
  | .dup2X1, a :: b :: c :: r => a :: b :: c :: a :: b :: r
  | .dup2X2, a :: b :: c :: d :: r => a :: b :: c :: d :: a :: b :: r
  | .swap, a :: b :: r => b :: a :: r
  | _, words => words

end SeaOfNodes.Bytecode.Shuffle

namespace SeaOfNodes.Lift

open Bytecode

/-! ### Values -/

/-- Rearrange the words on top of the stack. The halves of a value move separately. -/
def shuffle (s : Shuffle) : LiftM Unit := do
  let f := (← get).frame
  if f.stack.length < s.arity then malformed .stackUnderflow
  modifyFrame fun f => { f with stack := s.apply f.stack }

/-- Push a constant of the pool. -/
def loadConstant (c : Cursor) (index : Nat) : LiftM Unit := do
  match ← ofExcept ((← get).method.pool.entry index) with
  | .int value => pushNew .int (.int value)
  | .long value => pushNew .long (.long value)
  | .float bits => pushNew .float (.float bits)
  | .double bits => pushNew .double (.double bits)
  | _ => bailout (.unsupportedBytecode (c.opcode.getD 0) c.bci)

/-- Push a local. -/
def loadLocal (kind : Kind) (index : Nat) : LiftM Unit := do
  push kind (← ofExcept ((← get).frame.load index kind))

/-- Write a local. -/
def storeSlot (index : Nat) (slot : Slot) : LiftM Unit := do
  let f ← ofExcept ((← get).frame.store index (some slot))
  modifyFrame fun _ => f

/-- Pop into a local. A reference may also be a return address. -/
def storeLocal (kind : Kind) (index : Nat) : LiftM Unit := do
  if kind = .object then
    let slot ← onFrame Frame.popSlot
    match slot.filter fun s => s.kind = .object || s.kind = .returnAddress with
    | some value => storeSlot index value
    | none => malformed (.notReferenceStore (slot.map (·.kind)))
  else storeSlot index (.of (← pop kind) kind)

/-- Pop two values, the second operand first. -/
def popTwo (first second : Kind) : LiftM (NodeId × NodeId) := do
  let y ← pop second
  let x ← pop first
  return (x, y)

/-- Add to an int local. -/
def increment (index : Nat) (delta : Int32) : LiftM Unit := do
  let x ← ofExcept ((← get).frame.load index .int)
  let y ← intern (.int delta)
  storeSlot index (.of (← intern (.binary .add .int x y)) .int)

/-! ### Branches -/

/-- Branch on a condition; `negated` exchanges the two ways. -/
def branchOn (condition : NodeId) (negated : Bool) : LiftM Unit := do
  let taken ← successor 0
  let other ← successor 1
  if taken = other then jumpTo taken
  else
    let f := (← get).frame
    let taken ← branchTarget taken f
    let other ← branchTarget other f
    let (ifTrue, ifFalse) := if negated then (other, taken) else (taken, other)
    let _ ← append (.branch condition (some ifTrue) (some ifFalse) evenOdds)

/-- A comparison by equality or order, possibly with the operands exchanged, and whether it is to be
negated. -/
def canonical (x : NodeId) (condition : Condition) (y : NodeId) : Node × Bool :=
  match condition with
  | .eq => (.compare .eq x y, false)
  | .ne => (.compare .eq x y, true)
  | .lt => (.compare .lt x y, false)
  | .ge => (.compare .lt x y, true)
  | .gt => (.compare .lt y x, false)
  | .le => (.compare .lt y x, true)

/-- Branch on a comparison. -/
def branchIf (x : NodeId) (condition : Condition) (y : NodeId) : LiftM Unit := do
  let (compare, negated) := canonical x condition y
  branchOn (← intern compare) negated

/-- The place of the successor that starts at a bci. -/
def successorAt (map : BlockMap) (successors : List BlockId) (bci : Int) : LiftM Int32 :=
  match successors.findIdx? fun id => (map.block id).start = bci with
  | some place => return Int32.ofNat place
  | none => malformed (.noSwitchSuccessor bci)

/-- Branch many ways. -/
def switch (c : Cursor) : LiftM Unit := do
  let value ← pop .int
  let some s := c.switch? | malformed .truncatedSwitch
  let map := (← get).map
  let successors := (map.block (← current)).successors
  let cases ← s.cases.mapM fun (_, target) => successorAt map successors target
  let default ← successorAt map successors s.default
  let f := (← get).frame
  let targets ← successors.mapM fun id => branchTarget id f
  let n := Node.switch value (s.cases.map (·.1)) (cases ++ [default]) 0
  let _ ← append { n with successors := [.many (targets.map some)] }

/-- Return from the method. -/
def leaveMethod (kind : Option Kind) (bci : Nat) : LiftM Unit := do
  let value ← kind.mapM pop
  let expected := (← get).method.result.onStack
  if kind.getD .void ≠ expected then malformed (.wrongReturn kind expected)
  modifyFrame fun f => { f with rethrow := false, stack := [] }
  if let some value := value then push expected value
  jumpTo (← returnBlock bci)

/-! ### Subroutines -/

/-- Call a subroutine. -/
def call (returnBci : Nat) : LiftM Unit := do
  let b ← block (← current)
  let some callee := b.callee | malformed (.noSubroutine b.text)
  let scope := (← block callee).scope
  if scope.pop ≠ b.scope || scope.returnAddress ≠ returnBci then
    bailout (.subroutine .callMismatch)
  pushNew .returnAddress (.returnAddress returnBci)
  jumpTo callee

/-- Return from a subroutine to where this copy of it was called. Any other return address ends in
the interpreter. -/
def ret (index : Nat) : LiftM Unit := do
  let held ← ofExcept ((← get).frame.load index .returnAddress)
  let b ← block (← current)
  let some continuation := b.continuation | bailout (.subroutine .outside)
  if (← block continuation).scope ≠ b.scope.pop then bailout (.subroutine .returnMismatch)
  let address ← intern (.returnAddress b.scope.returnAddress)
  let guard ← intern (.compare .eq held address)
  let target ← branchTarget continuation (← get).frame
  let mismatch ← onGraph do
    let deoptimize ← Graph.add (.deoptimize .subroutineMismatch)
    Graph.add (.begin (some deoptimize))
  let _ ← append (.branch guard (some target) (some mismatch) certain)

/-! ### Memory and calls -/

/-- Read an array. -/
def arrayLoad (element : Kind) (bci : Nat) : LiftM Unit := do
  let index ← pop .int
  let array ← pop .object
  let id ← onGraph (Graph.add (.loadIndexed array index element))
  appendTrapping id bci
  push element id

/-- Write an array. -/
def arrayStore (element : Kind) (bci : Nat) : LiftM Unit := do
  let value ← pop element
  let index ← pop .int
  let array ← pop .object
  appendTrapping (← onGraph (Graph.add (.storeIndexed array index element value))) bci

/-- The object of a field access; static fields have none. -/
def popObject (isStatic : Bool) : LiftM (Option NodeId) := do
  if isStatic then return none else return some (← pop .object)

/-- Read a field. -/
def getField (index : Nat) (isStatic : Bool) (bci : Nat) : LiftM Unit := do
  let field ← ofExcept ((← get).method.pool.field index)
  if !field.resolved then unresolved ("field " ++ field.qualifiedName)
  else
    let object ← popObject isStatic
    let id ← onGraph (Graph.add (.loadField object field.qualifiedName field.kind))
    appendTrapping id bci
    push field.kind id

/-- Write a field. -/
def putField (index : Nat) (isStatic : Bool) (bci : Nat) : LiftM Unit := do
  let field ← ofExcept ((← get).method.pool.field index)
  if !field.resolved then unresolved ("field " ++ field.qualifiedName)
  else
    let value ← pop field.kind
    let object ← popObject isStatic
    let id ← onGraph (Graph.add (.storeField object field.qualifiedName field.kind value))
    appendTrapping id bci

/-- Call a method. -/
def invoke (index : Nat) (receiver : Bool) (bci : Nat) : LiftM Unit := do
  let callee ← ofExcept ((← get).method.pool.method index)
  if !callee.resolved then unresolved ("method " ++ callee.qualifiedName)
  else
    let signature ← ofExcept callee.signature
    let arguments ← onFrame (Frame.popAll signature.parameters)
    let arguments ← if receiver then pure ((← pop .object) :: arguments) else pure arguments
    let id ← onGraph (Graph.add (.invoke callee.qualifiedName arguments signature.result))
    appendTrapping id bci
    if signature.result ≠ .void then push signature.result id

/-- Work with a class reference, if it is resolved. -/
def withType (index : Nat) (act : String → LiftM Unit) : LiftM Unit := do
  let type ← ofExcept ((← get).method.pool.type index)
  if !type.resolved then unresolved ("type " ++ type.name) else act type.name

/-- Append a node that may raise an exception, and push it as a value. -/
def appendValue (n : Node) (kind : Kind) (bci : Nat) : LiftM Unit := do
  let id ← onGraph (Graph.add n)
  appendTrapping id bci
  push kind id

/-! ### All forms -/

/-- Lift one instruction. -/
def instruction (c : Cursor) : LiftM Unit := do
  let poolIndex := c.poolIndex.toNat
  match c.form? with
  | some .nop => return
  | some (.constant kind value) => pushNew kind (.constant kind value)
  | some .pushByte => pushNew .int (.int c.signedByte)
  | some .pushShort => pushNew .int (.int c.signedShort)
  | some (.loadConstant twoBytes) => loadConstant c (if twoBytes then poolIndex else c.byte.toNat)
  | some (.load kind slot) => loadLocal kind (slot.getD c.localIndex)
  | some (.store kind slot) => storeLocal kind (slot.getD c.localIndex)
  | some (.arrayLoad element) => arrayLoad element c.bci
  | some (.arrayStore element) => arrayStore element c.bci
  | some (.shuffle s) => shuffle s
  | some (.arith op kind) =>
    let (x, y) ← popTwo kind kind
    pushNew kind (.binary op kind x y)
  | some (.shift op kind) =>
    let (x, y) ← popTwo kind .int
    pushNew kind (.binary op kind x y)
  | some (.negate kind) => pushNew kind (.negate kind (← pop kind))
  | some .increment => increment c.localIndex c.delta
  | some (.convert source target) => pushNew target (.convert source target (← pop source))
  | some (.compare kind unorderedIsLess) =>
    let (x, y) ← popTwo kind kind
    pushNew .int (.normalizeCompare kind x y unorderedIsLess)
  | some (.branch .zero condition) =>
    let x ← pop .int
    branchIf x condition (← intern (.int 0))
  | some (.branch .ints condition) =>
    let (x, y) ← popTwo .int .int
    branchIf x condition y
  | some (.branch .references condition) =>
    let (x, y) ← popTwo .object .object
    branchIf x condition y
  | some (.branchNull ifNull) =>
    let x ← pop .object
    branchOn (← intern (.isNull x)) !ifNull
  | some (.jump _) => jumpTo (← successor 0)
  | some (.call _) => call c.next
  | some .ret => ret c.localIndex
  | some .tableSwitch | some .lookupSwitch => switch c
  | some (.methodReturn kind) => leaveMethod kind c.bci
  | some .throw =>
    let exception ← pop .object
    appendJump (← raise (some exception) c.bci)
  | some (.getField isStatic) => getField poolIndex isStatic c.bci
  | some (.putField isStatic) => putField poolIndex isStatic c.bci
  | some (.invoke receiver) => invoke poolIndex receiver c.bci
  | some .newInstance =>
    withType poolIndex fun typeName => appendValue (.newInstance typeName) .object c.bci
  | some .checkCast =>
    withType poolIndex fun typeName => do
      appendValue (.checkCast (← pop .object) typeName) .object c.bci
  | some .instanceOf =>
    withType poolIndex fun typeName => do pushNew .int (.instanceOf (← pop .object) typeName)
  | some .arrayLength => do appendValue (.arrayLength (← pop .object)) .int c.bci
  | _ => bailout (.unsupportedBytecode (c.opcode.getD 0) c.bci)

end SeaOfNodes.Lift
