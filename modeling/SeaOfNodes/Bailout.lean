import SeaOfNodes.Kind
import SeaOfNodes.Text.Quoted

/-!
# Bailouts

A bailout says why a method is not lifted to a graph. It is an answer, not a misuse: the caller
falls back to another way of running the method. Each cause is a constructor; `message` gives its
wording.
-/

namespace SeaOfNodes

/-- What is wrong with a method's code, tables or stack discipline. -/
inductive Malformation
  | emptyCode
  | invalidInstruction (mnemonic : String) (bci : Nat)
  | fallsOffEnd (mnemonic : String) (bci : Nat)
  | badTarget (bci : Nat) (target : Int)
  | negativeTarget (target : Int)
  | badDescriptor (descriptor : String)
  | poolIndex (index : Nat)
  /-- Another entry than a field, method or class reference; `wanted` and `found` are descriptions.
  -/
  | poolEntry (wanted : String) (index : Nat) (found : String)
  | noBlock (bci : Nat)
  | handlerRange (start stop entry : Nat)
  | stackUnderflow
  | missingUpperHalf (kind : Kind)
  /-- The top of the stack has another kind, or is the upper half of a value. -/
  | wrongOnStack (expected : Kind) (found : Option Kind)
  | wrongInLocal (index : Nat) (expected : Kind) (found : Option Kind)
  | localRange (index : Nat)
  | notReferenceStore (found : Option Kind)
  | wrongReturn (found : Option Kind) (expected : Kind)
  | noCurrentBlock
  | noSuccessor (block : String) (index : Nat)
  | noEntryState (block : String)
  | closedBlock (block start : String)
  | exitBeforeHeader
  | truncatedSwitch
  | noSwitchSuccessor (target : Int)
  | noSubroutine (block : String)
  | noHandler (index : Nat)
  | dispatchWithoutHandler
  | dispatchWithoutException
deriving DecidableEq, Repr

/-- The wording of a malformation. -/
def Malformation.message : Malformation → String
  | .emptyCode => "empty code"
  | .invalidInstruction mnemonic bci => s!"invalid instruction {mnemonic} at bci {bci}"
  | .fallsOffEnd mnemonic bci => s!"{mnemonic} at bci {bci} falls off the end of the code"
  | .badTarget bci target => s!"branch at bci {bci} targets {target}, which is not an instruction"
  | .negativeTarget target => s!"negative branch target {target}"
  | .badDescriptor descriptor => s!"bad method descriptor {descriptor}"
  | .poolIndex index => s!"constant pool index {index} out of range"
  | .poolEntry wanted index found => s!"expected {wanted} at {index}, found {found}"
  | .noBlock bci => s!"no block at bci {bci}"
  | .handlerRange start stop entry =>
    s!"exception handler [{start}, {stop}) -> {entry} does not fit the code"
  | .stackUnderflow => "operand stack underflow"
  | .missingUpperHalf kind => "expected the upper half of a " ++ kind.code
  | .wrongOnStack expected (some found) =>
    "expected " ++ expected.code ++ " on the stack, found " ++ found.code
  | .wrongOnStack expected none => "expected " ++ expected.code ++ " on the stack, found nothing"
  | .wrongInLocal index expected (some found) =>
    s!"local {index} holds " ++ found.code ++ ", not " ++ expected.code
  | .wrongInLocal index expected none => s!"local {index} holds no " ++ expected.code ++ " value"
  | .localRange index => s!"local {index} out of range"
  | .notReferenceStore found => "astore of " ++ Kind.codeOption found
  | .wrongReturn found expected =>
    "return of " ++ Kind.codeOption found ++ " from a method returning " ++ expected.code
  | .noCurrentBlock => "no block is being parsed"
  | .noSuccessor block index => s!"{block} has no successor {index}"
  | .noEntryState block => s!"{block} has no entry state"
  | .closedBlock block start => s!"cannot add an edge into {block} starting with {start}"
  | .exitBeforeHeader => "loop exit before its loop header"
  | .truncatedSwitch => "switch operands are truncated"
  | .noSwitchSuccessor target => s!"no successor at switch target {target}"
  | .noSubroutine block => s!"{block} has no jsr successor"
  | .noHandler index => s!"no exception handler {index}"
  | .dispatchWithoutHandler => "exception dispatch without a handler"
  | .dispatchWithoutException => "exception dispatch without an exception"

/-- Why the subroutines of a method cannot be inlined. -/
inductive SubroutineLimit
  | targetZero
  | disabled
  | tooDeep
  | outside
  | unknownReturn
  /-- A block is entered under a scope that does not extend its own; both are given as text. -/
  | unstructured (have_ need : String)
  | callMismatch
  | returnMismatch
deriving DecidableEq, Repr

/-- The wording of a subroutine limit. -/
def SubroutineLimit.message : SubroutineLimit → String
  | .targetZero => "jsr target bci 0 not allowed"
  | .disabled => "jsr/ret parsing disabled"
  | .tooDeep => "only four jsr nesting levels are supported"
  | .outside => "ret outside of a subroutine"
  | .unknownReturn => "ret to a bci without a block"
  | .unstructured found need => s!"unstructured control flow ({found} {need})"
  | .callMismatch => "unstructured control flow (internal limitation)"
  | .returnMismatch => "unstructured control flow (ret leaves more than one scope)"

/-- Why a method is not lifted. -/
inductive Bailout
  | nonReducibleLoop
  | tooManyLoops (limit : Nat)
  | loopFormedByExceptionHandler
  | handlerReachedByNormalFlow
  | subroutine (limit : SubroutineLimit)
  | stacksDoNotMatch
  | unsupportedBytecode (opcode : UInt8) (bci : Int)
  | unresolved (what : String)
  | malformed (cause : Malformation)
deriving DecidableEq, Repr

/-- The name of the kind of bailout. -/
def Bailout.name : Bailout → String
  | .nonReducibleLoop => "NonReducibleLoop"
  | .tooManyLoops _ => "TooManyLoops"
  | .loopFormedByExceptionHandler => "LoopFormedByExceptionHandler"
  | .handlerReachedByNormalFlow => "HandlerReachedByNormalFlow"
  | .subroutine _ => "JsrNotSupported"
  | .stacksDoNotMatch => "StacksDoNotMatch"
  | .unsupportedBytecode .. => "UnsupportedBytecode"
  | .unresolved _ => "Unresolved"
  | .malformed _ => "Malformed"

/-- An opcode as two hexadecimal digits. -/
def opcodeText (opcode : UInt8) : String := "0x" ++ Text.hexByte opcode

/-- The wording of a bailout. -/
def Bailout.message : Bailout → String
  | .nonReducibleLoop => "Non-reducible loop"
  | .tooManyLoops limit => s!"Too many loops in method (limit is {limit})"
  | .loopFormedByExceptionHandler => "Loop formed by an exception handler"
  | .handlerReachedByNormalFlow =>
    "Exception handler can be reached by both normal and exceptional control flow"
  | .subroutine limit => "jsr/ret not supported: " ++ limit.message
  | .stacksDoNotMatch => "stacks do not match; bytecodes would not verify"
  | .unsupportedBytecode opcode bci =>
    "unsupported bytecode " ++ opcodeText opcode ++ s!" at bci {bci}"
  | .unresolved what => s!"unresolved {what}"
  | .malformed cause => "malformed bytecode: " ++ cause.message

end SeaOfNodes
