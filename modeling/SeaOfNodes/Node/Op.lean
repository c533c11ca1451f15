import SeaOfNodes.Kind
import SeaOfNodes.Node.Layout
import SeaOfNodes.Operator
import SeaOfNodes.Text.Shortest

/-!
# Operations

An operation is a node without its edges: the class and the data of that class. Two operations are
equal exactly when they have the same class and the same data; probabilities compare by their bits.
-/

namespace SeaOfNodes

/-- A class with its data. -/
inductive Op
  | start
  | begin
  | placeholder
  | forwardEnd
  | merge
  | loopBegin
  /-- `endIndex` is the place among the header's loop ends. -/
  | loopEnd (endIndex : Int32)
  | loopExit
  /-- `probability` is that of the true successor, as the bits of a 64-bit float. -/
  | branch (probability : UInt64)
  /-- Case keys, and the successor of each key followed by that of the default. -/
  | switch (keys keySuccessors : List Int32)
  | methodReturn
  | unwind
  | deoptimize (reason : DeoptReason)
  | infopoint (line : Int32)
  | exceptionObject
  | dispatchBegin
  | invoke (target : String) (kind : Kind)
  | loadField (field : String) (kind : Kind) (isStatic : Bool)
  | storeField (field : String) (kind : Kind) (isStatic : Bool)
  | loadIndexed (kind : Kind)
  | storeIndexed (kind : Kind)
  | arrayLength
  | newInstance (typeName : String)
  | checkCast (typeName : String)
  /-- `value` holds the bits of a float or double; an object constant is null. -/
  | constant (kind : Kind) (value : Int64)
  | parameter (index : Int32) (kind : Kind)
  | binary (op : ArithOp) (kind : Kind)
  | negate (kind : Kind)
  | convert (source target : Kind)
  | compare (condition : Condition)
  | normalizeCompare (kind : Kind) (unorderedIsLess : Bool)
  | isNull
  | instanceOf (typeName : String)
  | phi (kind : Kind)
  | proxy (kind : Kind)
  | frameState (bci localsSize stackSize : Int32) (rethrowException : Bool) (method : String)
deriving DecidableEq, Repr

/-- A data field's value. -/
inductive Datum
  | bool (value : Bool)
  | int (value : Int)
  | float (bits : UInt64)
  | kind (value : Kind)
  | word (value : String)
  | ints (values : List Int32)

namespace Datum

/-- Probabilities are written in full, without `.0`. -/
def numberStyle : Text.DecimalStyle := ⟨false, none⟩

/-- The value as text. -/
def text : Datum → String
  | .bool value => if value then "true" else "false"
  | .int value => toString value
  | .float bits => Text.FloatLayout.double.text numberStyle bits.toNat
  | .kind value => value.name
  | .word value => value
  | .ints values => "[" ++ ", ".intercalate (values.map fun v => toString v.toInt) ++ "]"

end Datum

namespace Op

/-- The class of an operation. -/
def cls : Op → NodeClass
  | .start => .start
  | .begin => .begin
  | .placeholder => .placeholder
  | .forwardEnd => .forwardEnd
  | .merge => .merge
  | .loopBegin => .loopBegin
  | .loopEnd _ => .loopEnd
  | .loopExit => .loopExit
  | .branch _ => .branch
  | .switch .. => .switch
  | .methodReturn => .methodReturn
  | .unwind => .unwind
  | .deoptimize _ => .deoptimize
  | .infopoint _ => .infopoint
  | .exceptionObject => .exceptionObject
  | .dispatchBegin => .dispatchBegin
  | .invoke .. => .invoke
  | .loadField .. => .loadField
  | .storeField .. => .storeField
  | .loadIndexed _ => .loadIndexed
  | .storeIndexed _ => .storeIndexed
  | .arrayLength => .arrayLength
  | .newInstance _ => .newInstance
  | .checkCast _ => .checkCast
  | .constant .. => .constant
  | .parameter .. => .parameter
  | .binary .. => .binary
  | .negate _ => .negate
  | .convert .. => .convert
  | .compare _ => .compare
  | .normalizeCompare .. => .normalizeCompare
  | .isNull => .isNull
  | .instanceOf _ => .instanceOf
  | .phi _ => .phi
  | .proxy _ => .proxy
  | .frameState .. => .frameState

/-- The data fields, in order, each with its name. -/
def data : Op → List (String × Datum)
  | .loopEnd endIndex => [("end_index", .int endIndex.toInt)]
  | .branch probability => [("probability", .float probability)]
  | .switch keys keySuccessors => [("keys", .ints keys), ("key_successors", .ints keySuccessors)]
  | .deoptimize reason => [("reason", .word reason.name)]
  | .infopoint line => [("line", .int line.toInt)]
  | .invoke target kind => [("target", .word target), ("kind", .kind kind)]
  | .loadField field kind isStatic | .storeField field kind isStatic =>
    [("field", .word field), ("kind", .kind kind), ("is_static", .bool isStatic)]
  | .loadIndexed kind | .storeIndexed kind | .negate kind | .phi kind | .proxy kind =>
    [("kind", .kind kind)]
  | .newInstance typeName | .checkCast typeName | .instanceOf typeName =>
    [("type_name", .word typeName)]
  | .constant kind value => [("kind", .kind kind), ("value", .int value.toInt)]
  | .parameter index kind => [("index", .int index.toInt), ("kind", .kind kind)]
  | .binary op kind => [("op", .word op.sign), ("kind", .kind kind)]
  | .convert source target => [("from", .kind source), ("to", .kind target)]
  | .compare condition => [("condition", .word condition.sign)]
  | .normalizeCompare kind unorderedIsLess =>
    [("kind", .kind kind), ("unordered_is_less", .bool unorderedIsLess)]
  | .frameState bci localsSize stackSize rethrowException method =>
    [("bci", .int bci.toInt), ("locals_size", .int localsSize.toInt),
      ("stack_size", .int stackSize.toInt), ("rethrow_exception", .bool rethrowException),
      ("method", .word method)]
  | _ => []

/-- The kind of value that a node of this operation produces; `void` for none. -/
def valueKind : Op → Kind
  | .constant kind _ | .parameter _ kind | .binary _ kind | .negate kind | .phi kind
  | .proxy kind => kind
  | .convert _ target => target.onStack
  | .normalizeCompare .. | .arrayLength => .int
  | .compare _ | .isNull | .instanceOf _ => .boolean
  | .invoke _ kind | .loadField _ kind _ | .loadIndexed kind => kind.onStack
  | .newInstance _ | .checkCast _ | .exceptionObject => .object
  | _ => .void

/-- The layout of the operation's class. -/
def layout (op : Op) : Layout := op.cls.layout

/-- Whether equal nodes of this operation may be merged. -/
def isValueNumberable (op : Op) : Bool := op.cls.has .valueNumberable

/-- Whether the operation has no input fields. -/
def isLeaf (op : Op) : Bool := op.layout.isLeaf

/-- Equality of operations as values: like `=`, but probabilities compare as numbers, so a NaN
differs from itself and the two zeros are equal. -/
def sameValue : Op → Op → Bool
  | .branch p, .branch q => Float.ofBits p == Float.ofBits q
  | a, b => a == b

end Op

end SeaOfNodes
