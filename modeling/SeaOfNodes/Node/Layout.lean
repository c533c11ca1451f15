import SeaOfNodes.Arena

/-!
# Node classes and their layouts

Every class of nodes has a fixed list of input fields and of successor fields. Inputs are what a
node computes from; successors are where control goes next. A field holds one node, or possibly
none, or a list. The traits of a class are what passes ask about instead of the class itself.
-/

namespace SeaOfNodes

/-- The tag of node handles. -/
inductive NodeTag

/-- The place of a node in its graph. -/
abbrev NodeId := Handle NodeTag

/-- The two directions of edges. -/
inductive Direction
  | inputs | successors
deriving DecidableEq, Repr

/-- The direction in words. -/
def Direction.name : Direction → String
  | .inputs => "Inputs"
  | .successors => "Successors"

/-- How many nodes a field holds. -/
inductive FieldShape
  /-- One; as an input it may not be absent. -/
  | single
  /-- One, or none. -/
  | optional
  /-- A list, entries of which may be absent. -/
  | list
deriving DecidableEq, Repr

/-- The shape in words. -/
def FieldShape.name : FieldShape → String
  | .single => "single"
  | .optional => "optional"
  | .list => "list"

/-- What an input means to its node. -/
inductive Role
  /-- An operand. -/
  | value
  /-- A structural link, as of a phi to its merge. -/
  | association
  /-- A frame state. -/
  | state
  /-- A branch condition. -/
  | condition
deriving DecidableEq, Repr

namespace Role

/-- Every role. -/
def all : List Role := [.value, .association, .state, .condition]

/-- The role in words. -/
def name : Role → String
  | .value => "Value"
  | .association => "Association"
  | .state => "State"
  | .condition => "Condition"

/-- The role of a given name. -/
def ofName? (name : String) : Option Role := all.find? fun r => r.name == name

end Role

/-- A field of a layout. The role of a successor field is always `value`. -/
structure FieldSpec where
  name : String
  shape : FieldShape
  role : Role
deriving DecidableEq, Repr

/-- What passes ask of a class. -/
inductive Trait
  /-- Equal nodes may be merged. -/
  | valueNumberable
  /-- Part of the control flow. -/
  | fixed
  /-- Not tied to a place in the control flow. -/
  | floating
  /-- Carries the frame state after it. -/
  | stateSplit
  /-- Has more than one place to go. -/
  | controlSplit
  /-- Joins ends. -/
  | merge
  /-- Starts a straight-line sequence. -/
  | begin
  /-- Ends a sequence by jumping to a merge. -/
  | end_
  /-- Leaves the method. -/
  | controlSink
  /-- May raise an exception that a handler can catch. -/
  | trapping
deriving DecidableEq, Repr

namespace Trait

/-- Every trait, by ascending bit. -/
def all : List Trait :=
  [.valueNumberable, .fixed, .floating, .stateSplit, .controlSplit, .merge, .begin, .end_,
    .controlSink, .trapping]

/-- The trait in words. -/
def name : Trait → String
  | .valueNumberable => "VALUE_NUMBERABLE"
  | .fixed => "FIXED"
  | .floating => "FLOATING"
  | .stateSplit => "STATE_SPLIT"
  | .controlSplit => "CONTROL_SPLIT"
  | .merge => "MERGE"
  | .begin => "BEGIN"
  | .end_ => "END"
  | .controlSink => "CONTROL_SINK"
  | .trapping => "TRAPPING"

end Trait

namespace FieldSpec

/-- A field that holds one node. -/
def one (name : String) (role : Role := .value) : FieldSpec := ⟨name, .single, role⟩

/-- A field that holds a list of nodes. -/
def many (name : String) (role : Role := .value) : FieldSpec := ⟨name, .list, role⟩

/-- A field that holds one node or none. -/
def maybe (name : String) (role : Role := .value) : FieldSpec := ⟨name, .optional, role⟩

/-- The frame state after a node. -/
def stateAfter : FieldSpec := maybe "state_after" .state

/-- Where control goes after a node. -/
def next : FieldSpec := one "next"

end FieldSpec

/-- The fields and traits of a class. -/
structure Layout where
  name : String
  traits : List Trait
  inputs : List FieldSpec
  successors : List FieldSpec

namespace Layout

/-- The fields of one direction. -/
def fields (l : Layout) : Direction → List FieldSpec
  | .inputs => l.inputs
  | .successors => l.successors

/-- The place of the field of a given name. -/
def fieldIndex? (l : Layout) (d : Direction) (name : String) : Option Nat :=
  (l.fields d).findIdx? fun f => f.name == name

/-- Whether the class has a trait. -/
def has (l : Layout) (t : Trait) : Bool := l.traits.contains t

/-- Whether the class has no input fields. -/
def isLeaf (l : Layout) : Bool := l.inputs.isEmpty

/-- The traits as a sum of powers of two. -/
def bits (l : Layout) : Nat :=
  (Trait.all.zipIdx.map fun (t, i) => if l.has t then Nat.pow 2 i else 0).foldr (· + ·) 0

/-- The layout of a fixed node that may raise an exception. -/
def trapping (name : String) (inputs : List FieldSpec) : Layout :=
  ⟨name, [.fixed, .stateSplit, .trapping], inputs ++ [.stateAfter], [.next, .one "exception_edge"]⟩

/-- The layout of a floating node that can be value-numbered. -/
def numbered (name : String) (inputs : List FieldSpec) : Layout :=
  ⟨name, [.floating, .valueNumberable], inputs, []⟩

end Layout

/-- The classes of nodes. -/
inductive NodeClass
  | start | begin | placeholder | forwardEnd | merge | loopBegin | loopEnd | loopExit
  | branch | switch | methodReturn | unwind | deoptimize | infopoint | exceptionObject
  | dispatchBegin | invoke | loadField | storeField | loadIndexed | storeIndexed | arrayLength
  | newInstance | checkCast | constant | parameter | binary | negate | convert | compare
  | normalizeCompare | isNull | instanceOf | phi | proxy | frameState
deriving DecidableEq, Repr

namespace NodeClass

/-- Every class. -/
def all : List NodeClass :=
  [.start, .begin, .placeholder, .forwardEnd, .merge, .loopBegin, .loopEnd, .loopExit, .branch,
    .switch, .methodReturn, .unwind, .deoptimize, .infopoint, .exceptionObject, .dispatchBegin,
    .invoke, .loadField, .storeField, .loadIndexed, .storeIndexed, .arrayLength, .newInstance,
    .checkCast, .constant, .parameter, .binary, .negate, .convert, .compare, .normalizeCompare,
    .isNull, .instanceOf, .phi, .proxy, .frameState]

/-- The number of classes. -/
abbrev count : Nat := 36

/-- The place of a class among all classes. -/
def index (c : NodeClass) : Fin count := ⟨c.ctorIdx, by cases c <;> decide⟩

open FieldSpec (one many maybe stateAfter next)

/-- The layout of a class. -/
def layout : NodeClass → Layout
  | .start => ⟨"Start", [.fixed, .stateSplit, .begin], [stateAfter], [next]⟩
  | .begin => ⟨"Begin", [.fixed, .begin], [], [next]⟩
  | .placeholder => ⟨"Placeholder", [.fixed], [], [next]⟩
  | .forwardEnd => ⟨"End", [.fixed, .end_], [], []⟩
  | .merge =>
    ⟨"Merge", [.fixed, .stateSplit, .merge, .begin], [many "ends" .association, stateAfter], [next]⟩
  | .loopBegin =>
    ⟨"LoopBegin", [.fixed, .stateSplit, .merge, .begin], [many "ends" .association, stateAfter],
      [next]⟩
  | .loopEnd => ⟨"LoopEnd", [.fixed, .end_], [one "loop_begin" .association], []⟩
  | .loopExit =>
    ⟨"LoopExit", [.fixed, .stateSplit, .begin], [one "loop_begin" .association, stateAfter], [next]⟩
  | .branch =>
    ⟨"If", [.fixed, .controlSplit], [one "condition" .condition],
      [one "true_successor", one "false_successor"]⟩
  | .switch => ⟨"Switch", [.fixed, .controlSplit], [one "value"], [many "targets"]⟩
  | .methodReturn => ⟨"Return", [.fixed, .controlSink], [maybe "result"], []⟩
  | .unwind => ⟨"Unwind", [.fixed, .controlSink], [one "exception"], []⟩
  | .deoptimize => ⟨"Deoptimize", [.fixed, .controlSink], [], []⟩
  | .infopoint => ⟨"Infopoint", [.fixed, .stateSplit], [stateAfter], [next]⟩
  | .exceptionObject => ⟨"ExceptionObject", [.fixed, .stateSplit, .begin], [stateAfter], [next]⟩
  | .dispatchBegin => ⟨"DispatchBegin", [.fixed, .stateSplit, .begin], [stateAfter], [next]⟩
  | .invoke => .trapping "Invoke" [many "arguments"]
  | .loadField => .trapping "LoadField" [maybe "object"]
  | .storeField => .trapping "StoreField" [maybe "object", one "value"]
  | .loadIndexed => .trapping "LoadIndexed" [one "array", one "index"]
  | .storeIndexed => .trapping "StoreIndexed" [one "array", one "index", one "value"]
  | .arrayLength => .trapping "ArrayLength" [one "array"]
  | .newInstance => .trapping "NewInstance" []
  | .checkCast => .trapping "CheckCast" [one "object"]
  | .constant => .numbered "Constant" []
  | .parameter => .numbered "Parameter" []
  | .binary => .numbered "Binary" [one "x", one "y"]
  | .negate => .numbered "Negate" [one "value"]
  | .convert => .numbered "Convert" [one "value"]
  | .compare => .numbered "Compare" [one "x", one "y"]
  | .normalizeCompare => .numbered "NormalizeCompare" [one "x", one "y"]
  | .isNull => .numbered "IsNull" [one "object"]
  | .instanceOf => .numbered "InstanceOf" [one "object"]
  | .phi => ⟨"Phi", [.floating], [one "merge" .association, many "values"], []⟩
  | .proxy => .numbered "Proxy" [one "value", one "proxy_point" .association]
  | .frameState => ⟨"FrameState", [.floating], [many "values", maybe "outer" .state], []⟩

/-- The name of a class. -/
def name (c : NodeClass) : String := c.layout.name

/-- The class of a given name. -/
def ofName? (name : String) : Option NodeClass := all.find? fun c => c.name == name

/-- Whether the class has a trait. -/
def has (c : NodeClass) (t : Trait) : Bool := c.layout.has t

end NodeClass

end SeaOfNodes
