import SeaOfNodes.Node.Links
import SeaOfNodes.Node.Op

/-!
# Nodes

A node is an operation with its edges. A node outside a graph is a plain value: making one registers
nothing, and the edge operations here keep no books. The constructors give each class its fields in
the order of its layout.
-/

namespace SeaOfNodes

/-- An operation with its edges. -/
structure Node where
  op : Op
  inputs : List Link
  successors : List Link
deriving DecidableEq, Repr

/-- Which edges a copy keeps. -/
inductive KeptEdges
  | none | inputs | successors | all
deriving DecidableEq, Repr

/-- Whether the edges of a direction are kept. -/
def KeptEdges.keeps : KeptEdges → Direction → Bool
  | .all, _ | .inputs, .inputs | .successors, .successors => true
  | _, _ => false

namespace Node

/-- The class of the node. -/
def cls (n : Node) : NodeClass := n.op.cls

/-- The layout of the node's class. -/
def layout (n : Node) : Layout := n.op.layout

/-- The links of one direction. -/
def links (n : Node) : Direction → List Link
  | .inputs => n.inputs
  | .successors => n.successors

/-- Exchange the links of one direction. -/
def withLinks (n : Node) (d : Direction) (links : List Link) : Node :=
  match d with
  | .inputs => { n with inputs := links }
  | .successors => { n with successors := links }

/-- All slots of one direction. -/
def slots (n : Node) (d : Direction) : List (Option NodeId) := Links.slots (n.links d)

/-- The nodes in the slots of one direction. -/
def targets (n : Node) (d : Direction) : List NodeId := Links.targets (n.links d)

/-- All slots of one direction with their positions. -/
def walk (n : Node) (d : Direction) : List (Position × Option NodeId) := Links.walk d (n.links d)

/-- The field that a position falls in. -/
def fieldSpec? (n : Node) (p : Position) : Option FieldSpec :=
  (n.layout.fields p.direction)[p.field.toNat]?

/-- What the slot at a position holds; nothing if there is no such slot. -/
def get (n : Node) (p : Position) : Option NodeId :=
  Links.get (n.links p.direction) p.field.toNat p.index.toNat

/-- Overwrite the slot at a position, which must exist. -/
def put (n : Node) (p : Position) (value : Option NodeId) : Except Fault Node :=
  let links := n.links p.direction
  match links[p.field.toNat]? with
  | none => .error (.noFieldAt n.cls p.direction p.field.toNat)
  | some (.one _) => .ok (n.withLinks p.direction (links.set p.field.toNat (.one value)))
  | some (.many targets) =>
    if p.index.toNat < targets.length then
      .ok (n.withLinks p.direction
        (links.set p.field.toNat (.many (targets.set p.index.toNat value))))
    else .error (.listIndex n.cls p.index.toNat)

/-- Append to a list field; also the position of the new slot. -/
def push (n : Node) (d : Direction) (field : Nat) (value : Option NodeId) :
    Except Fault (Position × Node) :=
  match (n.links d)[field]? with
  | some (.many targets) =>
    .ok (Position.of d field targets.length,
      n.withLinks d ((n.links d).set field (.many (targets ++ [value]))))
  | _ => .error (.notAList n.cls d field)

/-- Remove the slot of a list; also what it held. -/
def removeAt (n : Node) (p : Position) : Option NodeId × Node :=
  let (old, links) := Links.removeAt (n.links p.direction) p.field.toNat p.index.toNat
  (old, n.withLinks p.direction links)

/-- Put a value into the first slot of a direction that holds `old`. -/
def replaceFirst (n : Node) (d : Direction) (old : NodeId) (new : Option NodeId) : Option Node :=
  (Links.replaceFirst old new (n.links d)).map (n.withLinks d)

/-- Drop all edges of one direction. -/
def clear (n : Node) (d : Direction) : Node := n.withLinks d (Links.clear (n.links d))

/-- A copy with only some of the edges. -/
def copy (n : Node) (kept : KeptEdges) : Node :=
  let n := if kept.keeps .inputs then n else n.clear .inputs
  if kept.keeps .successors then n else n.clear .successors

/-- Whether two nodes have the same slots in one direction. -/
def sameSlots (a b : Node) (d : Direction) : Bool := a.slots d == b.slots d

/-- Same operation, same inputs and same successors. -/
def sameStructure (a b : Node) : Bool :=
  a.op == b.op && a.sameSlots b .inputs && a.sameSlots b .successors

/-- Equality of nodes as values: like `=`, but probabilities compare as numbers. -/
def sameValue (a b : Node) : Bool :=
  a.op.sameValue b.op && a.inputs == b.inputs && a.successors == b.successors

/-! ### Constructors -/

/-- A node with the given inputs and no successors. -/
def ofInputs (op : Op) (inputs : List Link) : Node :=
  let blank (f : FieldSpec) : Link := if f.shape = .list then .many [] else .one none
  ⟨op, inputs, op.layout.successors.map blank⟩

/-- The entry of a method. -/
def start : Node := ofInputs .start [.one none]

/-- The start of a sequence that flows into `next`. -/
def begin (next : Option NodeId) : Node := ⟨.begin, [], [.one next]⟩

/-- A stand-in for the head of a block. -/
def placeholder : Node := ofInputs .placeholder []

/-- A forward jump into a merge. -/
def forwardEnd : Node := ofInputs .forwardEnd []

/-- A merge without ends. -/
def merge : Node := ofInputs .merge [.many [], .one none]

/-- A loop header without ends. -/
def loopBegin : Node := ofInputs .loopBegin [.many [], .one none]

/-- A back edge to a loop header. -/
def loopEnd (loopBegin : NodeId) (endIndex : Int32) : Node :=
  ofInputs (.loopEnd endIndex) [.one loopBegin]

/-- An edge out of a loop. -/
def loopExit (loopBegin : NodeId) : Node := ofInputs .loopExit [.one loopBegin, .one none]

/-- A two-way branch; the probability is that of the first successor. -/
def branch (condition : NodeId) (ifTrue ifFalse : Option NodeId) (probability : UInt64) : Node :=
  ⟨.branch probability, [.one condition], [.one ifTrue, .one ifFalse]⟩

/-- A multi-way branch with `count` successors to be filled in. -/
def switch (value : NodeId) (keys keySuccessors : List Int32) (count : Nat) : Node :=
  ⟨.switch keys keySuccessors, [.one value], [.many (List.replicate count none)]⟩

/-- A method return. -/
def methodReturn (result : Option NodeId) : Node := ofInputs .methodReturn [.one result]

/-- An exception leaves the method. -/
def unwind (exception : NodeId) : Node := ofInputs .unwind [.one exception]

/-- Control goes back to the interpreter. -/
def deoptimize (reason : DeoptReason) : Node := ofInputs (.deoptimize reason) []

/-- A line marker. -/
def infopoint (line : Int32) : Node := ofInputs (.infopoint line) [.one none]

/-- The entry of an exception still to be materialized. -/
def exceptionObject : Node := ofInputs .exceptionObject [.one none]

/-- The entry of an exception that is already a value. -/
def dispatchBegin : Node := ofInputs .dispatchBegin [.one none]

/-- A method call. -/
def invoke (target : String) (arguments : List NodeId) (kind : Kind) : Node :=
  ofInputs (.invoke target kind) [.many (arguments.map some), .one none]

/-- A field read; a static field has no object. -/
def loadField (object : Option NodeId) (field : String) (kind : Kind) : Node :=
  ofInputs (.loadField field kind object.isNone) [.one object, .one none]

/-- A field write; a static field has no object. -/
def storeField (object : Option NodeId) (field : String) (kind : Kind) (value : NodeId) : Node :=
  ofInputs (.storeField field kind object.isNone) [.one object, .one value, .one none]

/-- An array read. -/
def loadIndexed (array index : NodeId) (kind : Kind) : Node :=
  ofInputs (.loadIndexed kind) [.one array, .one index, .one none]

/-- An array write. -/
def storeIndexed (array index : NodeId) (kind : Kind) (value : NodeId) : Node :=
  ofInputs (.storeIndexed kind) [.one array, .one index, .one value, .one none]

/-- The length of an array. -/
def arrayLength (array : NodeId) : Node := ofInputs .arrayLength [.one array, .one none]

/-- A new object. -/
def newInstance (typeName : String) : Node := ofInputs (.newInstance typeName) [.one none]

/-- A checked cast. -/
def checkCast (object : NodeId) (typeName : String) : Node :=
  ofInputs (.checkCast typeName) [.one object, .one none]

/-- A constant of a kind, given by its bits. -/
def constant (kind : Kind) (value : Int64) : Node := ofInputs (.constant kind value) []

/-- An int constant. -/
def int (value : Int32) : Node := constant .int value.toInt64

/-- A long constant. -/
def long (value : Int64) : Node := constant .long value

/-- A float constant. -/
def float (bits : UInt32) : Node := constant .float bits.toUInt64.toInt64

/-- A double constant. -/
def double (bits : UInt64) : Node := constant .double bits.toInt64

/-- The null reference. -/
def null : Node := constant .object 0

/-- A return address. -/
def returnAddress (bci : Nat) : Node := constant .returnAddress (Int64.ofNat bci)

/-- The zero of a kind. -/
def zero (kind : Kind) : Node := constant kind.onStack 0

/-- An argument of the method. -/
def parameter (index : Int32) (kind : Kind) : Node := ofInputs (.parameter index kind) []

/-- A binary operation. -/
def binary (op : ArithOp) (kind : Kind) (x y : NodeId) : Node :=
  ofInputs (.binary op kind) [.one x, .one y]

/-- A negation. -/
def negate (kind : Kind) (value : NodeId) : Node := ofInputs (.negate kind) [.one value]

/-- A conversion between kinds. -/
def convert (source target : Kind) (value : NodeId) : Node :=
  ofInputs (.convert source target) [.one value]

/-- A comparison that yields a condition. -/
def compare (condition : Condition) (x y : NodeId) : Node :=
  ofInputs (.compare condition) [.one x, .one y]

/-- A three-way comparison that yields a number. -/
def normalizeCompare (kind : Kind) (x y : NodeId) (unorderedIsLess : Bool) : Node :=
  ofInputs (.normalizeCompare kind unorderedIsLess) [.one x, .one y]

/-- A test for null. -/
def isNull (object : NodeId) : Node := ofInputs .isNull [.one object]

/-- A type test. -/
def instanceOf (object : NodeId) (typeName : String) : Node :=
  ofInputs (.instanceOf typeName) [.one object]

/-- A value chosen by the end through which a merge is entered; without values yet. -/
def phi (kind : Kind) (merge : NodeId) : Node := ofInputs (.phi kind) [.one merge, .many []]

/-- A loop value as seen after a loop exit. -/
def proxy (kind : Kind) (value point : NodeId) : Node :=
  ofInputs (.proxy kind) [.one value, .one point]

/-- The state of the interpreter at a bci: locals, then stack. -/
def frameState (method : String) (bci : Int32) (locals stack : List (Option NodeId))
    (rethrow : Bool) : Node :=
  ofInputs
    (.frameState bci (Int32.ofNat locals.length) (Int32.ofNat stack.length) rethrow method)
    [.many (locals ++ stack), .one none]

/-! ### Queries of single classes -/

/-- The slots of the list in a given input field. -/
def inputList (n : Node) (field : Nat) : List (Option NodeId) :=
  match n.inputs[field]? with
  | some (.many targets) => targets
  | _ => []

/-- The merge of a phi. -/
def phiMerge? (n : Node) : Option NodeId :=
  match n.op with
  | .phi _ => Links.get n.inputs 0 0
  | _ => none

/-- The values of a phi. -/
def phiValues? (n : Node) : Option (List (Option NodeId)) :=
  match n.op with
  | .phi _ => some (n.inputList 1)
  | _ => none

/-- The ends of a merge or of a loop header. -/
def ends? (n : Node) : Option (List (Option NodeId)) :=
  match n.op with
  | .merge | .loopBegin => some (n.inputList 0)
  | _ => none

/-- The values of a frame state at an index, read as a local and as a stack slot. -/
def frameSlot? (n : Node) (index : Nat) : Option (Option NodeId × Option NodeId) :=
  match n.op with
  | .frameState _ localsSize _ _ _ =>
    let values := n.inputList 0
    some ((values[index]?).join, (values[localsSize.toNatClampNeg + index]?).join)
  | _ => none

/-- The kind and the bits of a constant. -/
def constant? (n : Node) : Option (Kind × Int64) :=
  match n.op with
  | .constant kind value => some (kind, value)
  | _ => none

/-- The value of an int constant. -/
def intValue? (n : Node) : Option Int32 :=
  n.constant?.bind fun (kind, value) => if kind = .int then some value.toInt32 else none

/-- The value of a long constant. -/
def longValue? (n : Node) : Option Int64 :=
  n.constant?.bind fun (kind, value) => if kind = .long then some value else none

end Node

/-! ### Switches -/

namespace Switch

/-- Narrow a search down to one place: `size` places from `base` on are left, and the key stands in
one of them if it stands anywhere. -/
def narrow (keys : List Int32) (key : Int32) : Nat → Nat → Nat → Nat
  | 0, base, _ => base
  | fuel + 1, base, size =>
    if 1 < size then
      let half := size / 2
      let base := if key < keys.getD (base + half) 0 then base else base + half
      narrow keys key fuel base (size - half)
    else base

/-- The place of a key among ascending keys; one past the last if it is not there. -/
def slotOf (keys : List Int32) (key : Int32) : Nat :=
  let place := narrow keys key keys.length 0 keys.length
  if keys[place]? = some key then place else keys.length

/-- The successor taken for a key: that of its place, or of the default. -/
def successorFor (keys keySuccessors : List Int32) (key : Int32) : Option Int32 :=
  keySuccessors[slotOf keys key]?

end Switch

end SeaOfNodes
