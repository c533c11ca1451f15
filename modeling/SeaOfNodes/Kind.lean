/-!
# Kinds of values

The kind of a value says how it is computed with and how many frame slots it takes. The kinds
below `int` occur only in signatures and fields: on the operand stack they widen to `int`. A
`long` or `double` takes two slots. A return address is what a subroutine call pushes.
-/

namespace SeaOfNodes

/-- The kind of a value. -/
inductive Kind
  | boolean | byte | short | char | int | long | float | double
  | object | returnAddress | void | illegal
deriving DecidableEq, Repr, Inhabited

namespace Kind

/-- Every kind. -/
def all : List Kind :=
  [.boolean, .byte, .short, .char, .int, .long, .float, .double, .object, .returnAddress, .void,
    .illegal]

/-- Whether values of this kind take two slots. -/
def isTwoSlot : Kind → Bool
  | .long | .double => true
  | _ => false

/-- The number of frame slots of a value. -/
def slotCount : Kind → Nat
  | .void | .illegal => 0
  | .long | .double => 2
  | _ => 1

/-- The kind that a value has on the operand stack. -/
def onStack : Kind → Kind
  | .boolean | .byte | .short | .char => .int
  | k => k

/-- Whether this is a kind of numbers. -/
def isPrimitive : Kind → Bool
  | .object | .returnAddress | .void | .illegal => false
  | _ => true

/-- Whether values are integers once on the stack. -/
def isIntegral (k : Kind) : Bool :=
  match k.onStack with
  | .int | .long => true
  | _ => false

/-- The kind that a descriptor character stands for. -/
def ofTypeChar? : Char → Option Kind
  | 'Z' => some .boolean
  | 'B' => some .byte
  | 'S' => some .short
  | 'C' => some .char
  | 'I' => some .int
  | 'J' => some .long
  | 'F' => some .float
  | 'D' => some .double
  | 'L' | '[' => some .object
  | 'V' => some .void
  | _ => none

/-- One character per kind. -/
def typeChar : Kind → Char
  | .boolean => 'Z'
  | .byte => 'B'
  | .short => 'S'
  | .char => 'C'
  | .int => 'I'
  | .long => 'J'
  | .float => 'F'
  | .double => 'D'
  | .object => 'A'
  | .returnAddress => 'r'
  | .void => 'V'
  | .illegal => '-'

/-- The kind as its character. -/
def code (k : Kind) : String := k.typeChar.toString

/-- The kind as its character, or the absence of one. -/
def codeOption : Option Kind → String
  | none => "None"
  | some k => "Some(" ++ k.code ++ ")"

/-- The kind in words. -/
def name : Kind → String
  | .boolean => "boolean"
  | .byte => "byte"
  | .short => "short"
  | .char => "char"
  | .int => "int"
  | .long => "long"
  | .float => "float"
  | .double => "double"
  | .object => "object"
  | .returnAddress => "jsr"
  | .void => "void"
  | .illegal => "illegal"

/-- The kind of a given name. -/
def ofName? (name : String) : Option Kind := all.find? fun k => k.name == name

end Kind

end SeaOfNodes
