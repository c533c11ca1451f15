/-!
# Operators and conditions

The binary operators, the comparison conditions, and the reasons for which compiled code hands
control back.
-/

namespace SeaOfNodes

/-- Binary operators. -/
inductive ArithOp
  | add | sub | mul | div | rem | and | or | xor | shl | shr | ushr
deriving DecidableEq, Repr

namespace ArithOp

/-- Every operator. -/
def all : List ArithOp := [.add, .sub, .mul, .div, .rem, .and, .or, .xor, .shl, .shr, .ushr]

/-- The operator's sign. -/
def sign : ArithOp → String
  | .add => "+"
  | .sub => "-"
  | .mul => "*"
  | .div => "/"
  | .rem => "%"
  | .and => "&"
  | .or => "|"
  | .xor => "^"
  | .shl => "<<"
  | .shr => ">>"
  | .ushr => ">>>"

/-- The operator with a given sign. -/
def ofSign? (sign : String) : Option ArithOp := all.find? fun op => op.sign == sign

/-- Whether the operands may be exchanged. -/
def isCommutative : ArithOp → Bool
  | .add | .mul | .and | .or | .xor => true
  | _ => false

/-- Whether a zero divisor raises an exception. -/
def canTrap : ArithOp → Bool
  | .div | .rem => true
  | _ => false

end ArithOp

/-- Comparison conditions. -/
inductive Condition
  | eq | ne | lt | le | gt | ge
deriving DecidableEq, Repr

namespace Condition

/-- Every condition. -/
def all : List Condition := [.eq, .ne, .lt, .le, .gt, .ge]

/-- The condition's sign. -/
def sign : Condition → String
  | .eq => "=="
  | .ne => "!="
  | .lt => "<"
  | .le => "<="
  | .gt => ">"
  | .ge => ">="

/-- The condition with a given sign. -/
def ofSign? (sign : String) : Option Condition := all.find? fun c => c.sign == sign

/-- The condition that holds exactly when this one does not. -/
def negate : Condition → Condition
  | .eq => .ne
  | .ne => .eq
  | .lt => .ge
  | .le => .gt
  | .gt => .le
  | .ge => .lt

/-- The condition on the exchanged operands. -/
def swap : Condition → Condition
  | .eq => .eq
  | .ne => .ne
  | .lt => .gt
  | .le => .ge
  | .gt => .lt
  | .ge => .le

end Condition

/-- Why compiled code hands control back to the interpreter. -/
inductive DeoptReason
  /-- A reference was not resolved when the method was lifted. -/
  | unresolved
  /-- Code that is never expected to run. -/
  | unreachedCode
  /-- A subroutine returned to an unexpected address. -/
  | subroutineMismatch
deriving DecidableEq, Repr

namespace DeoptReason

/-- Every reason. -/
def all : List DeoptReason := [.unresolved, .unreachedCode, .subroutineMismatch]

/-- The reason's name. -/
def name : DeoptReason → String
  | .unresolved => "Unresolved"
  | .unreachedCode => "UnreachedCode"
  | .subroutineMismatch => "JavaSubroutineMismatch"

/-- The reason of a given name. -/
def ofName? (name : String) : Option DeoptReason := all.find? fun r => r.name == name

end DeoptReason

end SeaOfNodes
