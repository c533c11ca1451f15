import SeaOfNodes.Bailout

/-!
# Subroutine scopes

The return addresses of the subroutines that are active at a point, innermost first. They are packed
into one word, sixteen bits each, so there are at most four; an outermost address of zero does not
show.
-/

namespace SeaOfNodes

/-- The return addresses of the active subroutines, the innermost in the low sixteen bits. -/
structure Scope where
  bits : UInt64
deriving DecidableEq, Repr, Inhabited

namespace Scope

/-- No active subroutine. -/
def empty : Scope := ⟨0⟩

/-- Whether no subroutine is active. -/
def isEmpty (s : Scope) : Bool := s.bits == 0

/-- Where the innermost subroutine returns to. -/
def returnAddress (s : Scope) : Nat := (s.bits &&& 0xffff).toNat

/-- Enter a subroutine that returns to a bci. -/
def push (s : Scope) (bci : Nat) : Except Bailout Scope :=
  if s.bits &&& 0xffff000000000000 ≠ 0 then .error (.subroutine .tooDeep)
  else .ok ⟨s.bits <<< 16 ||| (bci.toUInt64 &&& 0xffff)⟩

/-- Leave the innermost subroutine. -/
def pop (s : Scope) : Scope := ⟨s.bits >>> 16⟩

/-- Whether the bits of `s` are among those of `t`. It holds when `t` extends `s` outwards. -/
def isWithin (s t : Scope) : Bool := s.bits &&& t.bits == s.bits

/-- The first `n` addresses. -/
def addressesUpTo : Nat → Scope → List Nat
  | 0, _ => []
  | n + 1, s => if s.isEmpty then [] else s.returnAddress :: addressesUpTo n s.pop

/-- The return addresses, innermost first. -/
def addresses (s : Scope) : List Nat := addressesUpTo 4 s

/-- The addresses in brackets. -/
def text (s : Scope) : String := "[" ++ ", ".intercalate (s.addresses.map toString) ++ "]"

end Scope

end SeaOfNodes
