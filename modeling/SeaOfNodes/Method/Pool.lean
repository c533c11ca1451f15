import SeaOfNodes.Bailout
import SeaOfNodes.Descriptor
import SeaOfNodes.Text.Shortest

/-!
# Constant pools

A method names its constants and the fields, methods and classes it refers to by their place in a
pool, counted from one. A reference knows whether it is resolved. The numbers of the pool are kept
as bits.
-/

namespace SeaOfNodes

/-- A reference to a class. -/
structure TypeRef where
  name : String
  resolved : Bool
deriving DecidableEq, Repr

/-- A reference to a field. -/
structure FieldRef where
  holder : String
  name : String
  kind : Kind
  resolved : Bool
deriving DecidableEq, Repr

/-- The field with its class. -/
def FieldRef.qualifiedName (f : FieldRef) : String := f.holder ++ "." ++ f.name

/-- A reference to a method. -/
structure MethodRef where
  holder : String
  name : String
  descriptor : String
  resolved : Bool
deriving DecidableEq, Repr

/-- The method with its class and descriptor. -/
def MethodRef.qualifiedName (m : MethodRef) : String := m.holder ++ "." ++ m.name ++ m.descriptor

/-- The kinds of the method's parameters and result. -/
def MethodRef.signature (m : MethodRef) : Except Bailout Signature :=
  match Signature.ofDescriptor? m.descriptor with
  | some s => .ok s
  | none => .error (.malformed (.badDescriptor m.descriptor))

/-- An entry of a pool. -/
inductive PoolEntry
  | int (value : Int32)
  | long (value : Int64)
  | float (bits : UInt32)
  | double (bits : UInt64)
  | string (value : String)
  | field (ref : FieldRef)
  | method (ref : MethodRef)
  | type (ref : TypeRef)
deriving DecidableEq, Repr

namespace PoolEntry

/-- Numbers in descriptions keep a `.0`, and have an exponent from 1e16 on and below 1e-4. -/
def numberStyle : Text.DecimalStyle := ⟨true, some (-4, 15)⟩

/-- A boolean in words. -/
def boolText (b : Bool) : String := if b then "true" else "false"

/-- The name of the sort of entry. -/
def tag : PoolEntry → String
  | .int _ => "int"
  | .long _ => "long"
  | .float _ => "float"
  | .double _ => "double"
  | .string _ => "string"
  | .field _ => "field"
  | .method _ => "method"
  | .type _ => "type"

/-- A description of the entry with all its parts. -/
def describe : PoolEntry → String
  | .int value => "Int(" ++ toString value.toInt ++ ")"
  | .long value => "Long(" ++ toString value.toInt ++ ")"
  | .float bits => "Float(" ++ Text.FloatLayout.single.text numberStyle bits.toNat ++ ")"
  | .double bits => "Double(" ++ Text.FloatLayout.double.text numberStyle bits.toNat ++ ")"
  | .string value => "String(" ++ Text.quoted value ++ ")"
  | .field f =>
    "Field(FieldRef \x7b holder: " ++ Text.quoted f.holder ++ ", name: " ++ Text.quoted f.name ++
      ", kind: " ++ f.kind.code ++ ", resolved: " ++ boolText f.resolved ++ " \x7d)"
  | .method m =>
    "Method(MethodRef \x7b holder: " ++ Text.quoted m.holder ++ ", name: " ++ Text.quoted m.name ++
      ", descriptor: " ++ Text.quoted m.descriptor ++ ", resolved: " ++ boolText m.resolved ++
      " \x7d)"
  | .type t =>
    "Type(TypeRef \x7b name: " ++ Text.quoted t.name ++ ", resolved: " ++ boolText t.resolved ++
      " \x7d)"

end PoolEntry

/-- The entries of a method's pool. -/
structure Pool where
  entries : List PoolEntry
deriving DecidableEq, Repr

namespace Pool

/-- The entry at an index, counted from one. -/
def get? (pool : Pool) (index : Nat) : Option PoolEntry :=
  if index = 0 then none else pool.entries[index - 1]?

/-- The entry at an index that must exist. -/
def entry (pool : Pool) (index : Nat) : Except Bailout PoolEntry :=
  match pool.get? index with
  | some e => .ok e
  | none => .error (.malformed (.poolIndex index))

/-- The field reference at an index. -/
def field (pool : Pool) (index : Nat) : Except Bailout FieldRef := do
  match ← pool.entry index with
  | .field ref => return ref
  | other => throw (.malformed (.poolEntry "field ref" index other.describe))

/-- The method reference at an index. -/
def method (pool : Pool) (index : Nat) : Except Bailout MethodRef := do
  match ← pool.entry index with
  | .method ref => return ref
  | other => throw (.malformed (.poolEntry "method ref" index other.describe))

/-- The class reference at an index. -/
def type (pool : Pool) (index : Nat) : Except Bailout TypeRef := do
  match ← pool.entry index with
  | .type ref => return ref
  | other => throw (.malformed (.poolEntry "class ref" index other.describe))

end Pool

end SeaOfNodes
