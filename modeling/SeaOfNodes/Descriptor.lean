import SeaOfNodes.Kind

/-!
# Method descriptors

A descriptor such as `(IJLjava/lang/Object;)V` lists the kinds of a method's parameters and the
kind of its result. Class and array types are objects. The reader looks only at what decides a
kind: the element type of an array and everything after the first character of the result are
passed over.
-/

namespace SeaOfNodes

/-- The parameter kinds and the result kind of a method. -/
structure Signature where
  parameters : List Kind
  result : Kind
deriving DecidableEq, Repr

namespace Signature

/-- What the reader of a parameter list expects next. -/
inductive Expect
  /-- The start of a type. -/
  | type
  /-- The rest of a class name. -/
  | name
  /-- The element type of an array. -/
  | element

/-- Read a parameter list. -/
def parameters? : Expect → List Char → Option (List Kind)
  | .type, [] => some []
  | .type, 'L' :: rest => parameters? .name rest
  | .type, '[' :: rest => parameters? .element rest
  | .type, c :: rest => do
    let kind ← Kind.ofTypeChar? c
    return kind :: (← parameters? .type rest)
  | .name, [] => none
  | .name, c :: rest =>
    if c = ';' then (parameters? .type rest).map (.object :: ·) else parameters? .name rest
  | .element, [] => none
  | .element, '[' :: rest => parameters? .element rest
  | .element, 'L' :: rest => parameters? .name rest
  | .element, _ :: rest => (parameters? .type rest).map (.object :: ·)

/-- Read a descriptor: parameters in parentheses, then a result. -/
def ofDescriptor? (descriptor : String) : Option Signature :=
  match descriptor.toList with
  | '(' :: rest =>
    match rest.span (· ≠ ')') with
    | (inside, _ :: result :: _) => do
      let kinds ← parameters? .type inside
      let kind ← Kind.ofTypeChar? result
      return ⟨kinds, kind⟩
    | _ => none
  | _ => none

end Signature

end SeaOfNodes
