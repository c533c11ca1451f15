import SeaOfNodes.Kind
import SeaOfNodes.Node.Layout

/-!
# Faults

A fault says which precondition of an operation was not met. It means that the caller is wrong, not
its input: nothing of the operation takes effect. Each cause is a constructor; `message?` gives its
wording. Some causes have no wording: a handle that names no node where one is needed, a phi that
goes although a computation uses it, and a pushed value of no kind.
-/

namespace SeaOfNodes

/-- A node as messages show it: its handle and its class. -/
structure NodeLabel where
  id : NodeId
  cls : NodeClass
deriving DecidableEq, Repr

/-- The handle and the class name, as in `7|Phi`. -/
def NodeLabel.text (l : NodeLabel) : String := l.id.text ++ "|" ++ l.cls.name

/-- What a node had to be alive for. -/
inductive Wiring
  | newNode | edge | deletion
deriving DecidableEq, Repr

/-- The start of a message about a node that is not alive. -/
def Wiring.text : Wiring → String
  | .newNode => "new node refers to"
  | .edge => "edge to"
  | .deletion => "cannot delete"

/-- An unmet precondition. -/
inductive Fault
  /-- A handle, place or index that names nothing. -/
  | outOfRange
  | valueNumberable (cls : NodeClass)
  | notValueNumberable (cls : NodeClass)
  | deletedNode (wiring : Wiring) (node : NodeLabel)
  | unknownNode (wiring : Wiring) (id : NodeId)
  | missingUsage (node user : NodeLabel)
  | wrongPredecessor (node expected : NodeLabel)
  | secondPredecessor (successor existing node : NodeLabel)
  | noFieldNamed (cls : NodeClass) (direction : Direction) (name : String)
  | noFieldAt (cls : NodeClass) (direction : Direction) (field : Nat)
  | listIndex (cls : NodeClass) (index : Nat)
  | notAList (cls : NodeClass) (direction : Direction) (field : Nat)
  | selfReplacement (id : NodeId)
  | unmatchedUsage (usage node : NodeId)
  | unlistedSuccessor (predecessor node : NodeId)
  | stillUsed (node : NodeLabel) (count : Nat) (first : Option NodeId)
  | stillPreceded (node predecessor : NodeLabel)
  | usedOnRemoval (node : NodeLabel)
  | notAMerge (node : NodeLabel)
  | unresolvedInput (input node : NodeId) (cls : NodeClass)
  | usagesModified (node : NodeLabel)
  | edgesModified (node : NodeLabel)
  /-- A phi or proxy is to go, but more than phis, proxies and frame states use it. -/
  | phiInUse (id : NodeId)
  /-- A value is pushed whose kind has no values. -/
  | noValue (kind : Kind)
deriving DecidableEq, Repr

/-- The wording of a fault, if it has one. -/
def Fault.message? : Fault → Option String
  | .outOfRange | .phiInUse _ | .noValue _ => none
  | .valueNumberable cls => some (cls.name ++ " is value-numberable; use unique or add_or_unique")
  | .notValueNumberable cls => some (cls.name ++ " is not value-numberable")
  | .deletedNode wiring node => some (wiring.text ++ " deleted node " ++ node.text)
  | .unknownNode wiring id => some (wiring.text ++ " unknown node " ++ id.tagged)
  | .missingUsage node user => some (node.text ++ " is missing usage " ++ user.text)
  | .wrongPredecessor node expected =>
    some ("predecessor of " ++ node.text ++ " is not " ++ expected.text)
  | .secondPredecessor successor existing node =>
    some ("unexpected non-null predecessor in new successor (" ++ successor.text ++ "): " ++
      existing.text ++ ", this=" ++ node.text)
  | .noFieldNamed cls direction name =>
    some (cls.name ++ " has no " ++ direction.name ++ " field `" ++ name ++ "`")
  | .noFieldAt cls direction field =>
    some (cls.name ++ " has no " ++ direction.name ++ " field " ++ toString field)
  | .listIndex cls index => some (cls.name ++ ": list index " ++ toString index ++ " out of bounds")
  | .notAList cls direction field =>
    some (cls.name ++ ": " ++ direction.name ++ " field " ++ toString field ++ " is not a list")
  | .selfReplacement id => some (id.tagged ++ " cannot replace itself")
  | .unmatchedUsage usage node =>
    some ("usage " ++ usage.tagged ++ " of " ++ node.tagged ++ " has no matching input")
  | .unlistedSuccessor predecessor node =>
    some (predecessor.tagged ++ " does not list " ++ node.tagged ++ " as a successor")
  | .stillUsed node count first =>
    some ("cannot delete " ++ node.text ++ ": it still has " ++ toString count ++
      " usage(s), first is " ++ Handle.taggedOption first)
  | .stillPreceded node predecessor =>
    some ("cannot delete " ++ node.text ++ ": it still has predecessor " ++ predecessor.text)
  | .usedOnRemoval node => some ("cannot remove " ++ node.text ++ ": it still has usages")
  | .notAMerge node => some (node.text ++ " is not a merge")
  | .unresolvedInput input node cls =>
    some ("input " ++ input.tagged ++ " of " ++ node.tagged ++ " (" ++ cls.name ++
      ") is neither duplicated nor replaced")
  | .usagesModified node => some ("usages of " ++ node.text ++ " modified during iteration")
  | .edgesModified node => some ("edges of " ++ node.text ++ " modified during iteration")

end SeaOfNodes
