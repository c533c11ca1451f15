import SeaOfNodes.Graph.Basic

/-!
# Raw handles

A signed number that tells the life of a node: its handle while it is alive, a number far below zero
once it is deleted, and any other negative number before it is registered.
-/

namespace SeaOfNodes

/-- The stages of a node's life. -/
inductive Lifecycle
  | initial
  | alive (index : Nat)
  | deleted (index : Nat)
deriving DecidableEq, Repr

namespace Lifecycle

/-- Raw handles of deleted nodes go down from here. -/
def deletedBase : Int32 := -1000000000

/-- The raw handle of a deleted node. -/
def deletedRaw (index : Nat) : Int32 := deletedBase - .ofNat index

/-- Read a raw handle. -/
def ofRaw (raw : Int32) : Lifecycle :=
  if 0 ≤ raw then .alive raw.toInt.toNat
  else if raw ≤ deletedBase then .deleted (deletedBase - raw).toInt.toNat
  else .initial

end Lifecycle

/-- The raw handle of a registered node. -/
def Entry.raw (e : Entry) (id : NodeId) : Int32 :=
  if e.alive then .ofNat id.index else Lifecycle.deletedRaw id.index

end SeaOfNodes
