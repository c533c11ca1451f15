import SeaOfNodes.Graph.Edges

/-!
# Replacing and deleting nodes

A node is replaced at its users, at its predecessor, or at both. A node is deleted only when nothing
refers to it any more; its own edges are dropped first.
-/

namespace SeaOfNodes.Graph

/-- Replace a node at one of its users. -/
def replaceAtUser (id : NodeId) (other : Option NodeId) (user : NodeId) : GraphM Unit := do
  unless ← replaceFirstInput user id other do fail (.unmatchedUsage user id)

/-- Replace a node at those of its users that a test accepts, one usage entry at a time. -/
def replaceAtUsagesWhere (id : NodeId) (other : Option NodeId) (accept : NodeId → GraphM Bool) :
    GraphM Unit := do
  for user in (← entry id).usages.toList do
    if ← accept user then replaceAtUser id other user

/-- Replace a node at all of its users. -/
def replaceAtUsages (id : NodeId) (other : Option NodeId) : GraphM Unit := do
  if other = some id then fail (.selfReplacement id)
  replaceAtUsagesWhere id other fun _ => return true

/-- Replace a node at those of its users that are of a class. -/
def replaceAtUsagesOfClass (id : NodeId) (cls : NodeClass) (other : Option NodeId) : GraphM Unit :=
  replaceAtUsagesWhere id other fun user => return (← node user).cls == cls

/-- The positions of a node's inputs of one role that hold a given node. -/
def positionsOfRole (n : Node) (role : Role) (id : NodeId) : List Position :=
  (n.walk .inputs).filterMap fun (p, value) =>
    if value = some id && (n.fieldSpec? p).any (·.role == role) then some p else none

/-- Replace a node in the input fields of one role. -/
def replaceAtUsagesOfRole (id : NodeId) (role : Role) (other : Option NodeId) : GraphM Unit := do
  let users := ((← entry id).usages.toList.mergeSort Handle.le).eraseReps
  for user in users do
    for p in positionsOfRole (← node user) role id do
      let _ ← setEdge user p other

/-- Replace a node as the successor of its predecessor. -/
def replaceAtPredecessor (id : NodeId) (other : Option NodeId) : GraphM Unit := do
  if let some predecessor := (← entry id).predecessor then
    unless ← replaceFirstSuccessor predecessor id other do
      fail (.unlistedSuccessor predecessor id)

/-- Mark a node as deleted. -/
def unregister (id : NodeId) : GraphM Unit := do
  let cls := (← node id).cls
  modifyEntry id fun e => { e with alive := false }
  modify fun g =>
    let list := g.classes[cls.index]
    { g with
      deletedCount := g.deletedCount + 1
      classes := g.classes.set cls.index { list with stale := list.stale + 1 } }

/-- Delete a node to which nothing refers. -/
def delete (id : NodeId) : GraphM Unit := do
  requireAlive .deletion id
  let e ← entry id
  if e.usages.size ≠ 0 then fail (.stillUsed (e.node.label id) e.usages.size (e.usages.get? 0))
  if let some predecessor := e.predecessor then
    fail (.stillPreceded (e.node.label id) (← label predecessor))
  clearInputs id
  clearSuccessors id
  unregister id

/-- Replace a node everywhere and delete it. -/
def replaceAndDelete (id other : NodeId) : GraphM Unit := do
  clearSuccessors id
  replaceAtUsages id (some other)
  replaceAtPredecessor id (some other)
  delete id

/-- Take a node out of the control flow, so that its predecessor leads to where it led, and delete
it. -/
def spliceOut (id : NodeId) : GraphM Unit := do
  unless (← entry id).usages.isEmpty do fail (.usedOnRemoval (← label id))
  let next ← next? id
  setNext id none
  replaceAtPredecessor id next
  delete id

end SeaOfNodes.Graph
