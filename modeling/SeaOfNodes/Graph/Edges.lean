import SeaOfNodes.Graph.Basic

/-!
# Writing edges

Every write to an edge goes through here, and keeps both ends: the usage list of a node says how
often each user has it as an input, and a node is a successor of its predecessor and of no other
node. To give a node a second predecessor is a fault.
-/

namespace SeaOfNodes.Graph

/-- Add a user to a node's list. -/
def addUsage (target user : NodeId) : GraphM Unit := do
  let _ ← entry target
  modifyEntry target fun e => { e with usages := e.usages.add user, usageStamp := e.usageStamp + 1 }

/-- Take one entry of a user off a node's list; false if there is none. -/
def removeUsage (target user : NodeId) : GraphM Bool := do
  match (← entry target).usages.remove? user with
  | none => return false
  | some usages =>
    modifyEntry target fun e => { e with usages, usageStamp := e.usageStamp + 1 }
    if usages.isEmpty then record (.zeroUsages target)
    return true

/-- Move one usage entry of `user` from `old` to `new`. -/
def updateUsages (user : NodeId) (old new : Option NodeId) : GraphM Unit := do
  if old = new then return
  if let some old := old then
    unless ← removeUsage old user do fail (.missingUsage (← label old) (← label user))
  if let some new := new then addUsage new user
  record (.inputChanged user)

/-- Move the predecessor link of `user` from `old` to `new`. -/
def updatePredecessor (user : NodeId) (old new : Option NodeId) : GraphM Unit := do
  if old = new then return
  if let some old := old then
    if (← entry old).predecessor ≠ some user then
      fail (.wrongPredecessor (← label old) (← label user))
    modifyEntry old fun e => { e with predecessor := none }
  if let some new := new then
    if let some existing := (← entry new).predecessor then
      fail (.secondPredecessor (← label new) (← label existing) (← label user))
    modifyEntry new fun e => { e with predecessor := some user }

/-- Keep the other end of an edge that changed from `old` to `new`. -/
def updateOtherEnd (d : Direction) (user : NodeId) (old new : Option NodeId) : GraphM Unit :=
  match d with
  | .inputs => updateUsages user old new
  | .successors => updatePredecessor user old new

/-- Write the slot at a position; gives what it held. -/
def setEdge (id : NodeId) (p : Position) (value : Option NodeId) : GraphM (Option NodeId) := do
  requireAlive? .edge value
  let n ← node id
  let old := n.get p
  writeNode id (← n.put p value)
  updateOtherEnd p.direction id old value
  return old

/-- Append to the list field of a given name; gives the position of the new slot. -/
def pushEdge (id : NodeId) (d : Direction) (name : String) (value : Option NodeId) :
    GraphM Position := do
  requireAlive? .edge value
  let field ← fieldIndex id d name
  let (p, n) ← (← node id).push d field value
  writeNode id n
  updateOtherEnd d id none value
  return p

/-- Remove the slot of a list; gives what it held. -/
def dropEdge (id : NodeId) (p : Position) : GraphM (Option NodeId) := do
  let (old, n) := (← node id).removeAt p
  writeNode id n
  updateOtherEnd p.direction id old none
  return old

/-- Write the field of a given name. -/
def setField (id : NodeId) (d : Direction) (name : String) (value : Option NodeId) :
    GraphM (Option NodeId) := do
  let field ← fieldIndex id d name
  setEdge id (Position.of d field 0) value

/-- Write the input field of a given name. -/
def setInput (id : NodeId) (name : String) (value : Option NodeId) : GraphM (Option NodeId) :=
  setField id .inputs name value

/-- Write the successor field of a given name. -/
def setSuccessor (id : NodeId) (name : String) (value : Option NodeId) : GraphM (Option NodeId) :=
  setField id .successors name value

/-- Set where control goes after a node. -/
def setNext (id : NodeId) (next : Option NodeId) : GraphM Unit := do
  let _ ← setSuccessor id "next" next

/-- Where control goes after a node. -/
def next? (id : NodeId) : GraphM (Option NodeId) := do
  let field ← fieldIndex id .successors "next"
  return (← node id).get (Position.of .successors field 0)

/-- Set the frame state after a node. -/
def setStateAfter (id : NodeId) (state : Option NodeId) : GraphM Unit := do
  let _ ← setInput id "state_after" state

/-- The frame state after a node; none if its class has no such field. -/
def stateAfter? (id : NodeId) : GraphM (Option NodeId) := do
  let n ← node id
  match n.layout.fieldIndex? .inputs "state_after" with
  | some field => return n.get (Position.of .inputs field 0)
  | none => return none

/-- Append an end to a merge. -/
def addForwardEnd (merge forwardEnd : NodeId) : GraphM Unit := do
  let _ ← pushEdge merge .inputs "ends" (some forwardEnd)

/-- Append a value to a phi. -/
def addPhiInput (phi : NodeId) (value : Option NodeId) : GraphM Unit := do
  let _ ← pushEdge phi .inputs "values" value

/-- Replace the first input `old` of a node; false if it has no such input. -/
def replaceFirstInput (id old : NodeId) (new : Option NodeId) : GraphM Bool := do
  requireAlive? .edge new
  match (← node id).replaceFirst .inputs old new with
  | none => return false
  | some n =>
    writeNode id n
    updateUsages id (some old) new
    return true

/-- Replace inputs `old` of a node at most `n` times; gives how many there were. -/
def replaceInputs (id old : NodeId) (new : Option NodeId) : Nat → GraphM Nat
  | 0 => return 0
  | n + 1 => do
    if ← replaceFirstInput id old new then return (← replaceInputs id old new n) + 1
    else return 0

/-- Replace every input `old` of a node; gives how many there were. -/
def replaceAllInputs (id old : NodeId) (new : Option NodeId) : GraphM Nat := do
  if new = some old then return 0
  requireAlive? .edge new
  let slots := (← node id).slots .inputs
  replaceInputs id old new (slots.count (some old))

/-- Replace the first successor `old` of a node; false if it has no such successor. -/
def replaceFirstSuccessor (id old : NodeId) (new : Option NodeId) : GraphM Bool := do
  match (← node id).replaceFirst .successors old new with
  | none => return false
  | some n =>
    writeNode id n
    updatePredecessor id (some old) new
    return true

/-- Drop all inputs of a node. -/
def clearInputs (id : NodeId) : GraphM Unit := do
  let n ← node id
  writeNode id (n.clear .inputs)
  for input in n.targets .inputs do
    let _ ← removeUsage input id

/-- Drop all successors of a node. -/
def clearSuccessors (id : NodeId) : GraphM Unit := do
  let n ← node id
  writeNode id (n.clear .successors)
  for successor in n.targets .successors do
    let _ ← entry successor
    modifyEntry successor fun e => { e with predecessor := none }

end SeaOfNodes.Graph
