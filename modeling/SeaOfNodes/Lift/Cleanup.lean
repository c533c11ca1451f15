import SeaOfNodes.Graph.Query
import SeaOfNodes.Graph.Register
import SeaOfNodes.Graph.Replace

/-!
# Cleaning up a lifted graph

A loop header to which nothing leads back is no loop: its phis, its exits and itself are taken out.
Then the placeholders are spliced out, and frame states that nothing uses are deleted.
-/

namespace SeaOfNodes.Graph

/-- Replace a node by what stands in its input at a place, and delete it. -/
def foldInto (id : NodeId) (value : Option NodeId) : GraphM Unit := do
  replaceAtUsages id value
  delete id

/-- The users of a node that a test accepts, by handle, each once. -/
def usersWhere (id : NodeId) (accept : Node → Bool) : GraphM (List NodeId) := do
  let users ← (← usages id).filterM fun user => return accept (← node user)
  return (users.mergeSort Handle.le).eraseReps

/-- Whether a node is a proxy at a loop exit. -/
def isProxyAt (loopExit : NodeId) (n : Node) : Bool :=
  n.cls = .proxy && Links.get n.inputs 1 0 == some loopExit

/-- Make a loop exit a plain begin, without its proxies. -/
def removeLoopExit (loopExit : NodeId) : GraphM Unit := do
  for proxy in ← usersWhere loopExit (isProxyAt loopExit) do
    foldInto proxy (Links.get (← node proxy).inputs 0 0)
  let begin_ ← add (.begin none)
  let next ← next? loopExit
  setNext loopExit none
  setNext begin_ next
  replaceAtPredecessor loopExit (some begin_)
  delete loopExit

/-- Take out a loop header to which nothing leads back. -/
def removeLoopBegin (loopBegin : NodeId) : GraphM Unit := do
  for phi in ← phisAt loopBegin do
    let values := ((← node phi).phiValues?).getD []
    foldInto phi (values.head?.join)
  for loopExit in ← usersWhere loopBegin (·.cls = .loopExit) do removeLoopExit loopExit
  match ((← node loopBegin).ends?.getD []).filterMap id with
  | [forwardEnd] =>
    let next ← next? loopBegin
    setNext loopBegin none
    delete loopBegin
    replaceAtPredecessor forwardEnd next
    delete forwardEnd
  | _ => return

/-- Clean up a lifted graph. -/
def cleanUp : GraphM Unit := do
  for loopBegin in (← get).nodesOf .loopBegin do
    if (← loopEnds loopBegin).isEmpty then removeLoopBegin loopBegin
  for placeholder in (← get).nodesOf .placeholder do spliceOut placeholder
  for state in (← get).nodesOf .frameState do
    let e ← entry state
    if e.usages.size = 0 && e.predecessor.isNone then delete state

end SeaOfNodes.Graph
