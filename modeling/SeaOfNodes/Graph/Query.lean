import SeaOfNodes.Graph.Basic

/-!
# Merges and loops

Which phis belong to a merge, which back edges to a loop header, and how many values a phi needs.
-/

namespace SeaOfNodes.Graph

/-- The users of a node, one per input edge. -/
def usages (id : NodeId) : GraphM (List NodeId) := return (← entry id).usages.toList

/-- Whether a node is a phi of a merge. -/
def isPhiAt (id merge : NodeId) : GraphM Bool := return (← node id).phiMerge? == some merge

/-- The phis of a merge, each once. -/
def phisAt (merge : NodeId) : GraphM (List NodeId) :=
  return (← (← usages merge).filterM (isPhiAt · merge)).eraseDups

/-- The place of a node among the back edges of a loop header, if it is one of them. -/
def loopEndIndex? (n : Node) (loopBegin : NodeId) : Option Int32 :=
  match n.op with
  | .loopEnd endIndex => if Links.get n.inputs 0 0 = some loopBegin then some endIndex else none
  | _ => none

/-- The back edges of a loop header, by place. -/
def loopEnds (loopBegin : NodeId) : GraphM (List NodeId) := do
  let ends ← (← usages loopBegin).filterMapM fun user =>
    return (loopEndIndex? (← node user) loopBegin).map (·, user)
  let le (a b : Int32 × NodeId) : Bool := a.1 < b.1 || (a.1 == b.1 && a.2.le b.2)
  return (ends.mergeSort le).map (·.2)

/-- The number of forward ends of a merge or loop header. -/
def forwardEndCount (merge : NodeId) : GraphM Nat := do
  match (← node merge).ends? with
  | some ends => return ends.length
  | none => fail (.notAMerge (← label merge))

/-- The number of values of a phi: one per forward end, and one per back edge of a loop. -/
def phiValueCount (merge : NodeId) : GraphM Nat := do
  let forward ← forwardEndCount merge
  if (← node merge).cls = .loopBegin then return forward + (← loopEnds merge).length
  else return forward

/-- The successor that a switch takes for a key; none for other nodes. -/
def switchSuccessor? (id : NodeId) (key : Int32) : GraphM (Option Int32) := do
  match (← node id).op with
  | .switch keys keySuccessors =>
    match Switch.successorFor keys keySuccessors key with
    | some index => return some index
    | none => fail .outOfRange
  | _ => return none

end SeaOfNodes.Graph
