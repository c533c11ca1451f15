import SeaOfNodes.Graph.Basic

/-!
# Verifying graphs

A graph is sound when both ends of every edge agree and no edge leads to a deleted node. The checks
report the first violation, by handle and then by the order of the node's fields.
-/

namespace SeaOfNodes

/-- What is wrong with a node. -/
inductive Violation
  | unregistered
  | deleted
  | missingInput (field : String)
  | deadInput (field : String) (input : NodeId)
  | unlistedUsage (input : NodeId)
  | deadSuccessor (successor : NodeId)
  | otherPredecessor (successor : NodeId)
  | deadUsage (usage : NodeId)
  | unmatchedUsage (usage : NodeId)
  | deadPredecessor (predecessor : NodeId)
  | unlistedSuccessor (predecessor : NodeId)
  | notPacked
  | usageCount (input : NodeId) (count listed : Nat)
  | sharedSuccessor (successor owner : NodeId)
deriving DecidableEq, Repr

/-- The wording of a violation. -/
def Violation.message : Violation → String
  | .unregistered => "not registered in this graph"
  | .deleted => "node is deleted"
  | .missingInput field => "required input `" ++ field ++ "` is null"
  | .deadInput field input => "input `" ++ field ++ "` refers to dead node " ++ input.tagged
  | .unlistedUsage input => "input " ++ input.tagged ++ " does not list this node as a usage"
  | .deadSuccessor successor => "successor " ++ successor.tagged ++ " is dead"
  | .otherPredecessor successor =>
    "successor " ++ successor.tagged ++ " has a different predecessor"
  | .deadUsage usage => "usage " ++ usage.tagged ++ " is dead"
  | .unmatchedUsage usage => "usage " ++ usage.tagged ++ " does not have this node as an input"
  | .deadPredecessor predecessor => "predecessor " ++ predecessor.tagged ++ " is dead"
  | .unlistedSuccessor predecessor =>
    "predecessor " ++ predecessor.tagged ++ " does not list this node"
  | .notPacked => "usage list is not packed"
  | .usageCount input count listed =>
    "uses " ++ input.tagged ++ " " ++ toString count ++ " time(s) but is listed " ++
      toString listed ++ " time(s)"
  | .sharedSuccessor successor owner =>
    "successor " ++ successor.tagged ++ " is also a successor of " ++ owner.tagged

/-- A violation, and the text that names where it was found. -/
structure Flaw where
  subject : String
  complaint : String
deriving DecidableEq, Repr

/-- The flaw in one sentence. -/
def Flaw.message (f : Flaw) : String :=
  "verification failed at " ++ f.subject ++ ": " ++ f.complaint

namespace Graph

/-- An input is present if its field needs one, alive, and knows its user. -/
def inputViolation? (g : Graph) (id : NodeId) (n : Node) (slot : Position × Option NodeId) :
    Option Violation := do
  let field ← n.fieldSpec? slot.1
  match slot.2 with
  | none => if field.shape = .single then some (.missingInput field.name) else none
  | some input =>
    match g.get? input with
    | some e =>
      if !e.alive then some (.deadInput field.name input)
      else if !e.usages.contains id then some (.unlistedUsage input)
      else none
    | none => some (.deadInput field.name input)

/-- A successor is alive and has this node as its predecessor. -/
def successorViolation? (g : Graph) (id successor : NodeId) : Option Violation :=
  match g.get? successor with
  | some e =>
    if !e.alive then some (.deadSuccessor successor)
    else if e.predecessor ≠ some id then some (.otherPredecessor successor)
    else none
  | none => some (.deadSuccessor successor)

/-- A user is alive and has this node as an input. -/
def usageViolation? (g : Graph) (id usage : NodeId) : Option Violation :=
  match g.get? usage with
  | some e =>
    if !e.alive then some (.deadUsage usage)
    else if !(e.node.targets .inputs).contains id then some (.unmatchedUsage usage)
    else none
  | none => some (.deadUsage usage)

/-- The predecessor is alive and has this node as a successor. -/
def predecessorViolation? (g : Graph) (id predecessor : NodeId) : Option Violation :=
  match g.get? predecessor with
  | some e =>
    if !e.alive then some (.deadPredecessor predecessor)
    else if !(e.node.targets .successors).contains id then some (.unlistedSuccessor predecessor)
    else none
  | none => some (.deadPredecessor predecessor)

/-- The first violation at a node. -/
def nodeViolation? (g : Graph) (id : NodeId) : Option Violation :=
  match g.get? id with
  | none => some .unregistered
  | some e =>
    if !e.alive then some .deleted
    else
      (e.node.walk .inputs).findSome? (g.inputViolation? id e.node)
        <|> (e.node.targets .successors).findSome? (g.successorViolation? id)
        <|> e.usages.toList.findSome? (g.usageViolation? id)
        <|> e.predecessor.bind (g.predecessorViolation? id)

/-- The first violation at any node. -/
def violation? (g : Graph) : Option (NodeId × Violation) :=
  g.nodes.findSome? fun id => (g.nodeViolation? id).map (id, ·)

/-- The first input that is used and listed a different number of times. -/
def countViolation? (g : Graph) (id : NodeId) (n : Node) : Option Violation :=
  let inputs := n.targets .inputs
  inputs.eraseDups.findSome? fun input =>
    let count := inputs.count input
    let listed := ((g.get? input).map (·.usages.countOf id)).getD 0
    if listed = count then none else some (.usageCount input count listed)

/-- Enter a node's successors in a table of owners; the first one that has an owner already. -/
def claimSuccessors (id : NodeId) :
    List NodeId → List (NodeId × NodeId) → Except Violation (List (NodeId × NodeId))
  | [], owners => .ok owners
  | successor :: rest, owners =>
    match owners.lookup successor with
    | some owner => .error (.sharedSuccessor successor owner)
    | none => claimSuccessors id rest ((successor, id) :: owners)

/-- The first node whose usage list is not packed, whose inputs are not listed as often as they are
used, or one of whose successors is another successor too. -/
def bookViolation? (g : Graph) : List NodeId → List (NodeId × NodeId) → Option (NodeId × Violation)
  | [], _ => none
  | id :: rest, owners =>
    match g.get? id with
    | none => bookViolation? g rest owners
    | some e =>
      if !e.usages.isPacked then some (id, .notPacked)
      else match g.countViolation? id e.node with
        | some v => some (id, v)
        | none =>
          match claimSuccessors id (e.node.targets .successors) owners with
          | .error v => some (id, v)
          | .ok owners => bookViolation? g rest owners

/-- A violation as a flaw. -/
def flaw (g : Graph) (id : NodeId) (v : Violation) : Flaw :=
  ⟨match g.node? id with
    | some n => (n.label id).text
    | none => id.tagged, v.message⟩

/-- Check one node. -/
def verifyNode (g : Graph) (id : NodeId) : Except Flaw Unit :=
  match g.nodeViolation? id with
  | some v => .error (g.flaw id v)
  | none => .ok ()

/-- Check every node. -/
def verify (g : Graph) : Except Flaw Unit :=
  match g.violation? with
  | some (id, v) => .error (g.flaw id v)
  | none => .ok ()

/-- Check every node, the number of usage entries, and that successors are not shared. -/
def verifyEdges (g : Graph) : Except Flaw Unit :=
  match g.violation? <|> g.bookViolation? g.nodes [] with
  | some (id, v) => .error (g.flaw id v)
  | none => .ok ()

end Graph

end SeaOfNodes
