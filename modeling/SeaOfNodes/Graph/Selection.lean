import SeaOfNodes.Graph.Basic

/-!
# Selections

A selection passes nodes, one at a time, through stages: each keeps a node, drops it, or ends the
selection. A node is looked at only when all before it have been dealt with, so a selection that
stops early never sees the nodes behind.
-/

namespace SeaOfNodes

/-- A stage of a selection. -/
inductive Stage
  /-- Keeps the nodes of a class. -/
  | ofClass (cls : NodeClass)
  /-- Ends the selection before a node. -/
  | until (id : NodeId)
  /-- Keeps the first occurrence of each node; holds those seen. -/
  | distinct (seen : List NodeId)

/-- What becomes of a node. -/
inductive Verdict
  | keep | drop | stop
deriving DecidableEq

/-- Pass a node through a stage. -/
def Stage.pass (g : Graph) (id : NodeId) : Stage → Except Fault (Verdict × Stage)
  | .ofClass cls =>
    match g.node? id with
    | some n => .ok (if n.cls = cls then .keep else .drop, .ofClass cls)
    | none => .error .outOfRange
  | .until last => .ok (if id = last then .stop else .keep, .until last)
  | .distinct seen =>
    .ok (if seen.contains id then (.drop, .distinct seen) else (.keep, .distinct (id :: seen)))

namespace Selection

/-- Pass a node through stages, up to the first that does not keep it. -/
def passAll (g : Graph) (id : NodeId) : List Stage → Except Fault (Verdict × List Stage)
  | [] => .ok (.keep, [])
  | stage :: rest => do
    let (verdict, stage) ← stage.pass g id
    if verdict = .keep then
      let (verdict, rest) ← passAll g id rest
      return (verdict, stage :: rest)
    else return (verdict, stage :: rest)

/-- The nodes that pass all stages, up to and including the first that is `enough`. -/
def run (g : Graph) (enough : NodeId → Bool) : List Stage → List NodeId → Except Fault (List NodeId)
  | _, [] => .ok []
  | stages, id :: rest => do
    match ← passAll g id stages with
    | (.stop, _) => return []
    | (.drop, stages) => run g enough stages rest
    | (.keep, stages) =>
      if enough id then return [id]
      return id :: (← run g enough stages rest)

/-- All nodes that pass. -/
def all (g : Graph) (stages : List Stage) (ids : List NodeId) : Except Fault (List NodeId) :=
  run g (fun _ => false) stages ids

/-- The first node that passes. -/
def first? (g : Graph) (stages : List Stage) (ids : List NodeId) : Except Fault (Option NodeId) :=
  return (← run g (fun _ => true) stages ids).head?

/-- Whether a node passes. -/
def contains (g : Graph) (stages : List Stage) (ids : List NodeId) (id : NodeId) :
    Except Fault Bool :=
  return (← run g (· = id) stages ids).contains id

/-- Whether no node passes. -/
def isEmpty (g : Graph) (stages : List Stage) (ids : List NodeId) : Except Fault Bool :=
  return (← run g (fun _ => true) stages ids).isEmpty

end Selection

end SeaOfNodes
