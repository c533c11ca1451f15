import SeaOfNodes.Lift.Basic

/-!
# Entering blocks

The first edge into a block ends at a placeholder, which stands for the head of the block. With the
second edge the block gets a merge: the placeholder leads to an end, the new edge to another, and
the frames are merged. An edge into a loop header that was lifted already is a back edge. An edge
that leaves loops passes one exit per loop, innermost first, where the values of the loop become
proxies.
-/

namespace SeaOfNodes.Lift

/-- The headers of the loops that an edge leaves, innermost first. -/
def exitedHeaders (map : BlockMap) (source target : BlockId) : List BlockId :=
  let exits : LoopMask := (map.block source).loops &&& ~~~(map.block target).loops
  let depth (id : BlockId) : Nat := (LoopMask.toList (map.block id).loops).length
  ((LoopMask.toList exits).filterMap map.header?).mergeSort fun a b => depth b ≤ depth a

/-- Add the exit of one loop; gives it and the frame behind it. -/
def addExit (bci : Int) (header : BlockId) (f : Frame) : LiftM (NodeId × Frame) := do
  match ← arrival? header with
  | some ⟨loopBegin, some entry⟩ =>
    let exit ← onGraph (Graph.add (.loopExit loopBegin))
    let f ← onGraph (f.insertProxies exit loopBegin entry)
    setState exit f bci
    return (exit, f)
  | _ => malformed .exitBeforeHeader

/-- Put the exits of loops in front of a node, each leading to the next; gives the first of them and
the frame behind the last. -/
def addExits (bci : Int) (target : NodeId) : List BlockId → Frame → LiftM (NodeId × Frame)
  | [], f => return (target, f)
  | header :: rest, f => do
    let (exit, f) ← addExit bci header f
    let (next, f) ← addExits bci target rest f
    onGraph (Graph.setNext exit (some next))
    return (exit, f)

/-- Put the exits in front of a node that the edge from the current block to another one needs. -/
def throughExits (target : NodeId) (id : BlockId) (f : Frame) : LiftM (NodeId × Frame) := do
  let s ← get
  match s.current with
  | none => return (target, f)
  | some source =>
    addExits (s.map.block id).stateBci target (exitedHeaders s.map source id) f

/-- Merge a frame into the frame of a merge; they must have the same kinds on the stack. -/
def mergeFrames (entry : Frame) (merge : NodeId) (f : Frame) : LiftM Frame := do
  ofExcept (← onGraph (entry.merge merge f))

/-- The merge at the head of a block: the one that is there, or a new one behind a placeholder. -/
def mergeAt (id : BlockId) (first : NodeId) : LiftM NodeId := do
  if (← classOf first) = .merge then return first
  let merge ← onGraph do
    let forwardEnd ← Graph.add .forwardEnd
    Graph.setNext first (some forwardEnd)
    let merge ← Graph.add .merge
    Graph.addForwardEnd merge forwardEnd
    return merge
  setArrival id ⟨merge, none⟩
  return merge

/-- One more edge into a block that is entered through `first` with the frame `entry`; gives where
the edge leads and the merged frame. -/
def mergeInto (id : BlockId) (first : NodeId) (entry f : Frame) : LiftM (NodeId × Frame) := do
  if !entry.isCompatible f then bailout .stacksDoNotMatch
  match ← classOf first with
  | .loopBegin =>
    let loopEnd ← onGraph do
      let ends ← Graph.loopEnds first
      Graph.add (.loopEnd first (Int32.ofNat ends.length))
    let (target, f) ← throughExits loopEnd id f
    return (target, ← mergeFrames entry first f)
  | .placeholder | .merge =>
    let merge ← mergeAt id first
    let forwardEnd ← onGraph (Graph.add .forwardEnd)
    let (target, f) ← throughExits forwardEnd id f
    let entry ← mergeFrames entry merge f
    onGraph (Graph.addForwardEnd merge forwardEnd)
    return (target, entry)
  | cls => malformed (.closedBlock (← block id).text cls.name)

/-- The node to which control must go to enter a block with a frame. -/
def target (id : BlockId) (f : Frame) : LiftM NodeId := do
  match ← arrival? id with
  | none =>
    let placeholder ← onGraph (Graph.add .placeholder)
    let (target, entry) ← throughExits placeholder id f
    setArrival id ⟨placeholder, some (← clearedFor id entry)⟩
    return target
  | some ⟨_, none⟩ => malformed (.noEntryState (← block id).text)
  | some ⟨first, some entry⟩ =>
    setArrival id ⟨first, none⟩
    let (target, entry) ← mergeInto id first entry f
    let first := ((← arrival? id).map (·.first)).getD first
    setArrival id ⟨first, some entry⟩
    return target

/-- Like `target`, with a begin in front if a control split needs one. -/
def branchTarget (id : BlockId) (f : Frame) : LiftM NodeId := do
  let target ← target id f
  if (← classOf target).has .begin then return target
  onGraph (Graph.add (.begin (some target)))

/-- Let control go to a block. -/
def jumpTo (id : BlockId) : LiftM Unit := do
  appendJump (← target id (← get).frame)

end SeaOfNodes.Lift
