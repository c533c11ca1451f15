import SeaOfNodes.Frame.Basic
import SeaOfNodes.Graph.Query
import SeaOfNodes.Graph.Replace
import SeaOfNodes.Graph.SideTable

/-!
# Merging frames

Where control joins, a slot in which the frames disagree gets a phi. A loop header gets a phi for
every slot before anything is known about its back edges. A phi that a later frame cannot give a
value is deleted, with the phis and proxies that use it; frame states lose it, and no other node may
use it.
-/

namespace SeaOfNodes.Frame

/-- Apply a change to every slot in order: locals first, then the stack from the bottom up. -/
def mapSlots (change : Option Slot → GraphM (Option Slot)) (f : Frame) : GraphM Frame := do
  let locals ← f.locals.mapM change
  let stack ← f.stack.reverse.mapM change
  return { f with locals, stack := stack.reverse }

/-- Whether a class is deleted together with the phis it uses. -/
def followsPhi (cls : NodeClass) : Bool := cls = .phi || cls = .proxy

/-- Whether a class may use a phi that is deleted. -/
def toleratesLoss (cls : NodeClass) : Bool := followsPhi cls || cls = .frameState

/-- Delete queued nodes, and the phis and proxies that use them. Each step takes one node off the
queue, and no node is queued twice. -/
def deleteQueued : Nat → Worklist → GraphM Unit
  | 0, _ => return
  | fuel + 1, work => do
    let some id := work.first? | return
    let work := work.pop
    if !(← get).isAlive id then deleteQueued fuel work
    else
      let users ← Graph.usages id
      let dependents ← users.filterM fun user =>
        if user = id then return false else return followsPhi (← Graph.node user).cls
      let classes ← users.mapM fun user => return (← Graph.node user).cls
      unless classes.all toleratesLoss do Graph.fail (.phiInUse id)
      Graph.replaceAtUsages id none
      Graph.delete id
      deleteQueued fuel (work.addAll dependents)

/-- Delete a phi, and the phis and proxies that use it. -/
def deletePhi (phi : NodeId) : GraphM Unit := do
  let g ← get
  deleteQueued (g.bound + 1) ((Worklist.create g true).add phi)

/-- A slot whose node is not deleted. -/
def aliveSlot (g : Graph) (slot : Option Slot) : Option Slot :=
  slot.filter fun s => g.isAlive s.node

/-- The value of a slot after a merge is entered from one more side. -/
def mergeSlot (merge : NodeId) (current other : Option Slot) : GraphM (Option Slot) := do
  let g ← get
  let some current := aliveSlot g current | return none
  let other := aliveSlot g other
  if ← Graph.isPhiAt current.node merge then
    match other.filter (·.kind = current.kind) with
    | some other =>
      Graph.addPhiInput current.node (some other.node)
      return some current
    | none =>
      deletePhi current.node
      return none
  else if other.map (·.node) = some current.node then return some current
  else match other.filter (·.kind = current.kind) with
    | none => return none
    | some other =>
      let phi ← Graph.add (.phi current.kind merge)
      for _ in List.range (← Graph.phiValueCount merge) do
        Graph.addPhiInput phi (some current.node)
      Graph.addPhiInput phi (some other.node)
      return some (.of phi current.kind)

/-- Merge slots in order. -/
def mergeSlots (merge : NodeId) :
    List (Option Slot) → List (Option Slot) → GraphM (List (Option Slot))
  | current :: rest, other :: others => do
    let slot ← mergeSlot merge current other
    return slot :: (← mergeSlots merge rest others)
  | current, _ => return current

/-- Whether two frames have the same kinds on the stack. -/
def isCompatible (f other : Frame) : Bool :=
  let kinds (f : Frame) := f.stack.map fun slot => slot.map (·.kind)
  kinds f == kinds other

/-- Merge the slots of a frame that is compatible. -/
def mergeWith (f : Frame) (merge : NodeId) (other : Frame) : GraphM Frame := do
  let locals ← mergeSlots merge f.locals other.locals
  let stack ← mergeSlots merge f.stack.reverse other.stack.reverse
  return { f with locals, stack := stack.reverse }

/-- Merge the frame of a new side into the frame at a merge, before the end of that side is added.
The result may be a bailout. -/
def merge (f : Frame) (merge : NodeId) (other : Frame) : GraphM (Except Bailout Frame) := do
  if !f.isCompatible other then return .error .stacksDoNotMatch
  return .ok (← f.mergeWith merge other)

/-- Give every slot a phi at a loop header. -/
def insertLoopPhis (f : Frame) (loopBegin : NodeId) : GraphM Frame :=
  f.mapSlots fun
    | none => return none
    | some value => do
      let phi ← Graph.add (.phi value.kind loopBegin)
      Graph.addPhiInput phi (some value.node)
      return some (.of phi value.kind)

/-- Whether a value is computed before a loop: the frame at its header holds it, and it is not one
of the header's phis. -/
def isFromBefore (header : Frame) (loopBegin id : NodeId) : GraphM Bool := do
  if header.contains id then return !(← Graph.isPhiAt id loopBegin)
  return false

/-- Put a proxy at a loop exit for every value that is not computed before the loop. -/
def insertProxies (f : Frame) (loopExit loopBegin : NodeId) (header : Frame) : GraphM Frame :=
  f.mapSlots fun
    | none => return none
    | some value => do
      if ← isFromBefore header loopBegin value.node then return some value
      let proxy ← Graph.intern (.proxy value.kind value.node loopExit)
      return some (.of proxy value.kind)

/-- Empty the slots whose node was deleted. -/
def dropDeleted (f : Frame) (g : Graph) : Frame :=
  { f with locals := f.locals.map (aliveSlot g), stack := f.stack.map (aliveSlot g) }

end SeaOfNodes.Frame
