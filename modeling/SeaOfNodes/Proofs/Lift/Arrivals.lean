import SeaOfNodes.Proofs.Graph.Evolution
import SeaOfNodes.Proofs.Lift.Exception

/-!
# Where control arrives

Working on values changes nothing of the control flow between blocks. Control comes to arrive at a block
when the block is made the target of an edge, which touches the arrival at no other block. All this needs
nothing of the graph.
-/

namespace SeaOfNodes

namespace Graph

variable {g g' : Graph}

/-! ### Classes of nodes -/

/-- Nodes keep their classes. -/
def KeepsClasses (g g' : Graph) : Prop := ∀ x c, g.cls? x = some c → g'.cls? x = some c

instance : IsPreorder Graph KeepsClasses where
  refl _ _ _ := id
  trans _ _ _ h h' x c hc := h' x c (h x c hc)

theorem KeepsClasses.of_node? (h : ∀ x, g'.node? x = g.node? x) : KeepsClasses g g' := by
  intro x c hx
  rwa [cls?, h, ← cls?]

instance (target user : NodeId) : Carries KeepsClasses (addUsage target user) := by
  refine .before fun _ => ⟨fun g => meets_modifyEntry.2 (.of_node? fun x => ?_)⟩
  rw [node?, get?_update, node?]
  split
  · rename_i hx
    rw [hx]
    cases g.get? target <;> rfl
  · rfl

instance (user : NodeId) (old new : Option NodeId) :
    Carries KeepsClasses (updatePredecessor user old new) :=
  ⟨fun _ => (meets_updatePredecessor user old new).ensures fun _ _ h => .of_node? h.repoints.node?⟩

instance (event : Event) : Carries KeepsClasses (record event) := ⟨fun _ _ _ hx => hx⟩

instance (id : NodeId) (next : Option NodeId) : Carries KeepsClasses (setNext id next) := by
  unfold setNext setSuccessor setField setEdge
  refine .seq (.before fun field => .before fun _ => ⟨fun g => ?_⟩) fun _ => .pure _
  refine meets_bind.2 (meets_node.2 ⟨fun n hn => ?_, fun _ => trivial⟩)
  refine meets_bind.2 (meets_lift.2 ?_)
  cases hput : n.put (.of .successors field 0) next with
  | error _ => trivial
  | ok n' =>
    refine ends_ok.2 (meets_bind.2 (meets_writeNode.2 ?_))
    have hother : Carries KeepsClasses (updatePredecessor id (n.get (.of .successors field 0)) next) :=
      inferInstance
    refine (hother.ensures (g.withNode id n')).bind fun _ g' hg' => meets_pure.2 fun x c hx => hg' x c ?_
    rw [cls?, node?_withNode (by rw [hn]; rfl)]
    split
    · rename_i hid
      rw [hid, cls?, hn] at hx
      rw [← hx]
      exact congrArg (fun op => some op.cls) (Node.edit_of_put hput).op
    · exact hx

/-- A node that is registered has its class. -/
theorem meets_add_cls (n : Node) :
    Ensures (add n) g (fun x g' => g'.cls? x = some n.cls) := by
  unfold add addFresh
  split
  · trivial
  refine (carried KeepsClasses g).bind fun _ g1 _ => meets_read.2 ?_
  refine meets_change.2 (meets_change.2 ?_)
  have hnew : (g1.pushed n).cls? g1.entries.next = some n.cls := by
    rw [cls?, node?, get?_pushed, if_pos rfl]
    rfl
  have hrest : Carries KeepsClasses (do
      for input in n.targets .inputs do addUsage input g1.entries.next
      for successor in n.targets .successors do
        updatePredecessor g1.entries.next none (some successor)
      record (.added g1.entries.next)) := inferInstance
  have hkeep := hrest.ensures (g1.pushed n)
  simp only [Ensures, meets_bind] at hkeep ⊢
  exact hkeep.imp fun _ g2 h2 => h2.imp fun _ g3 h3 => h3.imp fun _ g4 h4 =>
    meets_pure.2 (h4 _ _ hnew)

end Graph

namespace Lift

open Graph Bytecode

variable {s s' : State} {id t : BlockId} {f : Frame} {α β : Type} {act : LiftM α} {k : α → LiftM β}

/-- Control arrives at a block. -/
def State.Arrives (s : State) (id : BlockId) : Prop :=
  ∃ first f, s.arrivals.lookup id = some ⟨first, some f⟩

/-! ### Steps that leave the control flow alone -/

/-- Blocks are entered and left as before. -/
structure SameFlow (s s' : State) : Prop where
  method : s'.method = s.method
  map : s'.map = s.map
  current : s'.current = s.current
  arrivals : s'.arrivals = s.arrivals
  returnBlock : s'.returnBlock = s.returnBlock
  unwindBlock : s'.unwindBlock = s.unwindBlock

/-- Control has not moved on in the current block, either. -/
structure Rests (s s' : State) : Prop extends SameFlow s s' where
  last : s'.last = s.last

instance : IsPreorder State SameFlow where
  refl _ := ⟨rfl, rfl, rfl, rfl, rfl, rfl⟩
  trans _ _ _ h h' := ⟨h'.method.trans h.method, h'.map.trans h.map, h'.current.trans h.current,
    h'.arrivals.trans h.arrivals, h'.returnBlock.trans h.returnBlock, h'.unwindBlock.trans h.unwindBlock⟩

instance : IsPreorder State Rests where
  refl _ := ⟨Std.Refl.refl _, rfl⟩
  trans _ _ _ h h' := ⟨IsTrans.trans _ _ _ h.toSameFlow h'.toSameFlow, h'.last.trans h.last⟩

theorem SameFlow.trans {s1 : State} (h : SameFlow s s1) (h' : SameFlow s1 s') : SameFlow s s' :=
  IsTrans.trans s s1 s' h h'

theorem SameFlow.arrives (h : SameFlow s s') : s'.Arrives t ↔ s.Arrives t := by
  rw [State.Arrives, h.arrivals, State.Arrives]

instance (priority := low) [Carries Rests act] : Carries SameFlow act :=
  ⟨fun s => (carried Rests s).imp fun _ _ h => h.toSameFlow⟩

section

variable {R : State → State → Prop}

instance (cause : Malformation) : Carries R (malformed cause : LiftM α) := ⟨fun _ => trivial⟩

instance (cause : Bailout) : Carries R (bailout cause : LiftM α) := ⟨fun _ => trivial⟩

end

instance observes_ofExcept (r : Except Bailout α) : Observes (ofExcept r) := ⟨fun _ => by
  cases r with
  | ok a => exact rfl
  | error cause => trivial⟩

instance (id : BlockId) : Observes (block id) := ⟨fun _ => rfl⟩

instance (id : BlockId) : Observes (arrival? id) := ⟨fun _ => rfl⟩

instance observes_clearedFor (id : BlockId) (f : Frame) : Observes (clearedFor id f) := ⟨fun s => by
  refine meets_read.2 ?_
  cases s.map.liveIn? id <;> exact rfl⟩

instance (act : GraphM α) : Carries Rests (onGraph act) := ⟨fun s =>
  meets_onGraph.2 ((meets_any act s.graph).ensures fun _ _ _ => ⟨⟨rfl, rfl, rfl, rfl, rfl, rfl⟩, rfl⟩)⟩

instance (act : FrameM α) : Carries Rests (onFrame act) := ⟨fun s => by
  unfold onFrame
  refine meets_bind.2 (meets_get.2 ?_)
  rcases act.run.run s.frame with ⟨result, frame⟩
  refine meets_bind.2 (meets_set.2 ?_)
  exact ((observes_ofExcept result).ensures { s with frame }).imp fun _ _ hs =>
    hs ▸ ⟨⟨rfl, rfl, rfl, rfl, rfl, rfl⟩, rfl⟩⟩

instance (f : Frame → Frame) : Carries Rests (modifyFrame f) :=
  ⟨fun _ => ⟨⟨rfl, rfl, rfl, rfl, rfl, rfl⟩, rfl⟩⟩

instance (last : State → Option NodeId) :
    Carries SameFlow (modify fun s : State => { s with last := last s } : LiftM Unit) :=
  ⟨fun _ => ⟨rfl, rfl, rfl, rfl, rfl, rfl⟩⟩

instance (kind : Kind) : Carries Rests (pop kind) := by
  unfold pop
  infer_instance

instance (kind : Kind) (x : NodeId) : Carries Rests (push kind x) := by
  unfold push
  infer_instance

instance (n : Node) : Carries Rests (intern n) := by
  unfold intern
  infer_instance

instance (kind : Kind) (n : Node) : Carries Rests (pushNew kind n) := by
  unfold pushNew
  infer_instance

instance (x : NodeId) (f : Frame) (bci : Int) : Carries Rests (setState x f bci) := by
  unfold setState
  infer_instance

instance (x : NodeId) : Carries Rests (classOf x) := by
  unfold classOf
  infer_instance

instance (x : NodeId) : Carries SameFlow (appendNode x) := by
  refine .before fun s => ?_
  dsimp only
  split <;> infer_instance

instance (n : Node) : Carries SameFlow (append n) := by
  unfold append
  infer_instance

instance (x : NodeId) : Carries SameFlow (appendJump x) := by
  refine .before fun s => ?_
  dsimp only
  split <;> infer_instance

/-- Control goes on after a node of a class that lets it. -/
theorem meets_appendNode_last {x : NodeId} {c : NodeClass} (hx : s.graph.cls? x = some c)
    (hc : goesOn c) : Ensures (appendNode x) s (fun _ s' => s'.last = some x) := by
  have hrest {s' : State} (hx : s'.graph.cls? x = some c) : Ensures (do
      let cls ← classOf x
      let goesOn := (cls.layout.fieldIndex? .successors "next").isSome
      modify fun s : State => { s with last := if goesOn then some x else none }) s'
      (fun _ s' => s'.last = some x) :=
    meets_bind.2 ((meets_classOf hx).2 (meets_modify.2 (if_pos hc)))
  refine meets_read.2 ?_
  cases s.last with
  | none => exact hrest hx
  | some last =>
    refine meets_bind.2 (meets_onGraph.2 ?_)
    exact (carried KeepsClasses s.graph).imp fun _ _ h => hrest (h x c hx)

/-! ### Edges -/

/-- Nothing but the arrival at one block changes. -/
structure OnlyAt (id : BlockId) (s s' : State) : Prop where
  method : s'.method = s.method
  map : s'.map = s.map
  current : s'.current = s.current
  others : ∀ t, t ≠ id → s'.arrivals.lookup t = s.arrivals.lookup t
  returnBlock : s'.returnBlock = s.returnBlock
  unwindBlock : s'.unwindBlock = s.unwindBlock

instance : IsPreorder State (OnlyAt id) where
  refl _ := ⟨rfl, rfl, rfl, fun _ _ => rfl, rfl, rfl⟩
  trans _ _ _ h h' := ⟨h'.method.trans h.method, h'.map.trans h.map, h'.current.trans h.current,
    fun t ht => (h'.others t ht).trans (h.others t ht), h'.returnBlock.trans h.returnBlock,
    h'.unwindBlock.trans h.unwindBlock⟩

theorem SameFlow.onlyAt (h : SameFlow s s') : OnlyAt id s s' :=
  ⟨h.method, h.map, h.current, fun _ _ => by rw [h.arrivals], h.returnBlock, h.unwindBlock⟩

theorem OnlyAt.arrives (h : OnlyAt id s s') (ht : t ≠ id) : s'.Arrives t ↔ s.Arrives t := by
  rw [State.Arrives, h.others t ht, State.Arrives]

instance (priority := low) [Carries SameFlow act] : Carries (OnlyAt id) act :=
  ⟨fun s => (carried SameFlow s).imp fun _ _ h => h.onlyAt⟩

theorem meets_setArrival (id : BlockId) (a : Arrival) :
    Ensures (setArrival id a) s (fun _ s' => OnlyAt id s s' ∧ s'.arrivals.lookup id = some a ∧
      s'.last = s.last) := by
  refine meets_modify.2 ⟨⟨rfl, rfl, rfl, fun t ht => ?_, rfl, rfl⟩, by simp, rfl⟩
  dsimp only
  rw [List.lookup_cons, beq_eq_false_iff_ne.2 ht]
  induction s.arrivals with
  | nil => rfl
  | cons b rest ih => grind

instance (id : BlockId) (a : Arrival) : Carries (OnlyAt id) (setArrival id a) :=
  ⟨fun _ => (meets_setArrival id a).imp fun _ _ h => h.1⟩

instance (bci : Int) (header : BlockId) (f : Frame) : Carries Rests (addExit bci header f) := by
  refine .before fun a => ?_
  split <;> infer_instance

instance rests_addExits (bci : Int) (target : NodeId) (headers : List BlockId) (f : Frame) :
    Carries Rests (addExits bci target headers f) := by
  induction headers generalizing f with
  | nil => exact .pure _
  | cons header rest ih =>
    unfold addExits
    infer_instance

instance (target : NodeId) (id : BlockId) (f : Frame) : Carries Rests (throughExits target id f) := by
  refine .before fun s => ?_
  split <;> infer_instance

instance (entry : Frame) (merge : NodeId) (f : Frame) : Carries Rests (mergeFrames entry merge f) := by
  unfold mergeFrames
  infer_instance

instance (id : BlockId) (first : NodeId) : Carries (OnlyAt id) (mergeAt id first) := by
  unfold mergeAt
  infer_instance

instance (id : BlockId) (first : NodeId) (entry f : Frame) :
    Carries (OnlyAt id) (mergeInto id first entry f) := by
  unfold mergeInto
  split
  · exact ⟨fun _ => trivial⟩
  refine .before fun cls => ?_
  split <;> infer_instance

/-- Control comes to arrive at a block. -/
structure Reaches (id : BlockId) (s s' : State) : Prop extends OnlyAt id s s' where
  arrives : s'.Arrives id

theorem Reaches.mono {s0 : State} (h : OnlyAt id s0 s) (h' : Reaches id s s') : Reaches id s0 s' :=
  ⟨IsTrans.trans _ _ _ h h'.toOnlyAt, h'.arrives⟩

theorem Reaches.sameFlow {s1 : State} (h : Reaches id s s1) (h' : SameFlow s1 s') : Reaches id s s' :=
  ⟨IsTrans.trans _ _ _ h.toOnlyAt h'.onlyAt, h'.arrives.2 h.arrives⟩

instance reaches_setArrival (id : BlockId) (first : NodeId) (f : Frame) :
    Carries (Reaches id) (setArrival id ⟨first, some f⟩) :=
  ⟨fun _ => (meets_setArrival id _).imp fun _ _ h => ⟨h.1, first, f, h.2.1⟩⟩

/-- After a step that touches at most the arrival at a block, control comes to arrive there. -/
theorem reaches_after [Carries (OnlyAt id) act] (hk : ∀ a, Carries (Reaches id) (k a)) :
    Carries (Reaches id) (act >>= k) :=
  ⟨fun s => (carried (OnlyAt id) s).bind fun a s1 h1 => ((hk a).ensures s1).imp fun _ _ h2 => h2.mono h1⟩

instance [Carries (OnlyAt id) act] [hk : ∀ a, Carries (Reaches id) (k a)] :
    Carries (Reaches id) (act >>= k) := reaches_after hk

/-- Once control arrives at a block, it does so after a step that leaves the control flow alone. -/
instance [Carries (Reaches id) act] [∀ a, Carries SameFlow (k a)] : Carries (Reaches id) (act >>= k) :=
  ⟨fun s => (carried (Reaches id) s).bind fun _ s1 h1 => (carried SameFlow s1).imp fun _ _ h2 =>
    h1.sameFlow h2⟩

instance reaches_target (id : BlockId) (f : Frame) : Carries (Reaches id) (target id f) := by
  refine reaches_after fun a => ?_
  split <;> infer_instance

instance reaches_branchTarget (id : BlockId) (f : Frame) : Carries (Reaches id) (branchTarget id f) := by
  unfold branchTarget
  infer_instance

instance reaches_jumpTo (id : BlockId) : Carries (Reaches id) (jumpTo id) := by
  unfold jumpTo
  infer_instance

end Lift

end SeaOfNodes
