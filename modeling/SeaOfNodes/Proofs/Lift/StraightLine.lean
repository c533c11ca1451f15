import SeaOfNodes.Lift.Method
import SeaOfNodes.Proofs.Lift.Computation

/-!
# Straight-line code keeps its meaning

Code that only computes is lifted along its one block, with the frame in step with the operand-stack
machine. What the machine returns is then the value of the node that the graph returns, and cleaning up
leaves that node and its operands alone.
-/

namespace SeaOfNodes

open Bytecode Graph

namespace Graph

variable {g g' : Graph} {id x : NodeId} {n : Node} {op : Op} {r : Option NodeId} {d : Direction}
  {c : NodeClass}

/-! ### Steps on graphs that only compute -/

theorem linear_empty (name : String) : (Graph.empty name).Linear none := by
  have hnode (x : NodeId) : (Graph.empty name).node? x = none := by
    rw [node?, get?_empty]
    rfl
  have hop (x : NodeId) : (Graph.empty name).op? x = none := by
    rw [op?, hnode]
    rfl
  refine ⟨(consistent_empty name).packed, fun c x hx => ?_, fun x op h => ?_, fun x n h => ?_, fun x n h => ?_,
    fun x h => ?_⟩
  · simp [idsOf, Graph.empty, Vector.get] at hx
  · rw [hop] at h; cases h
  · rw [hnode] at h; cases h
  · rw [hnode] at h; cases h
  · rw [hop] at h; cases h

theorem meets_add_adds (hp : g.Packed) (n : Node) :
    Ensures (add n) g (fun id g' => Adds g g' id n) := by
  unfold add
  split
  · trivial
  · exact (meets_addFresh hp n).ensures fun _ _ => id

section

variable (hg : g.Linear r)

include hg

/-- A new node whose operands are not frozen. -/
theorem Linear.meets_add (hop : n.op.isLinear) (hf : n.op.isFrozen = false) :
    Ensures (add n) g (fun id g' => Persists r g g' ∧ g'.op? id = some n.op) := by
  refine (meets_add_adds hg.packed n).imp fun id g' h => ?_
  have hreturn : n.op ≠ .methodReturn := by
    intro hreturn
    rw [hreturn] at hf
    cases hf
  have hlinear := h.linear hg hop (fun _ h => by rw [hf] at h; cases h) fun hr => absurd hr hreturn
  rw [if_neg hreturn] at hlinear
  exact ⟨⟨hlinear, h.retains⟩, by rw [h.op?, if_pos rfl]⟩

theorem Linear.meets_setField (hop : g.op? id = some op)
    (hd : d = .successors ∨ op.isFrozen = false) (name : String) (value : Option NodeId) :
    Ensures (setField id d name value) g (fun _ g' => Persists r g g') := by
  unfold setField
  refine meets_bind.2 (meets_fieldIndex.2 ⟨fun n hn => ⟨fun field _ => ?_, fun _ => trivial⟩, fun _ => trivial⟩)
  refine (meets_setEdge hg.packed id _ value).ensures fun old g' h => ?_
  obtain ⟨n', m, hput, rfl, -, hr⟩ := h
  obtain rfl : n = n' := Option.mem_unique hn hr.node
  obtain rfl : n.op = op := Option.mem_unique (op?_of_node? hn) hop
  exact hr.persists (Node.edit_of_put hput) hd hg

theorem Linear.meets_setNext (hop : g.op? id = some op) (next : Option NodeId) :
    Ensures (setNext id next) g (fun _ g' => Persists r g g') :=
  (hg.meets_setField hop (.inl rfl) "next" next).bind fun _ _ h => h

theorem Linear.meets_delete (hop : g.op? id = some op) (hf : op.isFrozen = false) :
    Ensures (delete id) g (fun _ g' => Persists r g g') := by
  refine (Graph.meets_delete hg.packed id).ensures fun _ g' h => ?_
  obtain ⟨n, h⟩ := h
  obtain rfl : n.op = op := Option.mem_unique (op?_of_node? h.node) hop
  exact h.persists hf hg

theorem Linear.meets_replaceAtPredecessor (id : NodeId) (other : Option NodeId) :
    Ensures (replaceAtPredecessor id other) g (fun _ g' => Persists r g g') := by
  unfold replaceAtPredecessor
  refine meets_bind.2 (meets_entry.2 ⟨fun e _ => ?_, fun _ => trivial⟩)
  cases e.predecessor with
  | none => exact hg.persists
  | some p =>
    refine meets_bind.2 ((meets_replaceFirstSuccessor hg.packed p id other).ensures fun b g' h => ?_)
    obtain ⟨n, hn, ⟨rfl, rfl, -⟩ | ⟨rfl, n', hr, h⟩⟩ := h
    · trivial
    · obtain ⟨field, he⟩ := Node.edit_of_replaceFirst hr
      exact h.persists he (.inl rfl) hg

theorem Linear.meets_spliceOut (hop : g.op? id = some op) (hf : op.isFrozen = false) :
    Ensures (spliceOut id) g (fun _ g' => Persists r g g') := by
  unfold spliceOut
  refine meets_bind.2 (meets_entry.2 ⟨fun e _ => ?_, fun _ => trivial⟩)
  split
  · refine meets_bind.2 (meets_next?.2 ⟨fun n _ => ⟨fun field _ => ?_, fun _ => trivial⟩, fun _ => trivial⟩)
    refine (hg.meets_setNext hop none).bind fun _ g1 h1 => ?_
    refine (h1.linear.meets_replaceAtPredecessor id _).bind fun _ g2 h2 => ?_
    have h12 := h1.trans h2
    exact (h2.linear.meets_delete (h12.retains.op? hop) hf).imp fun _ g3 h3 => h12.trans h3
  · exact meets_bind.2 (meets_label.2 ⟨fun _ _ => trivial, fun _ => trivial⟩)

omit hg in
theorem exists_op?_of_cls? (h : g.cls? id = some c) :
    ∃ op, g.op? id = some op ∧ op.cls = c := by
  rw [cls?_eq_map_op?] at h
  exact Option.map_eq_some_iff.1 h

/-- The nodes listed under a class that computes nothing can be dealt with one by one. -/
theorem Linear.meets_forNodesOf {body : NodeId → PUnit → GraphM (ForInStep PUnit)}
    (hbody : ∀ id g', g'.Linear r → g'.cls? id = some c → Ensures (body id ⟨⟩) g'
      (fun step g'' => step = .yield ⟨⟩ ∧ Persists r g' g'')) :
    Ensures (forIn (g.nodesOf c) PUnit.unit body) g (fun _ g' => Persists r g g') := by
  refine Meets.forIn_passed (fun _ g' => Persists r g g') hg.persists fun x done rest g1 hsplit h1 => ?_
  have hx : x ∈ g.nodesOf c := by simp [hsplit]
  obtain ⟨op, hop, rfl⟩ := exists_op?_of_cls? (hg.listed c x (List.mem_filter.1 hx).1)
  refine (hbody x g1 h1.linear (cls?_of_op? (h1.retains.op? hop))).imp fun step g2 h2 => ?_
  exact ⟨h2.1, h1.trans h2.2⟩

end

theorem isFrozen_eq_false_of_cls {op : Op} (h : op.cls = .placeholder ∨ op.cls = .frameState) :
    op.isFrozen = false := by
  cases op <;> first | rfl | simp [Op.cls] at h

/-- Cleaning up takes heads of blocks and states out, and nothing else. -/
theorem Linear.meets_cleanUp (hg : g.Linear r) :
    Ensures cleanUp g (fun _ g' => Persists r g g') := by
  unfold cleanUp
  refine meets_read.2 ((hg.meets_forNodesOf fun id g' hg' hc => ?_).bind fun _ g1 h1 => ?_)
  · obtain ⟨op, hop, hcls⟩ := exists_op?_of_cls? hc
    have hlinear := hg'.ops id op hop
    cases op <;> first | exact Bool.noConfusion hlinear | cases hcls
  refine meets_read.2 ((h1.linear.meets_forNodesOf fun id g' hg' hc => ?_).bind fun _ g2 h2 => ?_)
  · obtain ⟨op, hop, hcls⟩ := exists_op?_of_cls? hc
    exact (hg'.meets_spliceOut hop (isFrozen_eq_false_of_cls (.inl hcls))).bind fun _ _ h => ⟨rfl, h⟩
  refine meets_read.2 ((h2.linear.meets_forNodesOf fun id g' hg' hc => ?_).bind fun _ g3 h3 => ?_)
  · obtain ⟨op, hop, hcls⟩ := exists_op?_of_cls? hc
    refine meets_bind.2 (meets_entry.2 ⟨fun e _ => ?_, fun _ => trivial⟩)
    split
    · exact (hg'.meets_delete hop (isFrozen_eq_false_of_cls (.inr hcls))).bind fun _ _ h => ⟨rfl, h⟩
    · exact ⟨rfl, hg'.persists⟩
  exact (h1.trans h2).trans h3

end Graph

variable {α : Type} {I : Interpretation α} {m : Method} {options : Options} {map : BlockMap} {g g' : Graph}
  {f : Frame} {w : Machine α} {x : NodeId} {v : α} {r : Option NodeId} {op : Op}

/-! ### Frames -/

namespace Frame

theorem meets_placeParameters_knows (hg : g.Linear none) {kinds : List Kind} {index slot : Nat}
    {slots : List (Option Slot)} {words : List (Option α)} (h : Knows g I slots words) :
    Ensures (placeParameters kinds index slot slots) g (fun slots' g' => g'.Linear none ∧
      Knows g' I slots' (Machine.place I kinds index slot words)) := by
  induction kinds generalizing g index slot slots words with
  | nil => exact ⟨hg, h⟩
  | cons kind rest ih =>
    unfold placeParameters Machine.place
    refine (hg.meets_intern (I := I) (n := .parameter (Int32.ofNat index) kind.onStack) supplies_nil rfl).bind
      fun id g1 h1 => ?_
    obtain ⟨hid, hg1, hr1⟩ := h1
    split
    · trivial
    · have hset : Knows g1 I (slots.set slot (some (.of id kind)))
          (words.set slot (some (I.parameter (Int32.ofNat index) kind.onStack))) := (h.retains hr1).set hid slot
      exact ih hg1 hset

theorem agrees_entry (I : Interpretation α) (m : Method) (name : String) :
    Ensures (entry m) (Graph.empty name) (fun f g => g.Linear none ∧ Agrees g I f (.entry I m) ∧ f.stack = []) := by
  have hnone : Knows (Graph.empty name) I (List.replicate m.maxLocals none)
      (List.replicate m.maxLocals none) := by
    refine ⟨by simp, fun i slot hs => ?_⟩
    rw [List.getElem?_replicate] at hs
    split at hs <;> cases hs
  unfold entry
  exact (meets_placeParameters_knows (linear_empty name) hnone).bind fun slots g h => ⟨h.1, ⟨.nil, h.2⟩, rfl⟩

end Frame

theorem Agrees.clearDead (h : Agrees g I f w) (live : BitSet) : Agrees g I (f.clearDead live) w := by
  refine ⟨h.stack, h.locals.sub (by simp [Frame.clearDead]) fun i slot hs => ?_⟩
  simp only [Frame.clearDead, List.getElem?_map, List.getElem?_zipIdx, Option.map_map] at hs
  cases hi : f.locals[i]? with
  | none => simp [hi] at hs
  | some local_ =>
    simp only [hi, Option.map_some, Function.comp_apply, Option.join_some] at hs
    split at hs
    · exact hs
    · cases hs

theorem Agrees.dropDeleted (h : Agrees g I f w) (hstack : f.stack = []) : Agrees g I (f.dropDeleted g') w := by
  have hwords := h.stack
  refine ⟨by simpa [Frame.dropDeleted, hstack] using hwords,
    h.locals.sub (by simp [Frame.dropDeleted]) fun i slot hs => ?_⟩
  simp only [Frame.dropDeleted, List.getElem?_map] at hs
  cases hi : f.locals[i]? with
  | none => simp [hi] at hs
  | some local_ =>
    simp only [hi, Option.map_some, Option.join_some, Frame.aliveSlot] at hs ⊢
    exact (Option.filter_eq_some_iff.1 hs).1

namespace Lift

variable {s s' : State} {first : NodeId} {stop : Int} {value : Option NodeId} {result : Option α}

/-! ### The block -/

theorem meets_setState_linear (hg : s.graph.Linear r) (hx : s.graph.op? x = some op) (hf : op.isFrozen = false)
    (f : Frame) (bci : Int) :
    Ensures (setState x f bci) s (fun _ s' => s' = { s with graph := s'.graph } ∧
      Persists r s.graph s'.graph) := by
  unfold setState Frame.materialize
  refine meets_onGraph.2 ((hg.meets_add rfl rfl).bind fun state g1 h1 => ?_)
  obtain ⟨h1, -⟩ := h1
  refine (h1.linear.meets_setField (h1.retains.op? hx) (.inr hf) "state_after" (some state)).bind
    fun _ g2 h2 => ?_
  exact ⟨rfl, h1.trans h2⟩

theorem meets_clearedFor_eq (id : BlockId) (f : Frame) :
    Ensures (clearedFor id f) s (fun f' s' => s' = s ∧ (f' = f ∨ ∃ live, f' = f.clearDead live)) := by
  unfold clearedFor
  refine meets_read.2 ?_
  split
  · exact ⟨rfl, .inr ⟨_, rfl⟩⟩
  · exact ⟨rfl, .inl rfl⟩

/-- The one block of the method is being lifted. -/
structure Inside (m : Method) (stop : Int) (first : NodeId) (s : State) : Prop where
  method : s.method = m
  quiet : s.options.eagerInfopoints = false
  map : s.map.IsSingle stop
  last : s.last = some first
  first : s.graph.op? first = some .start
  current : s.current = some ⟨0⟩
  arrivals : ∀ a ∈ s.arrivals, a.1 = ⟨0⟩
  returnBlock : s.returnBlock = none
  unwindBlock : s.unwindBlock = none

theorem Inside.computes (h : Inside m stop first s) (hs : Computes s s') : Inside m stop first s' := by
  have hfirst := hs.retains.op? h.first
  rw [hs.eq] at hfirst ⊢
  exact { h with first := hfirst }

/-- The state after the entry of the method is completed if need be. -/
theorem Tracks.meets_completeState (h : Tracks I s w) (hfirst : s.graph.op? first = some .start) (bci : Nat) :
    Ensures (completeState first bci) s (fun _ s' => Stepped I s s' w) := by
  unfold completeState
  refine meets_bind.2 ((meets_classOf (cls?_of_op? hfirst)).2 ?_)
  have hread : Ensures (onGraph (Graph.stateAfter? first)) s (fun _ s' => s' = s) := by
    refine meets_onGraph.2 (meets_bind.2 (meets_node.2 ⟨fun n _ => ?_, fun _ => trivial⟩))
    split <;> rfl
  split
  · refine hread.bind fun state s' hs' => ?_
    subst hs'
    split
    · refine meets_read.2 ((meets_setState_linear h.linear hfirst rfl _ _).imp fun _ s1 h1 => ?_)
      obtain ⟨hs1, h1⟩ := h1
      have hframe : s1.frame = s'.frame := by rw [hs1]
      refine ⟨⟨h1.linear, hframe ▸ h.agrees.retains h1.retains⟩, h1.retains, ?_⟩
      rw [hs1]
    · exact ⟨h, .refl _, rfl⟩
  · exact ⟨h, .refl _, rfl⟩

/-- The slots of a value of a kind, top first; none for no value. -/
def spread (kind : Kind) : Option NodeId → List (Option Slot)
  | none => []
  | some x => if kind.isTwoSlot then [none, some (.of x kind)] else [some (.of x kind)]

theorem stack_push {f : Frame} (hf : f.stack = []) (kind : Kind) :
    (f.push kind.onStack x).stack = spread kind (some x) := by
  unfold Frame.push Frame.pushSlot spread Slot.of
  simp only [Kind.isTwoSlot_onStack, Kind.onStack_onStack, hf]
  split <;> rfl

/-- A node has the value that is returned, unless nothing is. -/
inductive Answers (g : Graph) (I : Interpretation α) (kind : Kind) : Option NodeId → Option α → Prop
  | void (h : kind = .void) : Answers g I kind none none
  | value (h : kind ≠ .void) {x : NodeId} {v : α} (hx : g.Denotes I x v) : Answers g I kind (some x) (some v)

theorem Answers.retains {kind : Kind}
    (h : Answers g I kind value result) (hg : Retains g g') : Answers g' I kind value result := by
  cases h with
  | void hkind => exact .void hkind
  | value hkind hx => exact .value hkind (hg.denotes hx)

/-- The block where the method is left waits with the result. -/
structure Waiting (I : Interpretation α) (m : Method) (result : Option α) (s : State) : Prop where
  method : s.method = m
  linear : s.graph.Linear none
  unwindBlock : s.unwindBlock = none
  arrival : ∃ id first f value, s.returnBlock = some id ∧ (s.map.block id).kind = .methodReturn ∧
    s.arrivals.lookup id = some ⟨first, some f⟩ ∧ s.graph.op? first = some .placeholder ∧
    f.stack = spread m.result value ∧ Answers s.graph I m.result value result

theorem exitedHeaders_of_loops {map : BlockMap} {source target : BlockId} (h : (map.block source).loops = 0) :
    exitedHeaders map source target = [] := by
  unfold exitedHeaders
  rw [h]
  simp

/-- Control leaves for the block where the method is left. -/
theorem meets_jumpToReturn (h : Inside m stop first s)
    (hg : s.graph.Linear none) (hspread : s.frame.stack = spread m.result value)
    (hanswer : Answers s.graph I m.result value result) (bci : Nat) :
    Ensures (do jumpTo (← returnBlock bci)) s (fun _ s' => Waiting I m result s' ∧ s'.last = none) := by
  have hnext : s.map.blocks.next = ⟨1⟩ := by
    rw [h.map.blocks]
    rfl
  have hnew : s.arrivals.lookup ⟨1⟩ = none := by
    refine List.lookup_eq_none_iff.2 fun a ha => ?_
    rw [h.arrivals a ha]
    rfl
  simp only [returnBlock, meets_bind, meets_get, h.returnBlock, addBlock, meets_modifyGet, meets_modify,
    meets_pure, hnext]
  generalize hmap : s.map.addBlock (.startingAt bci .methodReturn) = map
  have hkind : (map.block ⟨1⟩).kind = .methodReturn := by
    rw [← hmap, BlockMap.block, BlockMap.addBlock, Blocks.block_push, if_pos hnext.symm]
    rfl
  have hloops : (map.block ⟨0⟩).loops = 0 := by
    rw [← hmap, BlockMap.block, BlockMap.addBlock, Blocks.block_push, hnext, if_neg (by decide), h.map.blocks]
    rfl
  unfold jumpTo target
  simp only [meets_bind, meets_get, arrival?, meets_pure, hnew]
  refine meets_onGraph.2 ((hg.meets_add (n := .placeholder) rfl rfl).imp fun placeholder g1 h1 => ?_)
  obtain ⟨⟨hg1, hr1⟩, hop1⟩ := h1
  simp only [throughExits, meets_bind, meets_get, h.current, exitedHeaders_of_loops hloops, addExits, meets_pure]
  refine (meets_clearedFor_eq _ _).imp fun f s' hs' => ?_
  obtain ⟨rfl, hf⟩ := hs'
  have hstack : f.stack = s.frame.stack := by
    rcases hf with rfl | ⟨live, rfl⟩ <;> rfl
  simp only [setArrival, meets_modify, appendJump, meets_bind, meets_get, h.last]
  refine meets_onGraph.2 ((hg1.meets_setNext (hr1.op? h.first) (some placeholder)).imp fun _ g2 h2 => ?_)
  obtain ⟨hg2, hr2⟩ := h2
  exact ⟨⟨h.method, hg2, h.unwindBlock, ⟨1⟩, placeholder, f, value, rfl, hkind, by simp, hr2.op? hop1,
    hstack.trans hspread, hanswer.retains (hr1.trans hr2)⟩, trivial⟩

/-- A return leaves the block with what the machine returns. -/
theorem Tracks.meets_leaveMethod (ht : Tracks I s w) (h : Inside m stop first s) (kind : Option Kind) (bci : Nat) :
    Ensures (leaveMethod kind bci) s (fun _ s' => ∃ result, w.leave kind = some result ∧
      Waiting I m result s' ∧ s'.last = none) := by
  unfold leaveMethod
  cases kind with
  | none =>
    simp only [Option.mapM_none, pure_bind]
    refine meets_read.2 ?_
    split
    · trivial
    · rename_i hkind
      have hvoid : m.result = .void := by
        rw [Option.getD_none, h.method, not_not] at hkind
        cases hresult : m.result <;> simp [hresult, Kind.onStack] at hkind ⊢
      have hin : Inside m stop first { s with frame := { s.frame with rethrow := false, stack := [] } } :=
        h.computes (computes_frame _)
      refine meets_change.2 ?_
      exact (meets_jumpToReturn hin ht.linear rfl (.void hvoid) bci).imp fun _ s' hs' => ⟨none, rfl, hs'⟩
  | some kind =>
    refine meets_bind.2 (meets_map.2 ((ht.meets_pop kind).imp fun x s1 h1 => ?_))
    obtain ⟨v, w', hw, hx, ht1⟩ := h1
    have h1 := h.computes ht1.toComputes
    refine meets_read.2 ?_
    dsimp only
    split
    · trivial
    · refine meets_change.2 ?_
      unfold push
      split
      · trivial
      · rename_i hvalue
        obtain rfl := h1.method
        have hvoid : s1.method.result ≠ .void := by
          intro hvoid
          rw [hvoid] at hvalue
          exact hvalue rfl
        have hin : Inside s1.method stop first { s1 with
            frame := Frame.push s1.method.result.onStack x { s1.frame with rethrow := false, stack := [] } } :=
          h1.computes (computes_frame _)
        refine meets_change.2 ?_
        exact (meets_jumpToReturn hin ht1.linear (stack_push rfl _) (.value hvoid hx) bci).imp fun _ s' hs' =>
          ⟨some v, by simp [Machine.leave, hw], hs'⟩

variable {body : List Cursor} {last : Cursor} {kind : Option Kind}

theorem run_cons_of_computes {c : Cursor} {rest : List Cursor} {pool : Pool}
    (hc : c.form?.any Form.computes) :
    Machine.run I pool (c :: rest) w = (Machine.step I pool c w).bind (Machine.run I pool rest) := by
  obtain ⟨form, hform, hcomputes⟩ := (Option.any_eq_true _ _).1 hc
  rw [Machine.run, hform]
  cases form <;> first | rfl | exact Bool.noConfusion hcomputes

/-- The instructions of the block do what the machine does. -/
theorem Tracks.meets_instructions (ht : Tracks I s w) (h : Inside m stop first s)
    (hbody : ∀ c ∈ body, c.form?.any Form.computes ∧ c.next ≤ stop)
    (hlast : last.form? = some (.methodReturn kind)) :
    Ensures (instructions ⟨0⟩ stop (body ++ [last])) s (fun _ s' => ∃ result,
      Machine.run I m.pool (body ++ [last]) w = some result ∧ Waiting I m result s') := by
  induction body generalizing s w with
  | nil =>
    simp only [List.nil_append, instructions, meets_bind, meets_get, h.quiet, Bool.false_eq_true, if_false,
      instruction, hlast]
    refine (ht.meets_leaveMethod h kind last.bci).imp fun _ s' hs' => ?_
    obtain ⟨result, hresult, hwaiting, hnone⟩ := hs'
    rw [hnone]
    refine ⟨result, ?_, hwaiting⟩
    rw [Machine.run, hlast]
    exact hresult
  | cons c cs ih =>
    obtain ⟨hcomputes, hnext⟩ := hbody c List.mem_cons_self
    simp only [List.cons_append, instructions, meets_bind, meets_get, h.quiet, Bool.false_eq_true, if_false,
      run_cons_of_computes hcomputes]
    refine (ht.meets_instruction hcomputes).imp fun _ s1 h1 => ?_
    obtain ⟨w1, hw1, ht1⟩ := h1
    have hin1 := h.computes ht1.toComputes
    rw [h.method] at hw1
    simp only [hin1.last, if_neg (not_lt.2 hnext), meets_bind, hw1, Option.bind_some]
    refine (ht1.meets_completeState hin1.first c.next).imp fun _ s2 h2 => ?_
    exact ih h2.toTracks (hin1.computes h2.toComputes) fun c' hc' => hbody c' (List.mem_cons_of_mem _ hc')

/-! ### The method -/

/-- The one block is about to be lifted. -/
structure Begun (I : Interpretation α) (m : Method) (stop : Int) (w : Machine α) (s : State) : Prop where
  method : s.method = m
  quiet : s.options.eagerInfopoints = false
  map : s.map.IsSingle stop
  linear : s.graph.Linear none
  arrivals : ∀ a ∈ s.arrivals, a.1 = ⟨0⟩
  returnBlock : s.returnBlock = none
  unwindBlock : s.unwindBlock = none
  entry : ∃ first f, s.arrivals.lookup ⟨0⟩ = some ⟨first, some f⟩ ∧ s.graph.op? first = some .start ∧
    Agrees s.graph I f w ∧ f.stack = []

theorem Begun.meets_enteredBlock (h : Begun I m stop w s) (hm : m.IsStraightLine body last kind)
    (hstop : stop = last.bci) (hfirst : s.graph.op? first = some .start) (hagrees : Agrees s.graph I f w)
    (hstack : f.stack = []) :
    Ensures (enteredBlock ⟨0⟩ first f) s (fun _ s' => ∃ result,
      Machine.run I m.pool (Bytecode.instructions m.code) w = some result ∧ Waiting I m result s') := by
  have hin : Inside m stop first { s with
      current := some ⟨0⟩, last := some first, frame := f.dropDeleted s.graph } :=
    { h with last := rfl, first := hfirst, current := rfl }
  have ht : Tracks I { s with
      current := some ⟨0⟩, last := some first, frame := f.dropDeleted s.graph } w :=
    ⟨h.linear, hagrees.dropDeleted hstack⟩
  have hbody (c : Cursor) (hc : c ∈ body) : c.form?.any Form.computes ∧ (c.next : Int) ≤ stop := by
    have hpairs : (body ++ [last]).Pairwise fun c c' => c.next ≤ c'.bci := by
      rw [← hm.code]
      exact pairwise_walk.1
    have := (List.pairwise_append.1 hpairs).2.2 c hc last (by simp)
    exact ⟨hm.computes c hc, by omega⟩
  unfold enteredBlock
  refine meets_change.2 ?_
  revert hin ht
  generalize ({ s with
    current := some ⟨0⟩, last := some first, frame := f.dropDeleted s.graph } : State) = s0
  intro hin ht
  have hblock : s0.map.block ⟨0⟩ = { straightBlock stop with number := some 0 } := by
    rw [BlockMap.block, hin.map.blocks]
    rfl
  refine meets_observe.2 ?_
  rw [hblock]
  refine meets_bind.2 ((meets_classOf (cls?_of_op? hin.first)).2 ?_)
  rw [if_neg (by decide)]
  show Meets (bytecodes ⟨0⟩ { straightBlock stop with number := some 0 }) s0 _ _
  unfold bytecodes
  refine meets_change.2 ?_
  rw [if_neg (by exact Bool.false_ne_true)]
  refine meets_read.2 ?_
  have hcode : Cursor.walkFrom s0.method.code 0 = body ++ [last] := by
    rw [hin.method]
    exact hm.code
  show Meets (instructions ⟨0⟩ stop (Cursor.walkFrom s0.method.code 0)) _ _ _
  rw [hcode, hm.code]
  have hin' : Inside m stop first { s0 with frame := { s0.frame with rethrow := false } } :=
    hin.computes (computes_frame _)
  exact Tracks.meets_instructions ⟨ht.linear, ht.agrees.stack, ht.agrees.locals⟩ hin' hbody hm.returns

/-- The one block is lifted. -/
theorem Begun.meets_liftBlock (h : Begun I m stop w s) (hm : m.IsStraightLine body last kind)
    (hstop : stop = last.bci) :
    Ensures (liftBlock ⟨0⟩) s (fun _ s' => ∃ result, Machine.run I m.pool (Bytecode.instructions m.code) w = some result ∧
      Waiting I m result s') := by
  obtain ⟨first, f, harrival, hfirst, hagrees, hstack⟩ := h.entry
  simp only [liftBlock, arrival?, meets_bind, meets_get, meets_pure, harrival]
  exact h.meets_enteredBlock hm hstop hfirst hagrees hstack

theorem persists_setStart {g : Graph} (h : g.Linear r) (id : NodeId) : Persists r g (g.setStart id) := by
  have hr : Retains g (g.setStart id) := retains_of_node? (fun _ _ => rfl) fun _ h => h
  exact hr.persists h h.packed (fun _ => rfl) fun _ => rfl

variable (hmap : s.map.IsSingle stop) (hquiet : s.options.eagerInfopoints = false)
  (harrivals : s.arrivals = []) (hreturn : s.returnBlock = none) (hunwind : s.unwindBlock = none)

include hmap hquiet harrivals hreturn hunwind in

/-- The entry of the method. -/
theorem meets_begin (ht : Tracks I s w) (hstack : s.frame.stack = []) :
    Ensures (begin_ ⟨0⟩) s (fun _ s' => Begun I s.method stop w s') := by
  unfold begin_
  refine meets_bind.2 (meets_onGraph.2 ((ht.linear.meets_add (n := .start) rfl rfl).imp fun start g1 h1 => ?_))
  obtain ⟨⟨hg1, hr1⟩, hop1⟩ := h1
  refine meets_bind.2 (meets_onGraph.2 (meets_modify.2 ?_))
  obtain ⟨hg2, hr2⟩ := persists_setStart hg1 start
  refine meets_read.2 (meets_bind.2 ((meets_clearedFor_eq _ _).imp fun f s2 h2 => ?_))
  obtain ⟨rfl, hf⟩ := h2
  have hagrees : Agrees (g1.setStart start) I f w ∧ f.stack = [] := by
    have hframe := ht.agrees.retains (hr1.trans hr2)
    rcases hf with rfl | ⟨live, rfl⟩
    · exact ⟨hframe, hstack⟩
    · exact ⟨hframe.clearDead live, hstack⟩
  refine meets_change.2 ?_
  refine meets_bind.2 ((meets_setState_linear hg2 (hr2.op? hop1) rfl f 0).imp fun _ s3 h3 => ?_)
  obtain ⟨hs3, hg3, hr3⟩ := h3
  have hheader : (s3.map.block ⟨0⟩).isLoopHeader = false := by
    rw [hs3]
    show (s.map.block ⟨0⟩).isLoopHeader = false
    rw [BlockMap.block, hmap.blocks]
    rfl
  refine meets_observe.2 ?_
  rw [hheader, if_neg Bool.false_ne_true]
  refine meets_modify.2 ?_
  have hop3 := hr3.op? (hr2.op? hop1)
  rw [hs3] at hg3 hop3 hr3 ⊢
  exact ⟨rfl, hquiet, hmap, hg3, by simp [harrivals], hreturn, hunwind, start, f, by simp, hop3,
    hagrees.1.retains hr3, hagrees.2⟩

/-- A node returns a value, or nothing. -/
structure Emits (g : Graph) (ret : NodeId) (value : Option NodeId) : Prop where
  op : g.op? ret = some .methodReturn
  alive : g.isAlive ret = true
  input : ∃ n, g.node? ret = some n ∧ n.slots .inputs = [value]

theorem Emits.retains {ret : NodeId} (h : Emits g ret value) (hg : Retains g g') :
    Emits g' ret value := by
  obtain ⟨n, hn, hin⟩ := h.input
  obtain ⟨n', hn', -, hin'⟩ := hg.node ret n hn
  have hop : n.op = .methodReturn := Option.mem_unique (op?_of_node? hn) h.op
  refine ⟨hg.op? h.op, hg.alive ret _ h.op rfl h.alive, n', hn', (hin' ?_).trans hin⟩
  rw [hop]
  rfl

theorem meets_appendReturn (hg : s.graph.Linear none) (hlast : s.last = some first)
    (hop : s.graph.op? first = some op) :
    Ensures (append (.methodReturn value)) s (fun ret s' => s'.graph.Linear (some ret) ∧ Emits s'.graph ret value ∧
      Retains s.graph s'.graph ∧ s'.unwindBlock = s.unwindBlock) := by
  unfold append
  refine meets_bind.2 (meets_onGraph.2 ((meets_add_adds hg.packed _).imp fun ret g1 h1 => ?_))
  have hg1 : g1.Linear (some ret) := h1.linear hg rfl (fun h => Bool.noConfusion h) fun _ => rfl
  have hemits : Emits g1 ret value :=
    ⟨by rw [h1.op?, if_pos rfl]; rfl, by rw [h1.isAlive, if_pos rfl], _, by rw [h1.node?, if_pos rfl], rfl⟩
  have hr1 := h1.retains
  unfold appendNode
  simp only [meets_bind, meets_get, hlast]
  refine meets_onGraph.2 ((hg1.meets_setNext (hr1.op? hop) (some ret)).imp fun _ g2 h2 => ?_)
  obtain ⟨hg2, hr2⟩ := h2
  have hemits2 := hemits.retains hr2
  refine (meets_classOf (cls?_of_op? hemits2.op)).2 ?_
  exact ⟨hg2, hemits2, hr1.trans hr2, rfl⟩

/-- The result is read off the stack again. -/
theorem spread_of_pop {kind : Kind} {slot : Slot} {rest : List (Option Slot)}
    (hstack : f.stack = spread kind value) (hslot : (f.dropDeleted g).stack =
      if kind.onStack.isTwoSlot then none :: some slot :: rest else some slot :: rest) : value = some slot.node := by
  simp only [Frame.dropDeleted, hstack, Kind.isTwoSlot_onStack] at hslot
  cases value with
  | none =>
    simp only [spread, List.map_nil] at hslot
    split at hslot <;> cases hslot
  | some y =>
    simp only [spread] at hslot
    have halive (h : Frame.aliveSlot g (some (Slot.of y kind)) = some slot) : some y = some slot.node := by
      have h := (Option.filter_eq_some_iff.1 h).1
      rw [← Option.some.inj h]
      rfl
    split at hslot
    · exact halive (List.cons.inj (List.cons.inj hslot).2).1
    · exact halive (List.cons.inj hslot).1

/-- The graph has one return, and it answers for the machine. -/
def Answered (I : Interpretation α) (m : Method) (result : Option α) (g : Graph) : Prop :=
  ∃ ret value, g.Linear (some ret) ∧ Emits g ret value ∧ Answers g I m.result value result

/-- The block where the method is left returns what waits there. -/
theorem Waiting.meets_liftBlock {id : BlockId} (h : Waiting I m result s) (hid : s.returnBlock = some id) :
    Ensures (liftBlock id) s (fun _ s' => Answered I m result s'.graph ∧ s'.unwindBlock = none) := by
  obtain ⟨id', first, f, value, hid', hkind, harrival, hfirst, hstack, hanswer⟩ := h.arrival
  obtain rfl : id = id' := Option.mem_unique hid hid'
  simp only [liftBlock, arrival?, meets_bind, meets_get, meets_pure, harrival]
  unfold enteredBlock
  refine meets_change.2 ?_
  generalize hs0 : ({ s with
    current := some id, last := some first, frame := f.dropDeleted s.graph } : State) = s0
  obtain ⟨hmethod, hblock, hlinear, hfirst0, hlast, hunwind, hanswer0, hframe⟩ : s0.method = m ∧
      (s0.map.block id).kind = .methodReturn ∧ s0.graph.Linear none ∧
      s0.graph.op? first = some .placeholder ∧ s0.last = some first ∧ s0.unwindBlock = none ∧
      Answers s0.graph I m.result value result ∧ s0.frame = f.dropDeleted s.graph := by
    rw [← hs0]
    exact ⟨h.method, hkind, h.linear, hfirst, rfl, h.unwindBlock, hanswer, rfl⟩
  refine meets_observe.2 ?_
  refine meets_bind.2 ((meets_classOf (cls?_of_op? hfirst0)).2 ?_)
  rw [if_neg (by decide), hblock]
  refine meets_read.2 ?_
  dsimp only
  rw [hmethod]
  split
  · rename_i hvoid
    cases hanswer0 with
    | value hne _ => exact absurd hvoid hne
    | void _ =>
      refine meets_bind.2 (meets_pure.2 (meets_bind.2 ((meets_appendReturn hlinear hlast hfirst0).imp
        fun ret s1 h1 => ?_)))
      obtain ⟨hg1, hemits, hr1, hs1⟩ := h1
      exact ⟨⟨ret, none, hg1, hemits, .void hvoid⟩, hs1.trans hunwind⟩
  · refine meets_bind.2 ((meets_onFrame_pops (Frame.pops_pop m.result)).imp fun x s1 h1 => ?_)
    obtain ⟨rest, rfl, slot, ⟨rfl, -⟩, hslot⟩ := h1
    rw [hframe] at hslot
    obtain rfl := spread_of_pop hstack hslot
    refine meets_bind.2 (meets_pure.2 (meets_bind.2 ((meets_appendReturn
      (s := { s0 with frame := { s0.frame with stack := rest } }) hlinear hlast hfirst0).imp fun ret s2 h2 => ?_)))
    obtain ⟨hg2, hemits, hr2, hs2⟩ := h2
    exact ⟨⟨ret, _, hg2, hemits, hanswer0.retains hr2⟩, hs2.trans hunwind⟩

include hmap hquiet harrivals hreturn hunwind in
/-- The whole of lifting. -/
theorem meets_all (hm : m.IsStraightLine body last kind) (ht : Tracks I s (.entry I m))
    (hmethod : s.method = m) (hstop : stop = last.bci) (hstack : s.frame.stack = []) :
    Ensures all s (fun _ s' => ∃ result, m.execute I = some result ∧ Answered I m result s'.graph) := by
  subst hmethod
  unfold all
  simp only [meets_bind, meets_get, hmap.order, List.head?_cons, List.forIn_cons, List.forIn_nil, meets_pure]
  refine (meets_begin hmap hquiet harrivals hreturn hunwind ht hstack).imp fun _ s1 h1 => ?_
  refine (h1.meets_liftBlock hm hstop).imp fun _ s2 h2 => ?_
  obtain ⟨result, hresult, h2⟩ := h2
  obtain ⟨id, -, -, -, hid, -⟩ := h2.arrival
  simp only [hid]
  refine meets_bind.2 ((h2.meets_liftBlock hid).imp fun _ s3 h3 => ?_)
  obtain ⟨⟨ret, value, hg3, hemits, hanswer⟩, hunwind3⟩ := h3
  refine meets_read.2 ?_
  rw [hunwind3]
  refine meets_onGraph.2 (hg3.meets_cleanUp.imp fun _ g4 h4 => ?_)
  exact ⟨result, hresult, ret, value, h4.linear, hemits.retains h4.retains, hanswer.retains h4.retains⟩

end Lift

open Lift

/-- What lifting gives has one return, which answers for the machine. -/
theorem Method.ends_lift_straight {body : List Cursor} {last : Cursor} {kind : Option Kind}
    (hm : m.IsStraightLine body last kind) (hquiet : options.eagerInfopoints = false) (I : Interpretation α) :
    Ends (m.lift options) (fun g => ∃ result, m.execute I = some result ∧ Answered I m result g)
      (fun _ => True) := by
  unfold Method.lift
  cases hmap : BlockMap.create m options with
  | error e => trivial
  | ok map =>
    refine ends_bind.2 (ends_ok.2 (ends_bind.2 ?_))
    have hentry := Frame.agrees_entry I m m.qualifiedName
    unfold Ensures Meets at hentry
    unfold Lift.initial StateT.run
    cases hrun : Frame.entry m (Graph.empty m.qualifiedName) with
    | error cause => trivial
    | ok r =>
      rw [hrun] at hentry
      obtain ⟨hlinear, hagrees, hstack⟩ := hentry
      have hall : Ensures Lift.all { method := m, options, map, graph := r.2, frame := r.1 }
          (fun _ s => ∃ result, m.execute I = some result ∧ Answered I m result s.graph) :=
        meets_all (BlockMap.isSingle_of_create hm hmap) hquiet rfl rfl rfl hm ⟨hlinear, hagrees⟩ rfl rfl hstack
      refine ends_ok.2 (ends_bind.2 (Ends.mono hall (fun r hr => ?_) fun _ => id))
      dsimp only
      split
      · refine ends_bind.2 ?_
        cases r.2.graph.verify with
        | error _ => trivial
        | ok _ => exact hr
      · exact hr

/-- The graph returns at one place, with `value` as the result. -/
structure Graph.ReturnsAt (g : Graph) (ret : NodeId) (value : Option NodeId) : Prop where
  unique : ∀ x, g.isAlive x = true ∧ g.op? x = some .methodReturn ↔ x = ret
  input : ∃ n, g.node? ret = some n ∧ n.slots .inputs = [value]

theorem Graph.ReturnsAt.eq {ret ret' : NodeId} {value value' : Option NodeId} (h : g.ReturnsAt ret value)
    (h' : g.ReturnsAt ret' value') : ret = ret' ∧ value = value' := by
  obtain rfl : ret = ret' := (h'.unique ret).1 ((h.unique ret).2 rfl)
  obtain ⟨n, hn, hin⟩ := h.input
  obtain ⟨n', hn', hin'⟩ := h'.input
  obtain rfl : n = n' := Option.mem_unique hn hn'
  exact ⟨rfl, List.singleton_inj.1 (hin.symm.trans hin')⟩

/-- Straight-line code keeps its meaning: the input of the one return has the value that the machine
returns, whatever the operators mean. A return without a value has no input. -/
theorem Method.lift_straightLine {body : List Cursor} {last : Cursor} {kind : Option Kind}
    (hm : m.IsStraightLine body last kind) (hquiet : options.eagerInfopoints = false)
    (h : m.lift options = .ok g) :
    ∃ ret value, g.ReturnsAt ret value ∧ (value = none ↔ m.result = .void) ∧
      ∀ {α : Type} (I : Interpretation α), m.execute I = some (value.bind (g.value I)) ∧
        ∀ x, value = some x → (g.value I x).isSome := by
  have key {α : Type} (I : Interpretation α) : ∃ ret value, g.ReturnsAt ret value ∧
      (value = none ↔ m.result = .void) ∧ m.execute I = some (value.bind (g.value I)) ∧
      ∀ x, value = some x → (g.value I x).isSome := by
    obtain ⟨result, hresult, ret, value, hlinear, hemits, hanswer⟩ := (m.ends_lift_straight hm hquiet I).of_ok h
    refine ⟨ret, value, ⟨fun x => ⟨fun hx => ?_, ?_⟩, hemits.input⟩, ?_⟩
    · exact (Option.some.inj (hlinear.returns x hx.2)).symm
    · rintro rfl
      exact ⟨hemits.alive, hemits.op⟩
    · cases hanswer with
      | void hvoid => exact ⟨by simp [hvoid], hresult, nofun⟩
      | @value hvalue x v hx =>
        refine ⟨by simp [hvalue], ?_, ?_⟩
        · rw [hresult, Option.bind_some, hx.value]
        · rintro _ ⟨⟩
          simp [hx.value]
  -- The place of the return does not depend on the interpretation, so any one of them finds it.
  obtain ⟨ret, value, hat, hvoid, -⟩ := key (α := Unit) default
  refine ⟨ret, value, hat, hvoid, fun I => ?_⟩
  obtain ⟨ret', value', hat', -, hvalue⟩ := key I
  obtain ⟨rfl, rfl⟩ := hat.eq hat'
  exact hvalue

/-- Twice the argument as a long, cut to an int, less three more than the argument: a local is written
after it was read, and a value of two slots is duplicated. -/
theorem Method.lift_straightLine_twice :
    let m := { Method.ofCode #[0x1a, 0x85, 0x5c, 0x61, 0x88, 0x84, 0, 3, 0x1a, 0x64, 0xac] [] [] with
      descriptor := "(I)I", result := .int }
    let I : Interpretation Int := {
      parameter := fun _ _ => 20
      constant := fun _ bits => bits.toInt
      binary := fun op _ x y => if op = .add then x + y else x - y
      negate := fun _ x => -x
      convert := fun _ _ x => x
      compare := fun _ _ x y => (x - y).sign }
    ∃ g, m.lift .none = .ok g ∧ ∃ ret x, g.ReturnsAt ret (some x) ∧ g.value I x = some 17 := by
  intro m I
  have hne : instructions m.code ≠ [] := by decide +kernel
  have hm : m.IsStraightLine (instructions m.code).dropLast ((instructions m.code).getLast hne) (some .int) :=
    ⟨rfl, (List.dropLast_append_getLast hne).symm, by decide +kernel, by decide +kernel +revert⟩
  obtain ⟨g, hg, -⟩ : ∃ g, m.lift .none = .ok g ∧ true = true := exists_ok_of_any (by decide +kernel)
  obtain ⟨ret, value, hat, hvoid, hvalue⟩ := m.lift_straightLine hm rfl hg
  cases value with
  | none => exact absurd (hvoid.1 rfl) (by decide)
  | some x =>
    have hrun : m.execute I = some (some 17) := by decide +kernel
    exact ⟨g, hg, ret, x, hat, Option.some.inj ((hvalue I).1.symm.trans hrun)⟩

end SeaOfNodes
