import SeaOfNodes.Proofs.Lift.Accounts
import SeaOfNodes.Proofs.Lift.Woven

/-!
# What holds while a method is lifted

The graph grows, the frames fit it, every block is entered through a node that heads one, and merges
and loops are tied together as they should. The control flow is unfinished only after the last node, at the heads of blocks that wait to be lifted,
and at the nodes in hand. The last of these statements needs that no dispatch block is the header of
a loop, and that control does not run out of the instructions; whether a stage relies on the first is
its `clean`, and whether on both its `exact`.
-/

namespace SeaOfNodes.Lift

open Graph

/-- What is lifted, and what lifting may rely on. -/
structure Plan where
  /-- The blocks of the method, without those where it is left. -/
  base : BlockMap
  code : Array UInt8
  /-- No dispatch block is a loop header. -/
  clean : Bool
  /-- All unfinished control flow is accounted for. -/
  exact : Bool
  clean_of_exact : exact = true → clean = true

/-- How far lifting has come. -/
structure Stage extends Plan where
  current : Option BlockId
  /-- The loop of the current block, if it is a header, is still to be opened. -/
  opening : Bool
  /-- The blocks that were entered. -/
  lifted : List BlockId
  /-- The blocks that come after the current one. -/
  rest : List BlockId
  /-- The block whose frame is being merged with another one. -/
  merging : Option BlockId

variable {p : Stage} {s s' : State} {hand hand' made lost : List (Note × NodeId)} {g g' : Graph}
  {id : BlockId} {a : Arrival} {α : Type} {c : NodeClass} {post : α → State → Prop} {inputs : List Link}
  {fail : Failure → Prop} {l : List (BlockId × Arrival)} {s'' : State} {op : Op} {x : NodeId} {act : GraphM α}
  {clean : Bool}

/-- The method is left through the block. -/
def State.Leaves (s : State) (id : BlockId) : Prop :=
  s.returnBlock = some id ∨ s.unwindBlock = some id

/-- The unfinished control flow that is expected: after the last node, and at the heads of blocks
that wait to be lifted. -/
def awaited (lifted : List BlockId) (s : State) : List (Note × NodeId) :=
  s.last.toList.map ((.gap, ·)) ++
    (s.arrivals.filter fun a => a.1 ∉ lifted).map fun a => (.gap, a.2.first)

/-- The map is that of the method, with new blocks where the method is left. -/
structure MapOk (base map : BlockMap) (returnBlock unwindBlock : Option BlockId) : Prop where
  size : base.blocks.size ≤ map.blocks.size
  block : ∀ id, id.index < base.blocks.size → map.block id = base.block id
  headers : map.headers = base.headers
  leaves : ∀ id, returnBlock = some id ∨ unwindBlock = some id →
    base.blocks.size ≤ id.index ∧ (map.block id).loops = 0 ∧ (map.block id).isLoopHeader = false
  returns : ∀ id, returnBlock = some id → (map.block id).kind = .methodReturn
  unwinds : ∀ id, unwindBlock = some id → ∃ bci, (map.block id).kind = .unwind bci

/-- A class of nodes after which control goes on. -/
def goesOn (c : NodeClass) : Bool := (c.layout.fieldIndex? .successors "next").isSome

/-- A block is entered when it should: the loop of a lifted header is open, the header of a loop is
lifted before the blocks inside, and blocks that wait are still to come. -/
structure TidyAt (p : Stage) (map : BlockMap) (g : Graph) (leaves : BlockId → Prop) (id : BlockId)
    (first : NodeId) : Prop where
  opened : id ∈ p.lifted → (map.block id).isLoopHeader = true →
    (p.opening = true → p.current ≠ some id) → g.cls? first = some .loopBegin
  inside : ∀ l ∈ LoopMask.toList (map.block id).loops,
    ∃ h, map.header? l = some h ∧ (h = id ∨ h ∈ p.lifted)
  waiting : id ∈ p.lifted ∨ id ∈ p.rest ∨ leaves id

/-- Loops are entered through their headers, which are lifted first. -/
structure Tidy (p : Stage) (s : State) : Prop where
  arrivals : ∀ id a, (id, a) ∈ s.arrivals → TidyAt p s.map s.graph s.Leaves id a.first
  entered : ∀ id ∈ p.lifted, ∃ a, (id, a) ∈ s.arrivals
  /-- No exit belongs to a placeholder. -/
  vacant : ∀ x, ¬ s.graph.Notes .held x

/-- What holds between the steps of lifting; `hand` notes what is unfinished in hand. -/
structure Inv [Source] (p : Stage) (hand : List (Note × NodeId)) (s : State) : Prop where
  method : s.method = Source.method
  growing : s.graph.Growing
  frame : s.frame.Fits s.graph
  arrivals : ∀ id a, (id, a) ∈ s.arrivals → ArrivalOk s.graph a
  keys : (s.arrivals.map (·.1)).Nodup
  settled : ∀ id a, (id, a) ∈ s.arrivals → p.merging ≠ some id → a.frame.isSome
  last : ∀ l, s.last = some l → ∃ c, s.graph.cls? l = some c ∧ goesOn c = true ∧ c ≠ .loopExit
  map : MapOk p.base s.map s.returnBlock s.unwindBlock
  current : s.current = p.current
  code : s.method.code = p.code
  accounts : Accounts p.exact s.graph (hand ++ awaited p.lifted s)
  tidy : p.clean = true → Tidy p s
  woven : Woven p.clean s.graph s.arrivals

/-- Ways to fail that are foreseen: the method is given up, a phi that has to go is in use or gone
already where it is needed, or a value is pushed whose kind has none. -/
def Foreseen : Failure → Prop
  | .bailout _ => True
  | .fault cause => InUse cause ∨ cause = .noValue .void ∨ cause = .noValue .illegal
  | .flaw _ => False

/-! ### Classes -/

theorem TidyAt.mono {map : BlockMap} {leaves : BlockId → Prop} {first : NodeId}
    (h : TidyAt p map g leaves id first) (hk : KeepsOps g g') : TidyAt p map g' leaves id first :=
  ⟨fun hl hh ho => hk _ _ (h.opened hl hh ho), h.inside, h.waiting⟩

theorem mayGo_of_goesOn (h : goesOn c) : mayGo c = false := by
  revert h
  cases c <;> decide

theorem goesOn_of_isHead (h : isHead c) : goesOn c := by
  revert h
  cases c <;> decide

/-! ### Changes of the graph -/

/-- The state with another last node. -/
def State.withLast (s : State) (last : Option NodeId) : State := { s with last }

/-- Nodes keep their operations, and no placeholder gets a user where that matters. -/
structure Steady (clean : Bool) (g g' : Graph) : Prop where
  ops : KeepsOps g g'
  vacant : clean = true → ∀ x, g'.Notes .held x → g.Notes .held x

theorem Steady.refl (clean : Bool) (g : Graph) : Steady clean g g := ⟨.refl g, fun _ _ => id⟩

theorem Steady.trans {g'' : Graph} (h : Steady clean g g') (h' : Steady clean g' g'') :
    Steady clean g g'' :=
  ⟨h.ops.trans h'.ops, fun hc x hx => h.vacant hc x (h'.vacant hc x hx)⟩

theorem steady_of_moves (hm : Moves g g' made lost)
    (hheld : clean → ∀ x, (.held, x) ∉ made) : Steady clean g g' :=
  ⟨hm.keepsOps, fun hc x hx => (((hm.notes _ _).1 hx).resolve_left (hheld hc x)).1⟩

section

variable [Source]

/-- The invariant after a change of the graph and of the last node. -/
theorem Inv.change (h : Inv p hand s) (hg : g'.Growing) (hst : Steady p.clean s.graph g')
    (hw : Woven p.clean g' s.arrivals) {last : Option NodeId}
    (hlast : ∀ l, last = some l → ∃ c, g'.cls? l = some c ∧ goesOn c ∧ c ≠ .loopExit)
    (ha : Accounts p.exact g' (hand' ++ awaited p.lifted (s.withLast last))) :
    Inv p hand' { s with graph := g', last } where
  method := h.method
  growing := hg
  frame := h.frame.mono hst.ops
  arrivals id a hmem := (h.arrivals id a hmem).mono hst.ops
  keys := h.keys
  settled := h.settled
  last := hlast
  map := h.map
  current := h.current
  code := h.code
  accounts := ha
  tidy hclean :=
    { arrivals := fun id a hmem => ((h.tidy hclean).arrivals id a hmem).mono hst.ops
      entered := (h.tidy hclean).entered
      vacant := fun x hx => (h.tidy hclean).vacant x (hst.vacant hclean x hx) }
  woven := hw

/-- Merges and loops do not mind new proxies and frame states. -/
theorem Inv.quiet (h : Inv p hand s) (hk : KeepsOps s.graph g') (hq : Quiet s.graph g') :
    Woven p.clean g' s.arrivals :=
  h.woven.quiet h.arrivals hk hq

/-- Control goes on from a node in hand. -/
theorem Inv.resume {x : NodeId} (h : Inv p ((.gap, x) :: hand) (s.withLast none))
    (hx : s.graph.cls? x = some c) (hc : goesOn c) (hne : c ≠ .loopExit) :
    Inv p hand (s.withLast (some x)) := by
  refine h.change h.growing (.refl ..) h.woven ?_ (h.accounts.perm List.perm_middle.symm)
  rintro _ ⟨⟩
  exact ⟨c, hx, hc, hne⟩

theorem Inv.last_mono (h : Inv p hand s) (hk : KeepsOps s.graph g') (l : NodeId)
    (hl : s.last = some l) : ∃ c, g'.cls? l = some c ∧ goesOn c ∧ c ≠ .loopExit := by
  obtain ⟨c, hc, hn⟩ := h.last l hl
  exact ⟨c, hk l c hc, hn⟩

/-- The invariant after a change of the graph. -/
theorem Inv.graph (h : Inv p hand s) (hg : g'.Growing) (hm : Moves s.graph g' made lost)
    (hw : Woven p.clean g' s.arrivals) (hheld : p.clean → ∀ x, (.held, x) ∉ made)
    (ha : Accounts p.exact g' (hand' ++ awaited p.lifted s)) : Inv p hand' { s with graph := g' } :=
  h.change hg (steady_of_moves hm hheld) hw (h.last_mono hm.keepsOps) ha

/-- The invariant after a change of the graph without notes. -/
theorem Inv.extend (h : Inv p hand s) (he : Extends s.graph g') (hw : Woven p.clean g' s.arrivals) :
    Inv p hand { s with graph := g' } :=
  h.graph he.1 he.2 hw (by simp) (h.accounts.keep he.2)

end

theorem meets_onGraph :
    Meets (onGraph act) s post fail ↔
      Meets act s.graph (fun a g' => post a { s with graph := g' }) (fun c => fail (.fault c)) := by
  unfold onGraph
  rw [meets_bind, meets_get]
  unfold Meets
  cases hact : act s.graph with
  | ok r | error c => simp [StateT.run, hact]; rfl

theorem meets_onGraph_bind {β : Type} {k : α → GraphM β} {post : β → State → Prop} :
    Meets (onGraph (act >>= k)) s post fail ↔
      Meets (onGraph act) s (fun a s' => Meets (onGraph (k a)) s' post fail) fail := by
  simp only [meets_onGraph, meets_bind]

/-! ### Steps that only read, and steps on the frame -/

/-- Nodes keep their operations, the method is left through the same blocks, and control has not moved
on in the current block. -/
structure Later (s s' : State) : Prop where
  ops : KeepsOps s.graph s'.graph
  leaves : ∀ id, s.Leaves id → s'.Leaves id
  last : s'.last = s.last

theorem Later.refl (s : State) : Later s s := ⟨.refl _, fun _ => id, rfl⟩

theorem Later.trans (h : Later s s') (h' : Later s' s'') : Later s s'' :=
  ⟨h.ops.trans h'.ops, fun id hid => h'.leaves id (h.leaves id hid), h'.last.trans h.last⟩

/-- Only the graph changes, and nodes keep their operations. -/
structure Alters (s s' : State) : Prop where
  ops : KeepsOps s.graph s'.graph
  eq : s' = { s with graph := s'.graph }

theorem Alters.trans (h : Alters s s') (h' : Alters s' s'') : Alters s s'' :=
  ⟨h.ops.trans h'.ops, by rw [h'.eq, h.eq]⟩

theorem Alters.later (h : Alters s s') : Later s s' := by
  refine ⟨h.ops, fun id hid => ?_, ?_⟩ <;> rw [h.eq]
  exact hid

theorem Alters.arrivals (h : Alters s s') : s'.arrivals = s.arrivals := by rw [h.eq]

theorem Alters.mem_arrivals (h : Alters s s') {q : BlockId × Arrival} :
    q ∈ s'.arrivals ↔ q ∈ s.arrivals := by rw [h.arrivals]

/-- Only the graph changes, and merges and loops stay as they are. -/
structure Grows (s s' : State) : Prop extends Alters s s' where
  grafts : Grafts s.graph s'.graph

theorem Grows.refl (s : State) : Grows s s := ⟨⟨.refl _, rfl⟩, .refl _⟩

theorem Grows.trans (h : Grows s s') (h' : Grows s' s'') : Grows s s'' :=
  ⟨h.toAlters.trans h'.toAlters, h.grafts.trans h'.grafts⟩

theorem grows_graph (hk : KeepsOps s.graph g') (hg : Grafts s.graph g') :
    Grows s { s with graph := g' } := ⟨⟨hk, rfl⟩, hg⟩

theorem meets_ofExcept {r : Except Bailout α} :
    Meets (ofExcept r) s post Foreseen ↔ ∀ a, r = .ok a → post a s := by
  cases r with
  | ok a => simp [ofExcept]
  | error cause => simp [ofExcept, bailout, Foreseen]

@[simp] theorem meets_bailout {cause : Bailout} :
    Meets (bailout cause : LiftM α) s post Foreseen ↔ True := Iff.rfl

@[simp] theorem meets_malformed {cause : Malformation} :
    Meets (malformed cause : LiftM α) s post Foreseen ↔ True := Iff.rfl

section

variable [Source]

section

variable (h : Inv p hand s)

include h

theorem Inv.withFrame {f : Frame} (hf : f.Fits s.graph) :
    Inv p hand { s with frame := f } :=
  { h with
    frame := hf
    tidy := fun hc =>
      ⟨(h.tidy hc).arrivals, (h.tidy hc).entered, (h.tidy hc).vacant⟩ }

theorem Inv.meets_onFrame {act : FrameM α}
    {post : List (Option Slot) → α → List (Option Slot) → Prop} (hact : Frame.Pops act post) :
    Meets (onFrame act) s (fun a s' => Inv p hand s' ∧ Later s s' ∧ s'.graph = s.graph ∧
      post s.frame.stack a s'.frame.stack) Foreseen := by
  obtain ⟨rest, hrest, hrun, ha⟩ := hact s.frame
  refine meets_read.2 (meets_bind.2 (meets_set.2 (meets_ofExcept.2 fun a hr => ?_)))
  have hf : Frame.Fits s.graph { s.frame with stack := rest } :=
    ⟨h.frame.locals, h.frame.stack.sub fun _ hs => hrest.mem hs, h.frame.size⟩
  rw [show (act s.frame).2 = _ from hrun]
  exact ⟨h.withFrame hf, ⟨.refl _, fun _ => id, rfl⟩, rfl, ha a hr⟩

theorem Inv.meets_pop (kind : Kind) :
    Meets (pop kind) s
      (fun x s' => Inv p hand s' ∧ Later s s' ∧ s'.graph.HasKind x kind.onStack) Foreseen := by
  refine (h.meets_onFrame (Frame.pops_pop kind)).imp fun x s' hs => ?_
  obtain ⟨h', hs', hg, slot, ⟨rfl, hkind⟩, hstack⟩ := hs
  refine ⟨h', hs', ?_⟩
  rw [hg, ← hkind]
  refine h.frame.stack slot ?_
  rw [hstack]
  split <;> simp

theorem Inv.meets_push {x : NodeId} {kind : Kind} (hx : s.graph.HasKind x kind.onStack) :
    Meets (push kind x) s (fun _ s' => Inv p hand s' ∧ Later s s') Foreseen := by
  unfold push
  split
  · rename_i hnone
    simp only [Bool.or_eq_true, decide_eq_true_eq] at hnone
    exact .inr (hnone.imp (congrArg _) (congrArg _))
  · exact ⟨h.withFrame (h.frame.push hx), .refl _, fun _ => id, rfl⟩

/-! ### Values -/

/-- A node that can be shared: its operands are values of the right kinds. -/
theorem Inv.meets_intern {op : Op} {inputs : List Link}
    (hv : op.isValueNumberable) (hp : op.cls ≠ .proxy) (hc : op.cls.isValue)
    (hs : Supplied s.graph op inputs) :
    Meets (intern (.ofInputs op inputs)) s
      (fun x s' => Inv p hand s' ∧ Grows s s' ∧ s'.graph.HasKind x op.valueKind.onStack)
      Foreseen := by
  have hphi : op.cls ≠ .phi := by
    rintro h
    rw [Op.isValueNumberable, h] at hv
    cases hv
  refine meets_onGraph.2 ((meets_intern_growing h.growing hv hs.fits fun id _ _ =>
    hs.filled hphi hp id).mono (fun x g' hx => ?_) fun c hc => .inl (.inl hc))
  have hk := hx.moves.keepsOps
  have hq : Quiet s.graph g' := .of_eq (hx.joints_eq hp)
  exact ⟨h.extend ⟨hx.growing, hx.moves⟩ (h.quiet hk hq), grows_graph hk hq.grafts,
    hasKind_of_op? hx.op? hc⟩

/-- Registering a frame as the state after a node that is no exit of a loop. -/
theorem Inv.meets_setState {x : NodeId} {f : Frame} (hx : s.graph.cls? x = some c) (hne : c ≠ .loopExit)
    (hc : (c.layout.fieldIndex? .inputs "state_after").isSome) (hf : f.Fits s.graph) (bci : Int) :
    Meets (setState x f bci) s
      (fun _ s' => Inv p hand s' ∧ Grows s s' ∧ KeepsAlive s.graph s'.graph) Foreseen := by
  refine meets_onGraph.2 (meets_bind.2 ((Frame.meets_materialize h.growing hf _).mono
    (fun state g1 h1 => ?_) fun c hc => .inl (.inl hc)))
  obtain ⟨he1, ha1, hs, hq1, -⟩ := h1
  refine (meets_setStateAfter_growing he1.1 (he1.2.keepsOps x c hx) hc hs).mono
    (fun _ g2 h2 => ?_) fun _ => False.elim
  obtain ⟨hg2, ha2, hm2, hj2, -⟩ := h2
  have hm := he1.2.trans hm2
  have hq := hq1.trans (.of_eq (hj2 hne))
  exact ⟨h.extend ⟨hg2, hm⟩ (h.quiet hm.keepsOps hq), grows_graph hm.keepsOps hq.grafts,
    ha1.trans ha2⟩

end

end

theorem meets_classOf (hx : s.graph.cls? x = some c) {post : NodeClass → State → Prop} :
    Meets (classOf x) s post fail ↔ post c s := by
  obtain ⟨n, hn, rfl⟩ := exists_node?_of_cls? hx
  unfold classOf
  rw [meets_onGraph, meets_bind, meets_node, hn]
  simp

/-! ### Where blocks are entered -/

theorem perm_cons_filter_ne (hl : (l.map (·.1)).Nodup)
    (hmem : (id, a) ∈ l) : l.Perm ((id, a) :: l.filter (·.1 ≠ id)) := by
  induction l with
  | nil => cases hmem
  | cons x l ih =>
    rw [List.map_cons, List.nodup_cons] at hl
    rcases List.mem_cons.1 hmem with rfl | hmem
    · have : l.filter (·.1 ≠ id) = l := List.filter_eq_self.2 fun y hy => by
        exact decide_eq_true fun h : y.1 = id => hl.1 (List.mem_map.2 ⟨y, hy, h⟩)
      rw [List.filter_cons_of_neg (by simp), this]
    · have hne : x.1 ≠ id := fun h => hl.1 (h ▸ List.mem_map.2 ⟨_, hmem, rfl⟩)
      rw [List.filter_cons_of_pos (by simpa using hne)]
      exact ((ih hl.2 hmem).cons x).trans (.swap ..)

theorem lookup_eq_some_iff_mem (hl : (l.map (·.1)).Nodup) :
    l.lookup id = some a ↔ (id, a) ∈ l := by
  refine ⟨fun h => ?_, fun h => ?_⟩
  · obtain ⟨l1, l2, rfl, -⟩ := List.lookup_eq_some_iff.1 h
    simp
  · obtain ⟨l1, l2, rfl⟩ := List.append_of_mem h
    refine List.lookup_eq_some_iff.2 ⟨l1, l2, rfl, fun q hq => ?_⟩
    rw [List.map_append, List.nodup_append] at hl
    simpa using fun h => hl.2.2 q.1 (List.mem_map_of_mem hq) id (by simp) h.symm

/-- The heads of the other blocks that wait. -/
def State.without (s : State) (id : BlockId) : State :=
  { s with arrivals := s.arrivals.filter (·.1 ≠ id) }

theorem Inv.awaited_perm [Source] (h : Inv p hand s) (hmem : (id, a) ∈ s.arrivals) (hid : id ∉ p.lifted) :
    (awaited p.lifted s).Perm ((.gap, a.first) :: awaited p.lifted (s.without id)) := by
  have hp := ((perm_cons_filter_ne h.keys hmem).filter fun b => b.1 ∉ p.lifted).map
    fun b => (Note.gap, b.2.first)
  rw [List.filter_cons_of_pos (by simpa using hid), List.map_cons] at hp
  exact (hp.append_left _).trans List.perm_middle

theorem awaited_without (hid : id ∈ p.lifted) : awaited p.lifted (s.without id) = awaited p.lifted s := by
  unfold awaited State.without
  rw [List.filter_filter]
  congr 2
  refine List.filter_congr fun b _ => ?_
  by_cases hb : b.1 = id
  · simp [hb, hid]
  · simp [hb]

theorem awaited_cons (hid : id ∉ p.lifted) (a : Arrival) :
    (awaited p.lifted { s with arrivals := (id, a) :: s.arrivals }).Perm
      ((.gap, a.first) :: awaited p.lifted s) := by
  unfold awaited
  rw [List.filter_cons_of_pos (by simpa using hid)]
  exact List.perm_middle

/-! ### Control flow -/

/-- A class of the control flow, other than branches. -/
def isPlain (c : NodeClass) : Bool := c.has .fixed && c != .branch

theorem isPlain_iff (h : isPlain c) :
    c.has .valueNumberable = false ∧ c ≠ .branch ∧ c ≠ .phi ∧ c ≠ .proxy := by
  revert h
  cases c <;> decide

/-- A class of the control flow, other than branches, merges, and ends and exits of loops. -/
def isStep (c : NodeClass) : Bool :=
  isPlain c && !c.has .merge && c != .loopExit && c != .loopEnd

theorem isStep_iff (h : isStep c) :
    isPlain c ∧ c.has .merge = false ∧ c ≠ .loopExit ∧ c ≠ .loopEnd := by
  revert h
  cases c <;> decide

theorem joint?_of_isStep (h : isStep op.cls) :
    (Node.ofInputs op inputs).joint? = none := by
  rw [Node.joint?, show (Node.ofInputs op inputs).cls = op.cls from rfl]
  revert h
  cases op.cls <;> first | exact fun _ => rfl | exact fun h => absurd h (by decide)

section

variable [Source] {t : NodeId}

/-- A new node brings its notes. -/
theorem meets_addNoted {exact : Bool} (clean : Bool) {owed : List (Note × NodeId)} (hg : g.Growing)
    (hs : Supplied g op inputs) (hc : isPlain op.cls) (hmerge : op.cls.has .merge → Links.slots inputs = [none])
    (hheld : clean → heldBy g (.ofInputs op inputs) = []) (ha : Accounts exact g owed) :
    Meets (Graph.add (.ofInputs op inputs)) g (fun x g' => Builds (fun _ => False) g g' x (.ofInputs op inputs) ∧
      Steady clean g g' ∧ Accounts exact g' (notesOf op.cls x ++ owed)) IsStale := by
  obtain ⟨hv, hb, hphi, hproxy⟩ := isPlain_iff hc
  refine (meets_add_ofInputs hg hv hs.fits hmerge fun id _ _ => hs.filled hphi hproxy id).imp fun x g' hx => ?_
  have hm := hx.moves
  rw [newNotes_ofInputs hb, targets_successors_ofInputs, List.map_nil] at hm
  have hdebt : ∀ q ∈ heldBy g (.ofInputs op inputs), q.1 = .held := by
    intro q hq
    obtain ⟨t, -, rfl⟩ := List.mem_map.1 hq
    rfl
  refine ⟨hx, steady_of_moves hm fun hclean y hy => ?_, ha.add _ hm hx.node?_eq_none fun q hq => ?_⟩
  · rw [hheld hclean, List.append_nil] at hy
    simp only [notesOf, List.mem_append] at hy
    rcases hy with ((hy | hy) | hy) | hy <;> split at hy <;> simp at hy
  · rw [hdebt q hq]
    rfl

/-- A new node, whose successors are to be filled in, comes into hand. -/
theorem Inv.meets_add (h : Inv p hand s) (hc : isPlain op.cls) (hs : Supplied s.graph op inputs)
    (hmerge : op.cls.has .merge → Links.slots inputs = [none])
    (hheld : p.clean → heldBy s.graph (.ofInputs op inputs) = [])
    (hw : ∀ x g', Builds (fun _ => False) s.graph g' x (.ofInputs op inputs) →
      KeepsOps s.graph g' → Woven p.clean g' s.arrivals) :
    Meets (onGraph (Graph.add (.ofInputs op inputs))) s
      (fun x s' => Inv p (notesOf op.cls x ++ hand) s' ∧ Alters s s' ∧
        Builds (fun _ => False) s.graph s'.graph x (.ofInputs op inputs)) Foreseen := by
  refine meets_onGraph.2 ((meets_addNoted p.clean h.growing hs hc hmerge hheld h.accounts).mono (fun x g' hx => ?_)
    fun c hc => .inl (.inl hc))
  obtain ⟨hx, hst, ha⟩ := hx
  rw [← List.append_assoc] at ha
  exact ⟨h.change hx.growing hst (hw x g' hx hst.ops) (h.last_mono hst.ops) ha, ⟨hst.ops, rfl⟩, hx⟩

/-- A new node that belongs to no merge and no loop. -/
theorem Inv.meets_addStep (h : Inv p hand s) (hc : isStep op.cls) (hs : Supplied s.graph op inputs) :
    Meets (onGraph (Graph.add (.ofInputs op inputs))) s
      (fun x s' => Inv p (notesOf op.cls x ++ hand) s' ∧ Grows s s' ∧ s.graph.node? x = none ∧
        s'.graph.op? x = some op) Foreseen := by
  obtain ⟨hp, hm, he, -⟩ := isStep_iff hc
  refine (h.meets_add hp hs (by simp [hm]) (fun _ => heldBy_eq_nil hs.fits he)
    fun x g' hx hk => h.quiet hk (.of_eq (hx.joints_eq (joint?_of_isStep hc)))).imp fun x s1 h1 => ?_
  exact ⟨h1.1, ⟨h1.2.1, .of_eq (h1.2.2.joints_eq (joint?_of_isStep hc))⟩, h1.2.2.node?_eq_none, op?_of_node? h1.2.2.node⟩

/-- Control goes on from a node in hand to another. -/
theorem Inv.meets_link (h : Inv p ((.gap, x) :: (.loose, t) :: hand) s)
    (hx : s.graph.cls? x = some c) (hc : goesOn c) :
    Meets (onGraph (setNext x (some t))) s (fun _ s' => Inv p hand s' ∧ Grows s s') Foreseen := by
  refine meets_onGraph.2 ((meets_setNext_growing h.growing hx (h.growing.isAlive hx (mayGo_of_goesOn hc))
    hc (h.accounts.holds _ _ (by simp) (by simp))).mono (fun _ g' hg => ?_) fun _ => False.elim)
  obtain ⟨hg, -, old, hm, hold, hj⟩ := hg
  exact ⟨h.graph hg hm (h.quiet hm.keepsOps (.of_eq hj)) (by simp) (h.accounts.link hm hold),
    grows_graph hm.keepsOps (.of_eq hj)⟩

/-- An end in hand becomes an end of a merge, the phis of which have a value for it. -/
theorem Inv.meets_addForwardEnd {merge : NodeId} (h : Inv p ((.unlisted, t) :: hand) s)
    (hm : s.graph.cls? merge = some .merge) (hbusy : (id, ⟨merge, none⟩) ∈ s.arrivals) :
    Meets (onGraph (addForwardEnd merge t)) s
      (fun _ s' => Inv p hand s' ∧ Alters s s' ∧
        ∃ ends, s.graph.joint? merge = some ⟨.merge, ends, []⟩ ∧ s'.graph.joint? =
          Function.update s.graph.joint? merge (some ⟨.merge, ends ++ [some t], []⟩)) Foreseen := by
  refine meets_onGraph.2 ((meets_addForwardEnd_growing h.growing hm (.inl rfl)
    (h.accounts.holds _ _ (by simp) (by simp))).mono (fun _ g' hg => ?_) fun _ => False.elim)
  obtain ⟨hg, -, hm, op, ends, hj, hop, hj'⟩ := hg
  obtain rfl : op = .merge := by cases op <;> cases hop; rfl
  have hw : Woven p.clean g' s.arrivals := h.woven.mergeEnds h.arrivals hm.keepsOps
    (fun j h => by rw [hj] at h; cases h; rfl) hj' fun _ => ⟨id, hbusy⟩
  exact ⟨h.graph hg hm hw (by simp) (h.accounts.settle [(.unlisted, t)] hm), ⟨hm.keepsOps, rfl⟩,
    ends, hj, hj'⟩

theorem Inv.perm (h : Inv p hand s) (hp : hand.Perm hand') : Inv p hand' s :=
  { h with accounts := h.accounts.perm (hp.append_right _) }

theorem Inv.drop {q : Note × NodeId} (h : Inv p (q :: hand) s)
    (hq : p.exact → q.1.isDebt = false) : Inv p hand s :=
  { h with accounts := h.accounts.drop hq }

/-- The last node is taken out of the accounts. -/
theorem Inv.takeLast {l : NodeId} (h : Inv p hand s) (hl : s.last = some l) :
    Accounts p.exact s.graph ((.gap, l) :: (hand ++ awaited p.lifted (s.withLast none))) := by
  have haw : awaited p.lifted s = (.gap, l) :: awaited p.lifted (s.withLast none) := by
    simp [awaited, hl, State.withLast]
  have ha := h.accounts
  rw [haw] at ha
  exact ha.perm List.perm_middle

/-- Control goes on from the last node to one in hand, if control has not left the block. -/
theorem Inv.meets_leave {l : NodeId} (h : Inv p ((.loose, t) :: hand) s) (hl : s.last = some l) :
    Meets (onGraph (setNext l (some t))) s
      (fun _ s' => Inv p hand (s'.withLast none) ∧ Grows s s') Foreseen := by
  obtain ⟨c, hc, hgo, -⟩ := h.last l hl
  refine meets_onGraph.2 ((meets_setNext_growing h.growing hc (h.growing.isAlive hc (mayGo_of_goesOn hgo))
    hgo (h.accounts.holds _ _ (by simp) (by simp))).mono (fun _ g' hg => ?_) fun _ => False.elim)
  obtain ⟨hg, -, old, hm, hold, hj⟩ := hg
  exact ⟨h.change hg (steady_of_moves hm (by simp)) (h.quiet hm.keepsOps (.of_eq hj)) nofun
    ((h.takeLast hl).link hm hold), grows_graph hm.keepsOps (.of_eq hj)⟩

/-- What is noted of a node to which control is to go on. -/
def arriving (c : NodeClass) (x : NodeId) : List (Note × NodeId) :=
  (.loose, x) :: if goesOn c then [(.gap, x)] else []

/-- Control goes on to a node in hand, after which it may go on. -/
theorem Inv.meets_appendNode (h : Inv p (arriving c x ++ hand) s)
    (hx : s.graph.cls? x = some c) (hne : c ≠ .loopExit) (hl : s.last.isSome) :
    Meets (appendNode x) s
      (fun _ s' => Inv p hand s' ∧ KeepsOps s.graph s'.graph ∧
        s'.last = if goesOn c then some x else none) Foreseen := by
  obtain ⟨l, hl⟩ := Option.isSome_iff_exists.1 hl
  unfold appendNode
  rw [meets_bind, meets_get, hl]
  refine (h.meets_leave hl).bind fun _ s1 h1 => ?_
  obtain ⟨h1, hs1⟩ := h1
  have hx1 := hs1.ops x c hx
  refine meets_bind.2 ((meets_classOf hx1).2 (meets_modify.2 ?_))
  show Inv p hand { s1 with last := if goesOn c then some x else none } ∧ _
  refine ⟨?_, hs1.ops, rfl⟩
  cases hc : goesOn c with
  | false =>
    rw [hc] at h1
    exact h1
  | true =>
    rw [hc] at h1
    exact h1.resume hx1 hc hne

/-- Control goes on to a new node. -/
theorem Inv.meets_append (h : Inv p hand s)
    (hc : isStep op.cls) (hn : ∀ x, notesOf op.cls x = arriving op.cls x)
    (hs : Supplied s.graph op inputs) (hl : s.last.isSome) :
    Meets (append (.ofInputs op inputs)) s
      (fun x s' => Inv p hand s' ∧ KeepsOps s.graph s'.graph ∧ s'.graph.op? x = some op ∧
        s'.last = if goesOn op.cls then some x else none) Foreseen := by
  unfold append
  refine (h.meets_addStep hc hs).bind fun x s1 h1 => ?_
  obtain ⟨h1, hs1, -, hx⟩ := h1
  rw [hn] at h1
  refine (h1.meets_appendNode (cls?_of_op? hx) (isStep_iff hc).2.2.1 (by rw [hs1.later.last]; exact hl)).bind
    fun _ s2 h2 => ?_
  exact ⟨h2.1, hs1.ops.trans h2.2.1, h2.2.1.ops _ _ hx, h2.2.2⟩

/-- Control leaves the block to a node in hand. -/
theorem Inv.meets_appendJump (h : Inv p ((.loose, t) :: hand) s) (hl : s.last.isSome) :
    Meets (appendJump t) s (fun _ s' => Inv p hand s' ∧ s'.last = none) Foreseen := by
  obtain ⟨l, hl⟩ := Option.isSome_iff_exists.1 hl
  unfold appendJump
  rw [meets_bind, meets_get, hl]
  exact (h.meets_leave hl).bind fun _ s1 h1 => ⟨h1.1, rfl⟩

/-- A node in hand is a successor, as its field wants it. -/
theorem Inv.accepts (h : Inv p hand s) (ht : (.loose, t) ∈ hand) (c : NodeClass)
    (spec : FieldSpec) : ∃ ct, s.graph.cls? t = some ct ∧ c.accepts .successors spec ct :=
  (Option.any_eq_true _ _).1 (h.accounts.holds .loose t (List.mem_append_left _ ht) (by simp)).2.1

/-- A new node that leads to nodes in hand, and to nothing else. -/
theorem Inv.meets_addLeading (targets : List NodeId) {n : Node}
    (h : Inv p (targets.map ((.loose, ·)) ++ hand) s) (hv : n.op.isValueNumberable = false)
    (htargets : n.targets .successors = targets) (hfits : n.Fits s.graph.cls?)
    (hmerge : n.cls.has .merge = false) (hexit : n.cls ≠ .loopExit) (hjoint : n.joint? = none)
    (hfilled : ∀ id, n.Filled s.graph.op? id) (hnotes : ∀ id, newNotes n id = [(.loose, id)]) :
    Meets (onGraph (Graph.add n)) s
      (fun x s' => Inv p ((.loose, x) :: hand) s' ∧ Grows s s' ∧ s'.graph.cls? x = some n.cls)
      Foreseen := by
  have hnodup : targets.Nodup := by
    have := (List.nodup_append.1 (List.nodup_append.1 h.accounts.nodup).1).1
    exact this.of_map _
  refine meets_onGraph.2 ((meets_add_growing h.growing hv hfits
    (fun t => ne_forwardEnd_of_fits hfits hmerge) (fun id _ _ => hfilled id) fun t ht => ?_).mono
    (fun x g' hx => ?_) fun c hc => .inl (.inl hc))
  · rw [← Node.mem_targets, htargets] at ht
    refine ⟨h.accounts.holds _ _ (by simp [ht]) (by simp), ?_⟩
    rw [← Node.count_targets, htargets]
    exact List.count_eq_one_of_mem hnodup ht
  · have hm := hx.moves
    rw [hnotes, heldBy_eq_nil hfits hexit, List.append_nil, htargets] at hm
    have hj := hx.joints_eq hjoint
    have ha := h.accounts
    rw [List.append_assoc] at ha
    refine ⟨h.graph hx.growing hm (h.quiet hm.keepsOps (.of_eq hj)) (by simp)
      (ha.exchange _ [(.loose, x)] hm (fun _ hq _ => hq) (fun _ _ hq _ => hq) ?_ (by simp) (by simp)),
      grows_graph hm.keepsOps (.of_eq hj), cls?_of_node? hx.node⟩
    · intro q hq
      obtain rfl := List.mem_singleton.1 hq
      exact ⟨by simp, hx.node?_eq_none⟩

/-- A begin in front of a node in hand. -/
theorem Inv.meets_addBegin (h : Inv p ((.loose, t) :: hand) s) :
    Meets (onGraph (Graph.add (.begin (some t)))) s
      (fun x s' => Inv p ((.loose, x) :: hand) s' ∧ Grows s s' ∧ s'.graph.cls? x = some .begin)
      Foreseen := by
  refine h.meets_addLeading [t] rfl rfl (fun d => ?_) rfl nofun rfl
    (fun id => Node.filled_of_cls nofun nofun .nil (Node.typed_plain nofun nofun fun _ => rfl))
    fun id => rfl
  cases d with
  | inputs => exact .nil
  | successors =>
    refine .cons (Node.linkFits_one (by decide) ?_) .nil
    rintro _ ⟨⟩
    exact h.accepts (by simp) _ _

end

end SeaOfNodes.Lift
