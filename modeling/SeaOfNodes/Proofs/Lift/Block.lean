import SeaOfNodes.Lift.Method
import SeaOfNodes.Proofs.Lift.Arrivals
import SeaOfNodes.Proofs.Lift.Instruction

/-!
# Lifting a block keeps the accounts

A block is entered through its head, after which control goes on. Once it is lifted, control has left
it: at its last instruction, if the instructions of the block do not run out before. The loop of a
header is opened before its instructions.
-/

namespace SeaOfNodes.Lift

open Graph Bytecode

variable {p : Stage} {s s' : State} {hand : List (Note × NodeId)} {id : BlockId} {f : Frame}
  {x : NodeId} {c : NodeClass} {first : NodeId}

/-! ### Instructions -/

theorem meets_stateAfter? (hx : s.graph.cls? x = some c) {fail : Failure → Prop} :
    Meets (onGraph (stateAfter? x)) s (fun _ s' => s' = s) fail := by
  obtain ⟨n, hn, -⟩ := exists_node?_of_cls? hx
  rw [meets_onGraph]
  unfold stateAfter?
  rw [meets_bind, meets_node_of hn]
  split <;> rfl

theorem state_after_of_stateSplit (h : c.has .stateSplit) :
    (c.layout.fieldIndex? .inputs "state_after").isSome := by
  revert h
  cases c <;> decide

/-- The stage of a plan. -/
def Plan.stage (q : Plan) (current : Option BlockId) (opening : Bool) (lifted rest : List BlockId) :
    Stage := { q with current, opening, lifted, rest, merging := none }

theorem awaited_enter {lifted : List BlockId} (s : State) (frame : Frame) :
    awaited (id :: lifted) { s with current := some id, last := some first, frame } =
      (.gap, first) :: awaited lifted ((s.withLast none).without id) := by
  unfold awaited State.without State.withLast
  rw [List.filter_filter]
  simp only [Option.toList, List.map_cons, List.map_nil, List.nil_append, List.cons_append]
  congr 2
  refine List.filter_congr fun b _ => ?_
  simp only [List.mem_cons, not_or, Bool.decide_and, ne_eq]
  rw [Bool.and_comm]

/-- Where blocks are entered is as before. -/
structure SameWays (s s' : State) : Prop where
  arrivals : s'.arrivals = s.arrivals
  returnBlock : s'.returnBlock = s.returnBlock
  unwindBlock : s'.unwindBlock = s.unwindBlock

/-- Mark the line of an instruction if infopoints are asked for. -/
def markLineAsked (bci : Nat) : LiftM Unit := do
  if (← get).options.eagerInfopoints then markLine bci

/-- What comes after the instruction `c` of a block, if control goes on. -/
def goOn (id : BlockId) (stop : Int) (c : Cursor) (rest : List Cursor) : LiftM Unit := do
  let some last := (← get).last | return
  if stop < c.next then
    clearAfter id
    completeState last c.next
    fallThrough
  else
    completeState last c.next
    instructions id stop rest

theorem meets_instructions_cons {c : Cursor} {stop : Int} {rest : List Cursor}
    {post : Unit → State → Prop} {fail : Failure → Prop} :
    Meets (instructions id stop (c :: rest)) s post fail ↔
      Meets (markLineAsked c.bci) s (fun _ s1 => Meets (instruction c) s1
        (fun _ s2 => Meets (goOn id stop c rest) s2 post fail) fail) fail := by
  unfold instructions markLineAsked
  simp only [meets_bind, meets_get]
  split
  · rw [meets_bind]
    simp only [meets_bind]
    rfl
  · simp only [meets_bind]
    rfl

section

variable [Source] {forwardEnd : NodeId} {entry : Frame}

theorem Inv.withLine (h : Inv p hand s) (line : Option Int32) : Inv p hand { s with line } :=
  { h with tidy := fun hc => ⟨(h.tidy hc).arrivals, (h.tidy hc).entered, (h.tidy hc).vacant⟩ }

/-- A line marker, if one is due. -/
theorem Inv.meets_markLine (h : Inv p hand s) (hl : s.last.isSome) (bci : Nat) :
    Meets (markLine bci) s (fun _ s' => Inv p hand s' ∧ s'.last.isSome) Foreseen := by
  unfold markLine
  refine meets_read.2 ?_
  split
  · rename_i line _
    split
    · refine meets_change.2 ?_
      refine ((h.withLine (some line)).meets_append rfl (fun _ => rfl)
        (.ones [none] rfl (.noState .nil)) hl).bind fun x s1 h1 => ?_
      obtain ⟨h1, -, hx, hlast⟩ := h1
      refine meets_read.2 ((h1.meets_setState (cls?_of_op? hx) (by rintro ⟨⟩) rfl h1.frame bci).imp
        fun _ s2 h2 => ?_)
      refine ⟨h2.1, ?_⟩
      rw [h2.2.1.later.last, hlast]
      rfl
    · exact ⟨h, hl⟩
  · exact ⟨h, hl⟩

/-- The last node gets the state after it. -/
theorem Inv.meets_completeState (h : Inv p hand s) (hx : s.graph.cls? x = some c)
    (hne : c ≠ .loopExit) (bci : Nat) :
    Meets (completeState x bci) s (fun _ s' => Inv p hand s' ∧ Later s s') Foreseen := by
  unfold completeState
  refine meets_bind.2 ((meets_classOf hx).2 ?_)
  split
  · rename_i hc
    refine (meets_stateAfter? hx).bind ?_
    rintro state s rfl
    split
    · exact meets_read.2 ((h.meets_setState hx hne (state_after_of_stateSplit hc) h.frame
        bci).imp fun _ s1 h1 => ⟨h1.1, h1.2.1.later⟩)
    · exact ⟨h, .refl s⟩
  · exact ⟨h, .refl s⟩

theorem Inv.meets_clearAfter (h : Inv p hand s) (id : BlockId) :
    Meets (clearAfter id) s (fun _ s' => Inv p hand s' ∧ Later s s') Foreseen := by
  unfold clearAfter
  refine meets_read.2 ?_
  split
  · exact ⟨h.withFrame (h.frame.clearDead _), .refl _, fun _ h => h, rfl⟩
  · exact ⟨h, .refl s⟩

/-- The instructions of a block. Control has left the block in the end, unless they run out. -/
theorem Inv.meets_instructions (hp : p.Ready) (stop : Int) (cursors : List Cursor)
    (hrun : p.exact → ∃ c ∈ cursors, stop < c.next) (h : Inv p hand s) (hl : s.last.isSome) :
    Meets (instructions id stop cursors) s
      (fun _ s' => Inv p hand s' ∧ (p.exact → s'.last = none)) Foreseen := by
  induction cursors generalizing s with
  | nil => exact ⟨h, fun he => by simpa using hrun he⟩
  | cons c rest ih =>
    have hmark : Meets (markLineAsked c.bci) s (fun _ s' => Inv p hand s' ∧ s'.last.isSome) Foreseen := by
      unfold markLineAsked
      refine meets_read.2 ?_
      split
      · exact h.meets_markLine hl c.bci
      · exact ⟨h, hl⟩
    refine meets_instructions_cons.2 (hmark.imp fun _ s hs => ?_)
    refine (hs.1.meets_instruction hp hs.2 c).imp fun _ s1 h1 => meets_read.2 ?_
    split
    swap
    · rename_i hlast
      exact ⟨h1, fun _ => Option.eq_none_iff_forall_ne_some.2 hlast⟩
    rename_i last hlast
    obtain ⟨cls, hcls, -, hne⟩ := h1.last last hlast
    split
    · refine (h1.meets_clearAfter id).bind fun _ s2 h2 => ?_
      obtain ⟨h2, hs2⟩ := h2
      refine (h2.meets_completeState (hs2.ops _ _ hcls) hne c.next).bind fun _ s3 h3 => ?_
      obtain ⟨h3, hs3⟩ := h3
      refine (h3.meets_successor hp 0).bind ?_
      rintro t s3 ⟨rfl, ht⟩
      refine (h3.meets_jumpTo hp ht ?_).imp fun _ s4 h4 => ⟨h4.1, fun _ => h4.2⟩
      rw [hs3.last, hs2.last, hlast]
      rfl
    · rename_i hstop
      refine (h1.meets_completeState hcls hne c.next).bind fun _ s2 h2 => ?_
      obtain ⟨h2, hs2⟩ := h2
      refine ih (fun he => ?_) h2 (by rw [hs2.last, hlast]; rfl)
      obtain ⟨c', hc', hlt⟩ := hrun he
      rcases List.mem_cons.1 hc' with rfl | hc'
      · exact absurd hlt hstop
      · exact ⟨c', hc', hlt⟩

/-! ### Loops -/

/-- A loop that is new, and entered through one end, has no phis and no ends that lead back. -/
theorem Inv.not_isPhi_loop (h : Inv p hand s) {g' : Graph} (hnew : s.graph.node? x = none)
    (hj : g'.joint? =
      Function.update s.graph.joint? x (some ⟨.loopBegin, [some forwardEnd], []⟩)) (y : NodeId)
    (vs : List (Option NodeId)) : ¬ IsPhi g'.joint? x y vs := by
  rw [hj]
  refine mt (isPhi_update_iff (by nofun) (by simp [joint?_eq_none_of_fresh hnew])).1 ?_
  exact h.growing.sound.consistent.not_isPhi hnew

theorem Inv.sides_loop (h : Inv p hand s) {g' : Graph} (hnew : s.graph.node? x = none)
    (hj : g'.joint? =
      Function.update s.graph.joint? x (some ⟨.loopBegin, [some forwardEnd], []⟩)) :
    Sides g'.joint? x 1 := by
  refine .loop [some forwardEnd] [] (by rw [hj, Function.update_self]) ⟨.nil, fun y index hy => ?_, nofun⟩
  rw [IsLoopEnd, hj] at hy
  rcases joint_of_update hy with ⟨-, hj⟩ | ⟨-, hy⟩
  · cases hj
  · obtain ⟨n, hn⟩ := exists_node?_of_isAlive
      (h.growing.sound.consistent.isAlive_first hy (List.mem_singleton_self _))
    rw [hnew] at hn
    cases hn

/-- The stage at which the loop of the current block, if it has one, is open. -/
def Stage.opened (p : Stage) : Stage := { p with opening := false }

/-- The loop of the current block is open if it has one. -/
theorem Inv.opened (h : Inv p hand s)
    (hopen : p.clean → ∀ id a, p.current = some id → (id, a) ∈ s.arrivals →
      (s.map.block id).isLoopHeader → s.graph.cls? a.first = some .loopBegin) :
    Inv p.opened hand s :=
  { h with
    tidy := fun hclean =>
      { arrivals := fun id a hmem => by
          have ht := (h.tidy hclean).arrivals id a hmem
          refine ⟨fun hl hh _ => ?_, ht.inside, ht.waiting⟩
          by_cases hid : p.current = some id
          · exact hopen hclean id a hid hmem hh
          · exact ht.opened hl hh fun _ => hid
        entered := (h.tidy hclean).entered
        vacant := (h.tidy hclean).vacant } }

/-- Control goes on through an end into a new loop. -/
theorem meets_newLoop {exact : Bool} (clean : Bool) {g : Graph} {owed : List (Note × NodeId)} {l : NodeId}
    (hg : g.Growing) (hl : g.cls? l = some c) (hgo : goesOn c)
    (ha : Accounts exact g ((.gap, l) :: owed)) :
    Meets (do
        let forwardEnd ← Graph.add .forwardEnd
        let loopBegin ← Graph.add .loopBegin
        Graph.setNext l (some forwardEnd)
        Graph.addForwardEnd loopBegin forwardEnd
        return loopBegin) g
      (fun x g' => g'.Growing ∧ Steady clean g g' ∧ KeepsAlive g g' ∧ g'.cls? x = some .loopBegin ∧
        Accounts exact g' ((.gap, x) :: owed) ∧ g.node? x = none ∧ ∃ forwardEnd, g'.joint? =
          Function.update g.joint? x (some ⟨.loopBegin, [some forwardEnd], []⟩)) IsStale := by
  have hend : Supplied g .forwardEnd [] := .ones [] rfl .nil
  refine (meets_addNoted clean hg hend rfl nofun (fun _ => rfl) ha).bind fun e g1 h1 => ?_
  obtain ⟨h1, hst1, ha1⟩ := h1
  refine (meets_addNoted clean h1.growing (supplied_merge (.inr rfl)) rfl (fun _ => rfl) (fun _ => rfl) ha1).bind
    fun x g2 h2 => ?_
  obtain ⟨h2, hst2, ha2⟩ := h2
  have hx := cls?_of_node? h2.node
  -- in hand are the end, to which control goes on now, and the head of the loop
  replace ha2 : Accounts exact g2 ((.gap, l) :: (.loose, e) :: (.unlisted, e) :: (.gap, x) :: owed) := by
    have hperm : ((Note.gap, x) :: ([(.loose, e), (.unlisted, e)] ++ owed)).Perm
        ([(.loose, e), (.unlisted, e)] ++ (.gap, x) :: owed) := List.perm_middle.symm
    rw [← List.append_assoc] at ha2
    exact ha2.perm (List.perm_middle.trans (hperm.cons _))
  have hl2 := hst2.ops _ _ (hst1.ops _ _ hl)
  refine meets_bind.2 ((meets_setNext_growing h2.growing hl2 (h2.growing.isAlive hl2 (mayGo_of_goesOn hgo))
    hgo (ha2.holds _ _ (by simp) nofun)).mono (fun _ g3 h3 => ?_) fun _ => False.elim)
  obtain ⟨hg3, hal3, old, hm3, hold, hj3⟩ := h3
  have ha3 := ha2.link hm3 hold
  refine meets_bind.2 ((meets_addForwardEnd_growing hg3 (hm3.keepsOps _ _ hx) (.inr rfl)
    (ha3.holds _ _ (by simp) nofun)).mono (fun _ g4 h4 => ?_) fun _ => False.elim)
  obtain ⟨hg4, hal4, hm4, op, ends, hself, -, hj4⟩ := h4
  have hst : Steady clean g g4 :=
    (hst1.trans hst2).trans ((steady_of_moves hm3 (by simp)).trans (steady_of_moves hm4 (by simp)))
  refine ⟨hg4, hst, ((h1.keepsAlive.trans h2.keepsAlive).trans hal3).trans hal4,
    hm4.keepsOps _ _ (hm3.keepsOps _ _ hx), ha3.settle [(.unlisted, e)] hm4,
    hst1.ops.node?_eq_none h2.node?_eq_none, e, ?_⟩
  rw [hj3, h2.joints, Function.update_self] at hself
  cases hself
  rw [hj4, hj3, h2.joints, Function.update_idem, h1.joints_eq rfl]
  rfl

/-- The head of the current block becomes the head of its loop. -/
theorem Inv.arrive_loop (h : Inv p hand s) (hid : p.current = some id) (hlifted : id ∈ p.lifted)
    {a : Arrival} (hmem : (id, a) ∈ s.arrivals) (hx : s.graph.cls? x = some .loopBegin)
    (hf : f.Fits s.graph) (hw : Woven p.clean s.graph (s.arrive id ⟨x, some f⟩).arrivals) :
    Inv p.opened hand (s.arrive id ⟨x, some f⟩) := by
  have harrive : Inv p hand (s.arrive id ⟨x, some f⟩) := by
    refine h.arrive h.growing (.refl ..) ⟨⟨_, hx, rfl⟩, by rintro _ ⟨⟩; exact hf⟩ (fun _ => rfl) ?_
      (fun hclean => ?_) hw
    · rw [awaited_arrive_of_mem hlifted, awaited_without hlifted]
      exact h.accounts
    · have ht := (h.tidy hclean).arrivals id a hmem
      exact ⟨fun _ _ _ => hx, ht.inside, ht.waiting⟩
  refine harrive.opened fun _ j b hj hb _ => ?_
  obtain rfl : id = j := Option.mem_unique hid hj
  rcases mem_arrive.1 hb with ⟨-, rfl⟩ | ⟨-, hne⟩
  · exact hx
  · exact absurd rfl hne

/-- Control goes on to the head of a loop. -/
theorem Inv.meets_addLoop (h : Inv p hand s) {l : NodeId} (hl : s.last = some l) :
    Meets (onGraph do
        let forwardEnd ← Graph.add .forwardEnd
        let loopBegin ← Graph.add .loopBegin
        Graph.setNext l (some forwardEnd)
        Graph.addForwardEnd loopBegin forwardEnd
        return loopBegin) s
      (fun x s' => Inv p hand (s'.withLast (some x)) ∧ Alters s s' ∧ KeepsAlive s.graph s'.graph ∧
        s'.graph.cls? x = some .loopBegin ∧ s.graph.node? x = none ∧ ∃ forwardEnd, s'.graph.joint? =
          Function.update s.graph.joint? x (some ⟨.loopBegin, [some forwardEnd], []⟩)) Foreseen := by
  obtain ⟨c, hc, hgo, -⟩ := h.last l hl
  refine meets_onGraph.2 ((meets_newLoop p.clean h.growing hc hgo (h.takeLast hl)).mono (fun x g' h1 => ?_)
    fun c hc => .inl (.inl hc))
  obtain ⟨hg, hst, hal, hx, ha', hnew, e, hj⟩ := h1
  have hw := h.woven.newLoop h.arrivals hst.ops (joint?_eq_none_of_fresh hnew) hj
  refine ⟨h.change hg hst hw ?_ (ha'.perm List.perm_middle.symm), ⟨hst.ops, rfl⟩, hal, hx, hnew, e, hj⟩
  rintro _ ⟨⟩
  exact ⟨_, hx, rfl, nofun⟩

/-- The loop of a header is opened, with a phi for every slot. -/
theorem Inv.meets_openLoop (h : Inv p hand s) (hid : p.current = some id) (hlifted : id ∈ p.lifted)
    (hmem : (id, ⟨first, some entry⟩) ∈ s.arrivals)
    (hl : s.last.isSome) (hf : s.frame.Fresh s.graph) (bci : Int) :
    Meets (openLoop id bci) s (fun _ s' => Inv p.opened hand s' ∧ s'.last.isSome) Foreseen := by
  obtain ⟨l, hl⟩ := Option.isSome_iff_exists.1 hl
  unfold openLoop
  refine meets_read.2 ?_
  rw [hl]
  refine (h.meets_addLoop hl).bind fun x s1 h1 => ?_
  obtain ⟨h1, hs1, ha1, hx, hnew, e, hj⟩ := h1
  refine meets_change.2 (meets_read.2 ?_)
  have hframe : s1.frame = s.frame := by rw [hs1.eq]
  have hfresh : s1.frame.Fresh s1.graph := by
    rw [hframe]
    exact hf.mono hs1.ops ha1
  -- blocks are entered through nodes that were there before the loop
  have hfirst (j : BlockId) (b : Arrival) (hb : (j, b) ∈ s1.arrivals) : b.first ≠ x :=
    (h.arrivals j b (hs1.mem_arrivals.1 hb)).first_ne hnew
  refine meets_bind.2 (meets_onGraph.2 ((Frame.meets_insertLoopPhis h1.growing hx hfresh
    (h.not_isPhi_loop hnew hj)).mono (fun f g2 h2 => ?_) fun c hc => .inl (.inl hc)))
  obtain ⟨hm, hf2, hheads, hlen⟩ := h2
  have hk2 := hm.grown.2.keepsOps
  have hsides (y : NodeId) (vs : List (Option NodeId)) (hy : IsPhi g2.joint? x y vs) :
      Sides g2.joint? x vs.length := by
    rw [hlen y vs hy]
    exact (h.sides_loop hnew hj).anchored hm.splices.anchored
  have hw2 : Woven p.clean g2 s1.arrivals := h1.woven.merges h1.arrivals hm
    (fun j f hb => hfirst j _ hb rfl) fun y vs hy _ => hsides y vs hy
  refine meets_change.2 ?_
  refine (((h1.extend hm.grown hw2).withFrame hf2).meets_setState (hk2 _ _ hx) nofun rfl hf2 bci).bind
    fun _ s3 h3 => ?_
  obtain ⟨h3, hs3, -⟩ := h3
  have hmem3 := hs3.mem_arrivals.2 (hs1.mem_arrivals.2 hmem)
  have hawaits : Awaits s3.graph x f :=
    Awaits.graft ⟨hheads, hsides⟩ hs3.ops hs3.grafts ⟨_, hk2 _ _ hx⟩ hf2
  refine meets_modify.2 ⟨h3.arrive_loop hid hlifted hmem3 (hs3.ops _ _ (hk2 _ _ hx))
    (hf2.mono hs3.ops) (h3.woven.arrive (fun j b hb _ => hfirst j b (hs3.mem_arrivals.1 hb))
      (by rintro _ ⟨⟩; exact hawaits.heads) fun m _ _ _ hbusy => ?_), ?_⟩
  · -- the frame at the head of the block is not taken
    cases h3.arrival_unique hmem3 hbusy
  · show s3.last.isSome
    rw [hs3.later.last]
    rfl

/-! ### Blocks -/

/-- A block of instructions. -/
theorem Inv.meets_bytecodes {b : Block} (h : Inv p hand s) (hp : p.opened.Ready)
    (hid : p.current = some id) (hlifted : id ∈ p.lifted)
    (hmem : (id, ⟨first, some entry⟩) ∈ s.arrivals) (hl : s.last.isSome) (hf : s.frame.Fresh s.graph)
    (hb : b.isLoopHeader = (s.map.block id).isLoopHeader)
    (hrun : p.exact → ∃ c ∈ Cursor.walkFrom p.code b.start.toNat, b.stop < c.next) :
    Meets (bytecodes id b) s
      (fun _ s' => Inv p.opened hand s' ∧ (p.exact → s'.last = none)) Foreseen := by
  have hgo {s : State} (h : Inv p.opened hand s) (hl : s.last.isSome) :
      Meets (do instructions id b.stop (Cursor.walkFrom (← get).method.code b.start.toNat)) s
        (fun _ s' => Inv p.opened hand s' ∧ (p.exact = true → s'.last = none)) Foreseen := by
    refine meets_read.2 ?_
    rw [h.code]
    exact Inv.meets_instructions hp b.stop _ hrun h hl
  have hfresh : { s.frame with rethrow := false }.Fresh s.graph :=
    ⟨⟨hf.fits.locals, hf.fits.stack, hf.fits.size⟩, hf.alive⟩
  have h1 : Inv p hand { s with frame := { s.frame with rethrow := false } } :=
    h.withFrame hfresh.fits
  unfold bytecodes
  refine meets_change.2 ?_
  cases hheader : b.isLoopHeader with
  | true =>
    refine (h1.meets_openLoop hid hlifted hmem hl hfresh b.start).bind fun _ s2 h2 => ?_
    exact hgo h2.1 h2.2
  | false =>
    refine hgo (h1.opened fun _ j _ hj _ hh => ?_) hl
    obtain rfl : id = j := Option.mem_unique hid hj
    rw [← hb, hheader] at hh
    cases hh

section

variable {q : Plan} {current : Option BlockId} {lifted rest rest' : List BlockId} {first : NodeId}

/-- A block is entered. -/
theorem Inv.enter (h : Inv (q.stage current false lifted rest) [] (s.withLast none))
    (hmem : (id, ⟨first, some f⟩) ∈ s.arrivals) (hid : id ∉ lifted)
    (hrest : ∀ j ∈ rest, j = id ∨ j ∈ rest') :
    Inv (q.stage (some id) true (id :: lifted) rest') []
      { s with current := some id, last := some first, frame := f.dropDeleted s.graph } where
  method := h.method
  growing := h.growing
  frame := (Frame.fresh_dropDeleted ((h.arrivals id _ hmem).frame f rfl)).fits
  arrivals := h.arrivals
  keys := h.keys
  settled := h.settled
  last l hl := by
    cases hl
    obtain ⟨c, hc, hhead⟩ := (h.arrivals id _ hmem).first
    exact ⟨c, hc, goesOn_of_isHead hhead, by rintro rfl; cases hhead⟩
  map := h.map
  current := rfl
  code := h.code
  accounts := by
    have ha := h.accounts.perm (h.awaited_perm hmem hid)
    rw [← awaited_enter] at ha
    exact ha
  tidy hclean :=
    { arrivals := fun j b hb => by
        have ht := (h.tidy hclean).arrivals j b hb
        refine ⟨fun hl hh ho => ?_, fun l hl => ?_, ?_⟩
        · rcases List.mem_cons.1 hl with rfl | hl
          · exact absurd rfl (ho rfl)
          · exact ht.opened hl hh nofun
        · obtain ⟨i, hi, hmem⟩ := ht.inside l hl
          exact ⟨i, hi, hmem.imp_right (List.mem_cons_of_mem _)⟩
        · rcases ht.waiting with hl | hr | hleaves
          · exact .inl (List.mem_cons_of_mem _ hl)
          · rcases hrest j hr with rfl | hr
            · exact .inl (List.mem_cons_self ..)
            · exact .inr (.inl hr)
          · exact .inr (.inr hleaves)
      entered := fun j hj => by
        rcases List.mem_cons.1 hj with rfl | hj
        · exact ⟨_, hmem⟩
        · exact (h.tidy hclean).entered j hj
      vacant := (h.tidy hclean).vacant }
  woven := h.woven

/-- The state of a merge at the head of a block. -/
theorem Inv.meets_headState (h : Inv p hand s) {a : Arrival} (hmem : (id, a) ∈ s.arrivals)
    (hf : s.frame.Fresh s.graph) (b : Block) {act : LiftM Unit} {post : Unit → State → Prop}
    (hact : ∀ s', Inv p hand s' → Grows s s' → s'.frame.Fresh s'.graph → Meets act s' post Foreseen) :
    Meets (do
        if (← classOf a.first) = .merge then setState a.first (← get).frame b.stateBci
        act) s post Foreseen := by
  obtain ⟨c, hc, -⟩ := (h.arrivals id a hmem).first
  refine meets_bind.2 ((meets_classOf hc).2 ?_)
  split
  · rename_i hmerge
    refine meets_read.2 ((h.meets_setState hc (by rw [hmerge]; decide) (by rw [hmerge]; rfl)
      hf.fits _).bind fun _ s1 h1 => ?_)
    obtain ⟨h1, hs1, ha1⟩ := h1
    refine hact s1 h1 hs1 ?_
    have : s1.frame = s.frame := by rw [hs1.eq]
    rw [this]
    exact hf.mono hs1.ops ha1
  · exact hact s h (.refl s) hf

/-- Where all returns meet. -/
theorem Inv.meets_returns (h : Inv p hand s) (hl : s.last.isSome) :
    Meets (do
        let kind := (← get).method.result
        let result ← if kind = .void then pure none else pure (some (← pop kind))
        let _ ← append (.methodReturn result)) s
      (fun _ s' => Inv p hand s' ∧ s'.last = none) Foreseen := by
  have hreturn {result : Option NodeId} {s1 : State} (h1 : Inv p hand s1) (hl1 : s1.last.isSome)
      (hv : ∀ x, result = some x → s1.graph.HasKind x Source.method.result.onStack) :
      Meets (do let _ ← append (.methodReturn result)) s1
        (fun _ s' => Inv p hand s' ∧ s'.last = none) Foreseen :=
    (h1.meets_append rfl (fun _ => rfl) (.ones [result] rfl (.maybe hv rfl .nil)) hl1).bind
      fun _ s2 h2 => ⟨h2.1, h2.2.2.2⟩
  refine meets_read.2 ?_
  dsimp only
  split
  · exact hreturn h hl nofun
  · refine (h.meets_pop _).bind fun x s1 h1 => ?_
    obtain ⟨h1, hs1, hv⟩ := h1
    rw [h.method] at hv
    exact hreturn h1 (by rw [hs1.last]; exact hl) (by rintro _ ⟨⟩; exact hv)

/-- Where exceptions leave the method. -/
theorem Inv.meets_unwinds (h : Inv p hand s) (hl : s.last.isSome) :
    Meets (do
        let exception ← pop .object
        let _ ← append (.unwind exception)) s
      (fun _ s' => Inv p hand s' ∧ s'.last = none) Foreseen := by
  refine (h.meets_pop _).bind fun x s1 h1 => ?_
  obtain ⟨h1, hs1, hv⟩ := h1
  exact (h1.meets_append rfl (fun _ => rfl) (.ones [x] rfl (.value hv rfl .nil))
    (by rw [hs1.last]; exact hl)).bind fun _ s2 h2 => ⟨h2.1, h2.2.2.2⟩

/-- The method is left through a block of this kind. -/
def isLeaving : BlockKind → Bool
  | .methodReturn | .unwind _ => true
  | .bytecodes | .dispatch .. => false

/-- A block that is entered for the first time. -/
theorem Inv.meets_enteredBlock (h : Inv (q.stage current false lifted rest) [] (s.withLast none))
    (hmem : (id, ⟨first, some f⟩) ∈ s.arrivals) (hid : id ∉ lifted)
    (hrest : ∀ j ∈ rest, j = id ∨ j ∈ rest')
    (hready : isLeaving (s.map.block id).kind = false →
      (q.stage (some id) false (id :: lifted) rest').Ready)
    (hplain : q.clean → (s.map.block id).kind ≠ .bytecodes →
      (s.map.block id).isLoopHeader = false)
    (hrun : q.exact → (s.map.block id).kind = .bytecodes →
      ∃ c ∈ Cursor.walkFrom q.code (s.map.block id).start.toNat, (s.map.block id).stop < c.next) :
    Meets (enteredBlock id first f) s
      (fun _ s' => Inv (q.stage (some id) false (id :: lifted) rest') [] s' ∧
        (q.exact → s'.last = none) ∧
        (isLeaving (s.map.block id).kind → SameWays s s')) Foreseen := by
  have h1 := h.enter hmem hid hrest
  have hfresh : (f.dropDeleted s.graph).Fresh s.graph :=
    Frame.fresh_dropDeleted ((h.arrivals id _ hmem).frame f rfl)
  unfold enteredBlock
  refine meets_change.2 (meets_observe.2 ?_)
  refine h1.meets_headState (a := ⟨first, some f⟩) hmem hfresh _ fun s2 h2 hs2 hfresh2 => ?_
  have hblock : s2.map.block id = s.map.block id := by rw [hs2.eq]
  have hl : s2.last.isSome := by rw [hs2.later.last]; rfl
  have hways {s3 : State} (hs3 : SameFlow s2 s3) : SameWays s s3 := by
    refine ⟨hs3.arrivals.trans ?_, hs3.returnBlock.trans ?_, hs3.unwindBlock.trans ?_⟩ <;> rw [hs2.eq]
  have hopened (hkind : (s.map.block id).kind ≠ .bytecodes) :
      Inv (q.stage (some id) false (id :: lifted) rest') [] s2 := by
    refine h2.opened fun hclean j _ hj _ hh => ?_
    obtain rfl : id = j := Option.some.inj hj
    rw [hblock, hplain hclean hkind] at hh
    cases hh
  cases hkind : (s.map.block id).kind with
  | methodReturn =>
    rw [hkind] at hopened
    exact (((hopened nofun).meets_returns hl).and (carried SameFlow s2)).mono
      (fun _ s3 h3 => ⟨h3.1.1, fun _ => h3.1.2, fun _ => hways h3.2⟩) fun _ he => he.1
  | unwind bci =>
    rw [hkind] at hopened
    exact (((hopened nofun).meets_unwinds hl).and (carried SameFlow s2)).mono
      (fun _ s3 h3 => ⟨h3.1.1, fun _ => h3.1.2, fun _ => hways h3.2⟩) fun _ he => he.1
  | dispatch handler bci =>
    rw [hkind] at hopened hready
    exact ((hopened nofun).meets_dispatch (hready rfl) h2.current hl handler bci).imp
      fun _ s3 h3 => ⟨h3.1, fun _ => h3.2, nofun⟩
  | bytecodes =>
    rw [hkind] at hready
    have hmem2 := hs2.mem_arrivals.2 hmem
    exact (h2.meets_bytecodes (hready rfl) rfl (List.mem_cons_self ..) hmem2 hl hfresh2
      (by rw [hblock]) fun he => hrun he hkind).imp fun _ s3 h3 => ⟨h3.1, h3.2, nofun⟩

/-- After a block, the last node is forgotten if control has not left it. -/
theorem Inv.pause (h : Inv p hand s) (hl : p.exact → s.last = none) :
    Inv p hand (s.withLast none) := by
  refine h.change h.growing (.refl ..) h.woven nofun ?_
  cases hlast : s.last with
  | none =>
    have : s.withLast none = s := by rw [← hlast]; rfl
    rw [this]
    exact h.accounts
  | some l =>
    refine (h.takeLast hlast).drop fun he => ?_
    rw [hl he] at hlast
    cases hlast

/-- A block to which nothing leads is passed over. -/
theorem Inv.skip (h : Inv (q.stage current false lifted rest) hand s)
    (hid : ∀ a, (id, a) ∉ s.arrivals) (hrest : ∀ j ∈ rest, j = id ∨ j ∈ rest') :
    Inv (q.stage current false lifted rest') hand s :=
  { h with
    tidy := fun hclean =>
      { arrivals := fun j a hmem => by
          have ht := (h.tidy hclean).arrivals j a hmem
          refine ⟨ht.opened, ht.inside, ht.waiting.imp_right (.imp_left fun hj => ?_)⟩
          rcases hrest j hj with rfl | hj
          · exact absurd hmem (hid a)
          · exact hj
        entered := (h.tidy hclean).entered
        vacant := (h.tidy hclean).vacant } }

/-- A block, if anything leads there. -/
theorem Inv.meets_liftBlock (h : Inv (q.stage current false lifted rest) [] (s.withLast none))
    (hid : id ∉ lifted) (hrest : ∀ j ∈ rest, j = id ∨ j ∈ rest')
    (hready : isLeaving (s.map.block id).kind = false →
      (q.stage (some id) false (id :: lifted) rest').Ready)
    (hplain : q.clean → (s.map.block id).kind ≠ .bytecodes →
      (s.map.block id).isLoopHeader = false)
    (hrun : q.exact → (s.map.block id).kind = .bytecodes →
      ∃ c ∈ Cursor.walkFrom q.code (s.map.block id).start.toNat, (s.map.block id).stop < c.next) :
    Meets (liftBlock id) s
      (fun _ s' => ∃ current' lifted', Inv (q.stage current' false lifted' rest') [] (s'.withLast none) ∧
        (lifted' = id :: lifted ∨ lifted' = lifted ∧ ∀ a, (id, a) ∉ s'.arrivals) ∧
        (isLeaving (s.map.block id).kind → SameWays s s')) Foreseen := by
  unfold liftBlock arrival?
  refine meets_observe.2 ?_
  split
  · rename_i first f harr
    have hmem := (lookup_eq_some_iff_mem h.keys).1 harr
    exact (h.meets_enteredBlock hmem hid hrest hready hplain hrun).imp fun _ s' h' =>
      ⟨some id, id :: lifted, h'.1.pause h'.2.1, .inl rfl, h'.2.2⟩
  · rename_i hnone
    have hno (a : Arrival) : (id, a) ∉ s.arrivals := fun hmem => by
      obtain ⟨f, hf⟩ := Option.isSome_iff_exists.1 (h.settled id a hmem (by rintro ⟨⟩))
      refine hnone a.first f (((lookup_eq_some_iff_mem h.keys).2 hmem).trans ?_)
      rw [← hf]
    exact ⟨current, lifted, h.skip hno hrest, .inr ⟨rfl, hno⟩, fun _ => ⟨rfl, rfl, rfl⟩⟩

end

end

end SeaOfNodes.Lift
