import SeaOfNodes.Lift.Exception
import SeaOfNodes.Proofs.Lift.Target

/-!
# Exceptions keep the accounts

An exception is entered through a node of its own, which leads to a successor of the current block or
to the block where exceptions leave the method. A node that may raise one has an edge to such an
entry or none at all; either way it is finished.
-/

namespace SeaOfNodes.Lift

open Graph

variable {p : Stage} {s s' : State} {hand : List (Note × NodeId)} {id : BlockId} {f : Frame} {x t : NodeId}
  {c : NodeClass} {map : BlockMap} {slot : Slot} {b : BlockId} {u r : Option BlockId}

/-! ### Blocks where the method is left -/

theorem block_addBlock (map : BlockMap) (b : Block) (id : BlockId) :
    (map.addBlock b).block id = if id = map.blocks.next then b else map.block id :=
  Blocks.block_push

/-- A block that is left through was added. -/
theorem ne_next_of_kind (h : (map.block id).kind ≠ .bytecodes) :
    id ≠ map.blocks.next := by
  rintro rfl
  have hle : map.blocks.size ≤ map.blocks.next.index := Nat.le_refl _
  refine h ?_
  rw [BlockMap.block, Blocks.block_of_le hle]
  rfl

/-- The map with a new block where the method is left. -/
theorem MapOk.addBlock {base : BlockMap} {r' u' : Option BlockId} (h : MapOk base map r u)
    {b : Block} (hl : b.loops = 0) (hh : b.isLoopHeader = false)
    (hr : ∀ id, r' = some id → r = some id ∨ id = map.blocks.next ∧ b.kind = .methodReturn)
    (hu : ∀ id, u' = some id → u = some id ∨ id = map.blocks.next ∧ ∃ bci, b.kind = .unwind bci) :
    MapOk base (map.addBlock b) r' u' where
  size := by
    have := h.size
    simp only [BlockMap.addBlock, Arena.push, Arena.size, Array.size_push] at this ⊢
    omega
  block id hid := by
    rw [block_addBlock, if_neg ?_, h.block id hid]
    rintro rfl
    have := h.size
    simp only [Arena.next, Arena.size] at hid this
    omega
  headers := h.headers
  leaves id hid := by
    by_cases hnew : id = map.blocks.next
    · rw [block_addBlock, if_pos hnew]
      refine ⟨?_, hl, hh⟩
      rw [hnew]
      exact h.size
    · rw [block_addBlock, if_neg hnew]
      refine h.leaves id (hid.imp (fun hid => ?_) fun hid => ?_)
      · exact (hr id hid).resolve_right fun hid => hnew hid.1
      · exact (hu id hid).resolve_right fun hid => hnew hid.1
  returns id hid := by
    rw [block_addBlock]
    rcases hr id hid with hid | ⟨rfl, hkind⟩
    · have hkind := h.returns id hid
      rwa [if_neg (ne_next_of_kind (by rw [hkind]; rintro ⟨⟩))]
    · rwa [if_pos rfl]
  unwinds id hid := by
    rw [block_addBlock]
    rcases hu id hid with hid | ⟨rfl, hkind⟩
    · obtain ⟨bci, hkind⟩ := h.unwinds id hid
      exact ⟨bci, by rwa [if_neg (ne_next_of_kind (by rw [hkind]; rintro ⟨⟩))]⟩
    · rwa [if_pos rfl]

/-- A block where the method is left is there, or it is added to the map. -/
inductive Opens (base : BlockMap) (s : State) (id : BlockId) : State → Prop
  | known (h : s.Leaves id) : Opens base s id s
  | new {b : Block} {r u : Option BlockId} (hl : b.loops = 0) (hh : b.isLoopHeader = false)
    (hm : MapOk base (s.map.addBlock b) r u) (hleaves : ∀ id, s.Leaves id → r = some id ∨ u = some id)
    (hid : r = some id ∨ u = some id) :
    Opens base s id { s with map := s.map.addBlock b, returnBlock := r, unwindBlock := u }

section

variable {base : BlockMap} {fail : Failure → Prop} (h : MapOk base s.map s.returnBlock s.unwindBlock)

include h

theorem meets_returnBlock (bci : Nat) : Meets (returnBlock bci) s (Opens base s) fail := by
  unfold returnBlock
  refine meets_read.2 ?_
  split
  · exact .known (.inl ‹_›)
  · rename_i hnone
    refine meets_bind.2 (meets_modifyGet.2 (meets_change.2 (meets_pure.2 (.new rfl rfl
      (h.addBlock rfl rfl ?_ fun _ hid => .inl hid) (fun id hid => ?_) (.inl rfl)))))
    · rintro _ ⟨⟩
      exact .inr ⟨rfl, rfl⟩
    · exact .inr (hid.resolve_left (by simp [hnone]))

theorem meets_unwindBlock (bci : Nat) : Meets (unwindBlock bci) s (Opens base s) fail := by
  unfold unwindBlock
  refine meets_read.2 ?_
  split
  · exact .known (.inr ‹_›)
  · rename_i hnone
    refine meets_bind.2 (meets_modifyGet.2 (meets_change.2 (meets_pure.2 (.new rfl rfl
      (h.addBlock rfl rfl (fun _ hid => .inl hid) ?_) (fun id hid => ?_) (.inr rfl)))))
    · rintro _ ⟨⟩
      exact .inr ⟨rfl, bci, rfl⟩
    · exact .inl (hid.resolve_right (by simp [hnone]))

omit h in
theorem meets_current :
    Meets current s (fun b s' => s' = s ∧ s.current = some b) Foreseen := by
  unfold current
  refine meets_read.2 ?_
  split
  · exact ⟨rfl, ‹_›⟩
  · trivial

omit h in
theorem mem_successors_of_dispatch? (h : map.dispatch? b = some id) : id ∈ (map.block b).successors :=
  List.mem_of_getLast? (Option.filter_eq_some_iff.1 h).1

/-- The exceptions of a block go to one of its successors or out of the method. -/
theorem meets_handlerBlock (bci : Nat) : Meets (handlerBlock bci) s (fun id s' =>
      (∃ b, s.current = some b ∧ id ∈ (s.map.block b).successors ∧ s' = s) ∨ Opens base s id s')
      Foreseen := by
  have hunwind : Meets (unwindBlock bci) s (fun id s' =>
      (∃ b, s.current = some b ∧ id ∈ (s.map.block b).successors ∧ s' = s) ∨ Opens base s id s')
      Foreseen := (meets_unwindBlock h bci).imp fun _ _ => .inr
  unfold handlerBlock
  refine meets_current.bind ?_
  rintro b s ⟨rfl, hb⟩
  refine meets_read.2 ?_
  dsimp only
  split
  · split
    · exact .inl ⟨b, hb, mem_successors_of_dispatch? ‹_›, rfl⟩
    · exact hunwind
  · exact hunwind

end

/-- A class of nodes that may raise an exception. -/
def isTrapping (c : NodeClass) : Bool :=
  isStep c && goesOn c && (c.layout.fieldIndex? .successors "exception_edge").isSome

theorem notesOf_trapping (hc : isTrapping c) (x : NodeId) :
    notesOf c x = [(.loose, x), (.gap, x), (.quiet, x)] ∧ goesOn c ∧
      (c.layout.fieldIndex? .successors "exception_edge").isSome ∧ c ≠ .loopExit := by
  revert hc
  cases c <;> first | exact fun _ => ⟨rfl, rfl, rfl, nofun⟩ | exact nofun

theorem fits_checkCast {g : Graph} (hv : g.IsValue x) (typeName : String) :
    (Node.checkCast x typeName).Fits g.cls? := Node.fits_ofInputs
  (.cons (hv.fits (by decide) (.inl rfl)) (.cons (Node.linkFits_one (by decide) nofun) .nil))

/-- A value of another kind is not popped. -/
theorem meets_pop_of_peek? (hpeek : s.frame.peek? 0 = some slot) (hk : slot.kind ≠ .object)
    {post : NodeId → State → Prop} : Meets (pop .object) s post Foreseen := by
  have hpop {f : Frame} (hf : f.peek? 0 = some slot) : ∃ cause f', (Frame.pop .object).run.run f =
      ((if slot.kind = .object then pure slot.node else throw cause : FrameM NodeId)).run.run f' := by
    obtain ⟨method, locals, stack, rethrow⟩ := f
    rw [Frame.peek?, Option.join_eq_some_iff] at hf
    cases stack with
    | nil => cases hf
    | cons top rest =>
      obtain rfl : top = some slot := Option.some.inj hf
      exact ⟨.malformed (.wrongOnStack .object (some slot.kind)), ⟨method, locals, rest, rethrow⟩, rfl⟩
  obtain ⟨cause, f', hpop⟩ := hpop hpeek
  rw [if_neg hk] at hpop
  unfold pop onFrame
  rw [meets_bind, meets_get, hpop]
  trivial

section

variable [Source] {exception : Option NodeId}

section

variable (h : Inv p hand s)

include h

/-- The accounts are kept where the method comes to have another block through which it is left. -/
theorem Inv.opens (ho : Opens p.base s id s') : Inv p hand s' ∧ Later s s' ∧ s'.Leaves id := by
  cases ho with
  | known hid => exact ⟨h, .refl s, hid⟩
  | @new b _ _ hl hh hm hleaves hid =>
    refine ⟨{ h with map := hm, tidy := fun hclean => ?_ }, ⟨.refl _, hleaves, rfl⟩, hid⟩
    refine ⟨fun id a hmem => ?_, (h.tidy hclean).entered, (h.tidy hclean).vacant⟩
    have ht := (h.tidy hclean).arrivals id a hmem
    -- at the new block there is nothing to say, and the others are as before
    have hblock := block_addBlock s.map b id
    split at hblock
    · refine ⟨fun _ hheader => ?_, fun l hloop => ?_, ht.waiting.imp_right (.imp_right (hleaves id))⟩
      · simp [hblock, hh] at hheader
      · rw [hblock, hl, LoopMask.toList_zero] at hloop
        cases hloop
    · exact ⟨fun hlift hheader => ht.opened hlift (hblock ▸ hheader), fun l hloop =>
        ht.inside l (hblock ▸ hloop), ht.waiting.imp_right (.imp_right (hleaves id))⟩

/-! ### Successors -/

/-- The current block is one of the method. -/
theorem Inv.block_current (hp : p.Ready) (hb : s.current = some b) :
    p.current = some b ∧ s.map.block b = p.base.block b := by
  rw [h.current] at hb
  exact ⟨hb, h.map.block b (hp.lifted b (hp.current b hb))⟩

/-- An edge may lead to a successor of the current block. -/
theorem Inv.leadsTo (hp : p.Ready) (hb : s.current = some b)
    (hid : id ∈ (s.map.block b).successors) : LeadsTo p s id := by
  obtain ⟨hb, hblock⟩ := h.block_current hp hb
  exact .inr (hp.successors b hb id (hblock ▸ hid))

theorem Inv.meets_handlerBlock (hp : p.Ready) (bci : Nat) :
    Meets (handlerBlock bci) s (fun id s' => Inv p hand s' ∧ Later s s' ∧ LeadsTo p s' id)
      Foreseen := by
  refine (Lift.meets_handlerBlock h.map bci).imp ?_
  rintro id s' (⟨b, hb, hid, rfl⟩ | ho)
  · exact ⟨h, .refl _, h.leadsTo hp hb hid⟩
  · obtain ⟨h', hs, hid⟩ := h.opens ho
    exact ⟨h', hs, .inl hid⟩

/-! ### Entries -/

theorem Inv.meets_exceptionEntry (he : ∀ id, exception = some id → s.graph.HasKind id .object) (bci : Nat) :
    Meets (exceptionEntry exception bci) s
      (fun r s' => Inv p ((.loose, r.1) :: (.gap, r.1) :: hand) s' ∧ Later s s' ∧
        r.2.Fits s'.graph ∧ ∃ c, s'.graph.cls? r.1 = some c ∧ goesOn c) Foreseen := by
  unfold exceptionEntry
  refine meets_read.2 ?_
  split
  · refine (h.meets_addStep rfl (.ones [none] rfl (.noState .nil))).bind fun x s1 h1 => ?_
    obtain ⟨h1, hs1, -, hop⟩ := h1
    have hx := cls?_of_op? hop
    have hf : (s.frame.withException (some x)).Fits s1.graph :=
      (h.frame.mono hs1.ops).withException (by rintro _ ⟨⟩; exact hasKind_of_op? hop rfl)
    refine (h1.meets_setState hx nofun rfl hf bci).bind fun _ s2 h2 => ?_
    obtain ⟨h2, hs2, -⟩ := h2
    exact ⟨h2, (hs1.trans hs2).later, hf.mono hs2.ops, _, hs2.ops _ _ hx, rfl⟩
  · rename_i exception
    refine (h.meets_addStep rfl (.ones [none] rfl (.noState .nil))).bind fun x s1 h1 => ?_
    obtain ⟨h1, hs1, -, hop⟩ := h1
    have hx := cls?_of_op? hop
    have hf := h.frame.mono hs1.ops
    refine (h1.meets_setState hx nofun rfl (hf.withException (by simp)) bci).bind fun _ s2 h2 => ?_
    obtain ⟨h2, hs2, -⟩ := h2
    have hs := hs1.trans hs2
    exact ⟨h2, hs.later, (h.frame.mono hs.ops).withException fun id hid =>
      hs.ops.hasKind (he id hid), _, hs2.ops _ _ hx, rfl⟩

/-- Where control goes when an exception is raised. -/
theorem Inv.meets_raise (hp : p.Ready)
    (he : ∀ id, exception = some id → s.graph.HasKind id .object) (bci : Nat) :
    Meets (raise exception bci) s (fun e s' => Inv p ((.loose, e) :: hand) s' ∧ Later s s') Foreseen := by
  unfold raise
  refine (h.meets_handlerBlock hp bci).bind fun handler s1 h1 => ?_
  obtain ⟨h1, hs1, hid⟩ := h1
  refine (h1.meets_exceptionEntry (fun id hid => hs1.ops.hasKind (he id hid)) bci).bind
    fun r s2 h2 => ?_
  obtain ⟨h2, hs2, hf, c, hc, hgo⟩ := h2
  refine (h2.meets_target hp (hid.later hs2) hf).bind fun t s3 h3 => ?_
  obtain ⟨h3, hs3⟩ := h3
  have hperm : ((.loose, t) :: (.loose, r.1) :: (.gap, r.1) :: hand : List (Note × NodeId)).Perm
      ((.gap, r.1) :: (.loose, t) :: (.loose, r.1) :: hand) :=
    ((List.Perm.swap ..).cons _).trans (.swap ..)
  refine ((h3.perm hperm).meets_link (hs3.ops _ _ hc) hgo).bind fun _ s4 h4 => ?_
  exact ⟨h4.1, ((hs1.trans hs2).trans hs3).trans h4.2.later⟩

end

/-! ### Nodes that may raise an exception -/

/-- An edge for exceptions is given to a node in hand. -/
theorem Inv.meets_setException (h : Inv p ((.quiet, x) :: (.loose, t) :: hand) s)
    (hx : s.graph.cls? x = some c)
    (hc : (c.layout.fieldIndex? .successors "exception_edge").isSome) :
    Meets (onGraph (setSuccessor x "exception_edge" (some t))) s
      (fun _ s' => Inv p hand s' ∧ Grows s s') Foreseen := by
  refine meets_onGraph.2 ((meets_setException_growing h.growing hx hc
    (h.accounts.holds _ _ (by simp) nofun) (h.accounts.holds _ _ (by simp) nofun)).mono
    (fun _ g' hg => ?_) fun _ => False.elim)
  obtain ⟨hg, hm, hj⟩ := hg
  exact ⟨h.graph hg hm (h.quiet hm.keepsOps (.of_eq hj)) (by simp)
    (h.accounts.settle [(.quiet, x), (.loose, t)] hm), grows_graph hm.keepsOps (.of_eq hj)⟩

theorem Inv.meets_appendTrapping (h : Inv p (notesOf c x ++ hand) s) (hp : p.Ready)
    (hx : s.graph.cls? x = some c) (hc : isTrapping c) (hl : s.last.isSome) (bci : Nat) :
    Meets (appendTrapping x bci) s
      (fun _ s' => Inv p hand s' ∧ KeepsOps s.graph s'.graph) Foreseen := by
  obtain ⟨hnotes, hgo, hedge, hne⟩ := notesOf_trapping hc x
  -- what is left to do once the edge for exceptions is settled
  have happend {s' : State} (h' : Inv p ((.loose, x) :: (.gap, x) :: hand) s') (hs : Later s s') :
      Meets (appendNode x) s' (fun _ s'' => Inv p hand s'' ∧ KeepsOps s.graph s''.graph) Foreseen := by
    have harr : Inv p (arriving c x ++ hand) s' := by
      rw [arriving, hgo]
      exact h'
    exact (harr.meets_appendNode (hs.ops _ _ hx) hne (by rw [hs.last]; exact hl)).imp
      fun _ s'' h'' => ⟨h''.1, hs.ops.trans h''.2.1⟩
  have hquiet : Inv p ((.quiet, x) :: (.loose, x) :: (.gap, x) :: hand) s := by
    rw [hnotes] at h
    exact h.perm (((List.Perm.swap ..).cons _).trans (.swap ..))
  unfold appendTrapping
  refine meets_current.bind ?_
  rintro b s ⟨rfl, -⟩
  refine meets_read.2 ?_
  dsimp only
  split
  · refine (hquiet.meets_raise hp (by simp) bci).bind fun e s1 h1 => ?_
    obtain ⟨h1, hs1⟩ := h1
    refine ((h1.perm (.swap ..)).meets_setException (hs1.ops _ _ hx) hedge).bind
      fun _ s2 h2 => ?_
    exact happend h2.1 (hs1.trans h2.2.later)
  · exact happend (hquiet.drop fun _ => rfl) (.refl s)

/-! ### Links of a dispatch chain -/

theorem Inv.meets_unresolved (h : Inv p hand s) (hl : s.last.isSome) (what : String) :
    Meets (unresolved what) s (fun _ s' => Inv p hand s' ∧ s'.last = none) Foreseen := by
  unfold unresolved
  refine meets_read.2 ?_
  split
  · trivial
  · exact (h.meets_append rfl (fun _ => rfl) (.ones [] rfl .nil) hl).bind fun _ s' hs => ⟨hs.1, hs.2.2.2⟩

/-- Control goes on to a branch between two nodes in hand. -/
theorem Inv.meets_appendBranch {condition t t' : NodeId}
    (h : Inv p ((.loose, t) :: (.loose, t') :: hand) s) (hcond : s.graph.IsValue condition)
    (hl : s.last.isSome) (probability : UInt64) :
    Meets (append (.branch condition (some t) (some t') probability)) s
      (fun _ s' => Inv p hand s' ∧ s'.last = none) Foreseen := by
  unfold append
  have hfits : (Node.branch condition (some t) (some t') probability).Fits s.graph.cls? := by
    intro d
    cases d with
    | inputs => exact .cons (hcond.fits (by decide) (.inr rfl)) .nil
    | successors =>
      refine .cons (Node.linkFits_one (by decide) ?_) (.cons (Node.linkFits_one (by decide) ?_) .nil)
      · rintro _ ⟨⟩
        exact h.accepts (by simp) _ _
      · rintro _ ⟨⟩
        exact h.accepts (by simp) _ _
  refine (h.meets_addLeading [t, t'] rfl rfl hfits rfl nofun rfl
    (fun id => Node.filled_of_cls nofun nofun (.cons nofun .nil) 
      (Node.typed_plain nofun nofun fun _ => rfl)) fun id => rfl).bind
    fun x s1 h1 => ?_
  obtain ⟨h1, hs1, hx⟩ := h1
  exact (h1.meets_appendNode hx nofun (by rw [hs1.later.last]; exact hl)).bind fun _ s2 h2 =>
    ⟨h2.1, h2.2.2⟩

theorem hasKind_of_peek? (hf : f.Fits s.graph) {depth : Nat}
    (h : f.peek? depth = some slot) : s.graph.HasKind slot.node slot.kind :=
  hf.stack slot (List.mem_of_getElem? (Option.join_eq_some_iff.1 h))

/-- A check is registered before the kind of the exception is looked at; what is no object is refused
then. -/
theorem Inv.meets_checkCast_of_ne (h : Inv p hand s) (hpeek : s.frame.peek? 0 = some slot)
    (hk : slot.kind ≠ .object) (typeName : String) (bci : Int) {rest : NodeId → NodeId → LiftM Unit}
    {post : Unit → State → Prop} :
    Meets (do
      let checked ← onGraph (Graph.add (.checkCast slot.node typeName))
      setState checked (← get).frame bci
      let old ← pop .object
      rest checked old) s post Foreseen := by
  have hcheck := fits_checkCast (hasKind_of_peek? h.frame hpeek).1 typeName
  -- what the check refers to is no object, so it is the one node that need not be typed
  have hg : s.graph.GrowingBut fun x => x.index = s.graph.bound := h.growing.mono fun _ h => h.elim
  refine meets_bind.2 (meets_onGraph.2 ((meets_add_ofInputs hg rfl hcheck nofun
    fun id hid hne => absurd hid hne).mono (fun x g1 h1 => ?_) fun c hc => .inl (.inl hc)))
  refine meets_read.2 (meets_bind.2 (meets_onGraph.2 (meets_bind.2
    ((Frame.meets_materialize h1.growing (h.frame.mono h1.moves.keepsOps) _).mono
      (fun state g2 h2 => ?_) fun c hc => .inl (.inl hc)))))
  obtain ⟨⟨hg2, hm2⟩, -, hs, -⟩ := h2
  refine (meets_setStateAfter_growing hg2 (hm2.keepsOps _ _ (cls?_of_node? h1.node)) rfl hs).mono
    (fun _ g3 _ => ?_) fun _ => False.elim
  refine meets_bind.2 (meets_pop_of_peek? ?_ hk)
  exact hpeek

/-- A link that tests the type of the exception. -/
theorem Inv.meets_testType (h : Inv p hand s) (hp : p.Ready) {handler next : BlockId}
    (hhandler : LeadsTo p s handler) (hnext : LeadsTo p s next) (hl : s.last.isSome)
    (typeName : String) (bci : Int) :
    Meets (testType typeName handler next bci) s (fun _ s' => Inv p hand s' ∧ s'.last = none)
      Foreseen := by
  unfold testType
  refine meets_read.2 ?_
  split
  swap
  · trivial
  rename_i exception hpeek
  by_cases hobject : exception.kind = .object
  swap
  · exact h.meets_checkCast_of_ne hpeek hobject typeName bci
  have hv : s.graph.HasKind exception.node .object := hobject ▸ hasKind_of_peek? h.frame hpeek
  refine (h.meets_addStep rfl (.ones [exception.node, none] rfl (.value hv rfl (.noState .nil)))).bind
    fun checked s1 h1 => ?_
  obtain ⟨h1, hs1, -, hop⟩ := h1
  have hchecked := cls?_of_op? hop
  -- the check itself has no edge for exceptions
  have h1' : Inv p ((.loose, checked) :: (.gap, checked) :: hand) s1 :=
    (h1.perm (((List.Perm.swap ..).cons _).trans (.swap ..))).drop fun _ => rfl
  refine meets_read.2 ((h1'.meets_setState hchecked nofun rfl h1.frame bci).bind
    fun _ s2 h2 => ?_)
  obtain ⟨h2, hs2, -⟩ := h2
  refine (h2.meets_pop .object).bind fun _ s3 h3 => ?_
  obtain ⟨h3, hs3, -⟩ := h3
  have hs : Later s s3 := (hs1.trans hs2).later.trans hs3
  have hop3 := hs3.ops.ops _ _ (hs2.ops.ops _ _ hop)
  refine (h3.meets_push (show s3.graph.HasKind checked Kind.object.onStack from
    hasKind_of_op? hop3 rfl)).bind fun _ s4 h4 => ?_
  obtain ⟨h4, hs4⟩ := h4
  replace hs := hs.trans hs4
  refine meets_read.2 ((h4.meets_target hp (hhandler.later hs) h4.frame).bind
    fun caught s5 h5 => ?_)
  obtain ⟨h5, hs5⟩ := h5
  refine (h5.meets_pop .object).bind fun _ s6 h6 => ?_
  obtain ⟨h6, hs6, -⟩ := h6
  replace hs := (hs.trans hs5).trans hs6
  refine (h6.meets_push (show s6.graph.HasKind exception.node Kind.object.onStack from
    hs.ops.hasKind hv)).bind fun _ s7 h7 => ?_
  obtain ⟨h7, hs7⟩ := h7
  replace hs := hs.trans hs7
  refine meets_read.2 ((h7.meets_branchTarget hp (hnext.later hs) h7.frame).bind
    fun other s8 h8 => ?_)
  obtain ⟨h8, hs8⟩ := h8
  replace hs := hs.trans hs8
  have hperm : ([(Note.loose, other), (Note.loose, caught), (Note.loose, checked)] ++
      (Note.gap, checked) :: hand).Perm
      ((.gap, checked) :: (.loose, caught) :: (.loose, other) :: (.loose, checked) :: hand) :=
    List.perm_middle.trans ((List.Perm.swap ..).cons _)
  have hchecked8 := ((((hs4.trans hs5).trans hs6).trans hs7).trans hs8).ops _ _ (cls?_of_op? hop3)
  refine ((h8.perm hperm).meets_link hchecked8 rfl).bind fun _ s9 h9 => ?_
  obtain ⟨h9, hs9⟩ := h9
  replace hs := hs.trans hs9.later
  have hv9 := hs.ops.hasKind hv
  refine (h9.meets_intern rfl (by nofun) rfl (.ones [exception.node] rfl (.value hv9 rfl .nil))).bind
    fun condition s10 h10 => ?_
  obtain ⟨h10, hs10, hcond⟩ := h10
  refine (h10.perm (.swap ..)).meets_addBegin.bind fun matched s11 h11 => ?_
  obtain ⟨h11, hs11, -⟩ := h11
  replace hs := hs.trans (hs10.trans hs11).later
  exact (h11.meets_appendBranch (hs11.ops.isValue hcond.1) (by rw [hs.last]; exact hl) _).bind
    fun _ s12 h12 => h12

/-- One link of a dispatch chain, which is the current block. -/
theorem Inv.meets_dispatch (h : Inv p hand s) (hp : p.Ready) (hid : s.current = some id)
    (hl : s.last.isSome) (handler : Nat) (bci : Int) :
    Meets (dispatch id handler bci) s (fun _ s' => Inv p hand s' ∧ s'.last = none) Foreseen := by
  unfold dispatch
  refine meets_read.2 ?_
  split
  swap
  · trivial
  rename_i row hrow
  dsimp only
  split
  swap
  · trivial
  rename_i entry hentry
  have hleads := h.leadsTo hp hid (List.mem_of_head? hentry)
  split
  · exact h.meets_jumpTo hp hleads hl
  · split
    · exact h.meets_unresolved hl _
    · rename_i type _ _
      have htest {next : BlockId} {s1 : State} (h1 : Inv p hand s1) (hs1 : Later s s1)
          (hnext : LeadsTo p s1 next) : Meets (testType type.name entry next bci) s1
            (fun _ s' => Inv p hand s' ∧ s'.last = none) Foreseen :=
        h1.meets_testType hp (hleads.later hs1) hnext (by rw [hs1.last]; exact hl) _ _
      split
      · rename_i next hnext
        exact htest h (.refl s) (h.leadsTo hp hid (List.mem_of_getElem? hnext))
      · refine (meets_unwindBlock h.map _).bind fun next s1 ho => ?_
        obtain ⟨h1, hs1, hnext⟩ := h.opens ho
        exact htest h1 hs1 (.inl hnext)

end

end SeaOfNodes.Lift
