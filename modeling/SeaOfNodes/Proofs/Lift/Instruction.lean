import SeaOfNodes.Lift.Instruction
import SeaOfNodes.Proofs.Lift.Exception

/-!
# Instructions keep the accounts

Every form of instruction either stays in its block, with a last node after which the next
instruction goes on, or leaves it, with all its ways out expected at the blocks where they lead.
-/

namespace SeaOfNodes.Lift

open Graph Bytecode

variable {p : Stage} {s s' : State} {hand : List (Note × NodeId)} {id : BlockId} {f : Frame}
  {x y : NodeId} {α : Type}

/-! ### Forms -/

/-- The operands of arithmetic are of kinds that are on the stack, and shifts are told apart. -/
def isKinded : Form → Bool
  | .arith op kind => kind.onStack == kind && !op.isShift
  | .shift op kind => kind.onStack == kind && op.isShift
  | .negate kind | .compare kind _ => kind.onStack == kind
  | _ => true

theorem isKinded_of_form? {c : Cursor} {form : Form} (h : c.form? = some form) :
    isKinded form := by
  have htable : ∀ info ∈ opcodeTable.toList, isKinded info.form := by decide +kernel
  obtain ⟨opcode, -, hform⟩ := Option.bind_eq_some_iff.1 h
  obtain ⟨info, hinfo, rfl⟩ := Option.map_eq_some_iff.1 hform
  exact htable info (Array.mem_toList_iff.2 (Array.mem_of_getElem? hinfo))

theorem mem_of_mem_apply {shuffle : Shuffle} {a : α} {words : List α}
    (h : a ∈ shuffle.apply words) : a ∈ words := by
  unfold Shuffle.apply at h
  split at h <;> grind

theorem meets_successorAt {map : BlockMap} {successors : List BlockId} {bci : Int} :
    Meets (successorAt map successors bci) s (fun _ s' => s' = s) Foreseen := by
  unfold successorAt
  split
  · rfl
  · trivial

/-! ### Values -/

section

variable [Source] {kind : Kind} {inputs : List Link} {op : Op}

theorem supplied_binary {op : ArithOp} (hx : s.graph.HasKind x kind)
    (hy : s.graph.HasKind y (if op.isShift then .int else kind)) :
    Supplied s.graph (.binary op kind) [.one x, .one y] :=
  .ones [x, y] rfl (.value hx rfl (.value hy rfl .nil))

theorem supplied_compare {condition : Condition} (hx : s.graph.HasKind x kind)
    (hy : s.graph.HasKind y kind) : Supplied s.graph (.compare condition) [.one x, .one y] :=
  have h : Takes s.graph (.compare condition) 0 (Op.compare condition).layout.inputs [x, y] :=
    .value hx rfl (.value hy rfl .nil)
  ⟨Node.fits_ofInputs h.fits, h.present, Node.typed_compare hx.2 hy.2⟩

section

variable (h : Inv p hand s)

include h

theorem Inv.meets_pushNew
    (hv : op.isValueNumberable) (hp : op.cls ≠ .proxy) (hc : op.cls.isValue)
    (hs : Supplied s.graph op inputs) (hk : op.valueKind.onStack = kind.onStack) :
    Meets (pushNew kind (.ofInputs op inputs)) s (fun _ s' => Inv p hand s' ∧ Later s s') Foreseen := by
  unfold pushNew
  refine (h.meets_intern hv hp hc hs).bind fun x s1 h1 => ?_
  obtain ⟨h1, hs1, hx⟩ := h1
  rw [hk] at hx
  exact (h1.meets_push hx).imp fun _ s2 h2 => ⟨h2.1, hs1.later.trans h2.2⟩

theorem Inv.meets_internConstant (kind : Kind) (value : Int64) :
    Meets (intern (.constant kind value)) s
      (fun x s' => Inv p hand s' ∧ Grows s s' ∧ s'.graph.HasKind x kind.onStack) Foreseen :=
  h.meets_intern rfl (by nofun) rfl (.ones [] rfl .nil)

theorem Inv.meets_pushConstant (kind : Kind) (value : Int64) :
    Meets (pushNew kind (.constant kind value)) s (fun _ s' => Inv p hand s' ∧ Later s s') Foreseen :=
  h.meets_pushNew rfl (by nofun) rfl (.ones [] rfl .nil) rfl

theorem Inv.meets_shuffle (shuffle : Shuffle) :
    Meets (Lift.shuffle shuffle) s (fun _ s' => Inv p hand s' ∧ Later s s') Foreseen := by
  unfold Lift.shuffle
  refine meets_read.2 ?_
  dsimp only
  split
  · trivial
  · exact ⟨h.withFrame ⟨h.frame.locals, h.frame.stack.sub fun slot hs => mem_of_mem_apply hs,
      h.frame.size⟩, .refl _, fun _ => id, rfl⟩

theorem Inv.meets_loadConstant (c : Cursor) (index : Nat) :
    Meets (loadConstant c index) s (fun _ s' => Inv p hand s' ∧ Later s s') Foreseen := by
  unfold loadConstant
  refine meets_read.2 (meets_bind.2 (meets_ofExcept.2 fun entry _ => ?_))
  split
  · exact h.meets_pushConstant ..
  · exact h.meets_pushConstant ..
  · exact h.meets_pushConstant ..
  · exact h.meets_pushConstant ..
  · trivial

theorem Inv.meets_loadLocal (kind : Kind) (index : Nat) :
    Meets (loadLocal kind index) s (fun _ s' => Inv p hand s' ∧ Later s s') Foreseen := by
  unfold loadLocal
  refine meets_read.2 (meets_bind.2 (meets_ofExcept.2 fun x hx => ?_))
  exact h.meets_push (h.frame.load hx)

theorem Inv.meets_storeSlot {slot : Slot} (hv : s.graph.HasKind slot.node slot.kind) (index : Nat) :
    Meets (storeSlot index slot) s (fun _ s' => Inv p hand s' ∧ Later s s') Foreseen := by
  unfold storeSlot
  refine meets_read.2 (meets_bind.2 (meets_ofExcept.2 fun f hf => ?_))
  exact ⟨h.withFrame (h.frame.store (SlotsFit.nil.cons_some hv) hf), .refl _, fun _ => id, rfl⟩

theorem Inv.meets_storeLocal (kind : Kind) (index : Nat) :
    Meets (storeLocal kind index) s (fun _ s' => Inv p hand s' ∧ Later s s') Foreseen := by
  unfold storeLocal
  split
  · refine (h.meets_onFrame Frame.pops_popSlot).bind fun slot s1 h1 => ?_
    obtain ⟨h1, hs1, hg, hslot⟩ := h1
    split
    · rename_i value hvalue
      have hv : s1.graph.HasKind value.node value.kind := by
        rw [hg]
        exact h.frame.stack value (by simp [hslot, (Option.filter_eq_some_iff.1 hvalue).1])
      exact (h1.meets_storeSlot hv index).imp fun _ s2 h2 => ⟨h2.1, hs1.trans h2.2⟩
    · trivial
  · refine (h.meets_pop kind).bind fun x s1 h1 => ?_
    obtain ⟨h1, hs1, hx⟩ := h1
    exact (h1.meets_storeSlot hx index).imp fun _ s2 h2 => ⟨h2.1, hs1.trans h2.2⟩

theorem Inv.meets_popTwo (first second : Kind) :
    Meets (popTwo first second) s
      (fun r s' => Inv p hand s' ∧ Later s s' ∧ s'.graph.HasKind r.1 first.onStack ∧
        s'.graph.HasKind r.2 second.onStack) Foreseen := by
  unfold popTwo
  refine (h.meets_pop second).bind fun y s1 h1 => ?_
  obtain ⟨h1, hs1, hy⟩ := h1
  refine (h1.meets_pop first).bind fun x s2 h2 => ?_
  exact ⟨h2.1, hs1.trans h2.2.1, h2.2.2, h2.2.1.ops.hasKind hy⟩

/-- A node with two operands is pushed as a value. -/
theorem Inv.meets_pushBinary {op : ArithOp}
    (hx : s.graph.HasKind x kind) (hy : s.graph.HasKind y (if op.isShift then .int else kind)) :
    Meets (pushNew kind (.binary op kind x y)) s (fun _ s' => Inv p hand s' ∧ Later s s') Foreseen :=
  h.meets_pushNew rfl (by nofun) rfl (supplied_binary hx hy) rfl

theorem Inv.meets_increment (index : Nat) (delta : Int32) :
    Meets (increment index delta) s (fun _ s' => Inv p hand s' ∧ Later s s') Foreseen := by
  unfold increment
  refine meets_read.2 (meets_bind.2 (meets_ofExcept.2 fun x hx => ?_))
  refine (h.meets_internConstant ..).bind fun y s1 h1 => ?_
  obtain ⟨h1, hs1, hy⟩ := h1
  have hx := hs1.ops.hasKind (h.frame.load hx)
  refine (h1.meets_intern rfl (by nofun) rfl (supplied_binary hx hy)).bind fun z s2 h2 => ?_
  obtain ⟨h2, hs2, hz⟩ := h2
  exact (h2.meets_storeSlot hz index).imp fun _ s3 h3 =>
    ⟨h3.1, (hs1.trans hs2).later.trans h3.2⟩

/-! ### Branches -/

theorem Inv.meets_successor (hp : p.Ready) (index : Nat) :
    Meets (successor index) s (fun id s' => s' = s ∧ LeadsTo p s id) Foreseen := by
  unfold successor
  refine meets_current.bind ?_
  rintro b s ⟨rfl, hb⟩
  refine meets_observe.2 ?_
  split
  · rename_i id hid
    exact ⟨rfl, h.leadsTo hp hb (List.mem_of_getElem? hid)⟩
  · trivial

theorem Inv.meets_jump (hp : p.Ready) (hid : LeadsTo p s id) (hl : s.last.isSome) :
    Meets (jumpTo id) s (fun _ s' => Inv p hand s') Foreseen :=
  (h.meets_jumpTo hp hid hl).imp fun _ _ hs => hs.1

theorem Inv.meets_branchOn (hp : p.Ready) (hx : s.graph.IsValue x) (hl : s.last.isSome) (negated : Bool) :
    Meets (branchOn x negated) s (fun _ s' => Inv p hand s') Foreseen := by
  unfold branchOn
  refine (h.meets_successor hp 0).bind ?_
  rintro taken s ⟨rfl, htaken⟩
  refine (h.meets_successor hp 1).bind ?_
  rintro other s ⟨rfl, hother⟩
  split
  · exact h.meets_jump hp htaken hl
  refine meets_read.2 ((h.meets_branchTarget hp htaken h.frame).bind fun t s1 h1 => ?_)
  obtain ⟨h1, hs1⟩ := h1
  refine (h1.meets_branchTarget hp (hother.later hs1) (h.frame.mono hs1.ops)).bind
    fun t' s2 h2 => ?_
  obtain ⟨h2, hs2⟩ := h2
  have hs := hs1.trans hs2
  have hcond := hs.ops.isValue hx
  have hlast : s2.last.isSome := by rw [hs.last]; exact hl
  cases negated with
  | true => exact (h2.meets_appendBranch hcond hlast _).bind fun _ s3 h3 => h3.1
  | false => exact ((h2.perm (.swap ..)).meets_appendBranch hcond hlast _).bind fun _ s3 h3 => h3.1

theorem Inv.meets_branchIf (hp : p.Ready)
    (hx : s.graph.HasKind x kind) (hy : s.graph.HasKind y kind) (hl : s.last.isSome)
    (condition : Condition) :
    Meets (branchIf x condition y) s (fun _ s' => Inv p hand s') Foreseen := by
  obtain ⟨condition', x', y', hcompare, hx', hy'⟩ : ∃ condition' x' y',
      (canonical x condition y).1 = .compare condition' x' y' ∧ s.graph.HasKind x' kind ∧
        s.graph.HasKind y' kind := by
    cases condition
    all_goals exact ⟨_, _, _, rfl, ‹_›, ‹_›⟩
  unfold branchIf
  dsimp only
  rw [hcompare]
  refine (h.meets_intern rfl (by nofun) rfl (supplied_compare hx' hy')).bind fun z s1 h1 => ?_
  obtain ⟨h1, hs1, hz⟩ := h1
  exact h1.meets_branchOn hp hz.1 (by rw [hs1.later.last]; exact hl) _

end

/-- Control goes on to a switch between nodes in hand. -/
theorem Inv.meets_appendSwitch {targets : List NodeId} {value : NodeId}
    (h : Inv p (targets.map ((.loose, ·)) ++ hand) s) (hv : s.graph.HasKind value .int)
    (hl : s.last.isSome) (keys places : List Int32) :
    Meets (append { Node.switch value keys places 0 with successors := [.many (targets.map some)] }) s
      (fun _ s' => Inv p hand s') Foreseen := by
  set n : Node := { Node.switch value keys places 0 with successors := [.many (targets.map some)] }
  have hcomplete : n.Complete := .cons (fun _ => by simp [Link.slots]) .nil
  have htargets : n.targets .successors = targets := by
    simp [n, Node.targets, Node.links, Links.targets, Links.slots, Link.slots]
  have hfits : n.Fits s.graph.cls? := by
    intro d
    cases d with
    | inputs => exact .cons (hv.fits (by decide) (.inl rfl)) .nil
    | successors =>
      refine .cons ⟨rfl, fun t ht => h.accepts ?_ _ _⟩ .nil
      simp only [Link.slots, List.mem_map, Option.some.injEq, exists_eq_right] at ht
      simp [ht]
  have hnotes (x : NodeId) : newNotes n x = [(.loose, x)] := by
    rw [newNotes, if_pos hcomplete]
    rfl
  unfold append
  have ht : n.Typed Source.method s.graph.op? := by
    refine ⟨fun field kind hk t ht => ?_, by rintro ⟨⟩, by rintro _ _ ⟨⟩⟩
    cases field with
    | zero =>
      cases hk
      obtain rfl : t = value := Option.some.inj (List.mem_singleton.1 ht)
      exact hv.2
    | succ => cases hk
  refine (h.meets_addLeading targets rfl htargets hfits rfl (by rintro ⟨⟩) rfl
    (fun id => Node.filled_of_cls (by rintro ⟨⟩) (by rintro ⟨⟩) (.cons (by simp [Link.slots]) .nil) ht)
    hnotes).bind fun x s1 h1 => ?_
  obtain ⟨h1, hs1, hx⟩ := h1
  exact (h1.meets_appendNode hx (by rintro ⟨⟩) (by rw [hs1.later.last]; exact hl)).bind fun _ s2 h2 => h2.1

section

variable (h : Inv p hand s) (hp : p.Ready) (hl : s.last.isSome)

include h hp hl

theorem Inv.meets_switch (c : Cursor) :
    Meets (switch c) s (fun _ s' => Inv p hand s') Foreseen := by
  unfold switch
  refine (h.meets_pop .int).bind fun value s1 h1 => ?_
  obtain ⟨h1, hs1, hv⟩ := h1
  split
  swap
  · trivial
  refine meets_read.2 (meets_current.bind ?_)
  rintro b s1 ⟨rfl, hb⟩
  refine (Meets.mapM (fun _ _ s' => s' = s1) rfl ?_).bind ?_
  · rintro ⟨_, target⟩ _ _ s1 rfl
    exact meets_successorAt
  rintro cases s1 rfl
  refine meets_successorAt.bind ?_
  rintro default s1 rfl
  -- the targets come into hand one after the other
  refine meets_read.2 ((Meets.mapM (fun rest done s' =>
    Inv p (done.map ((.loose, ·)) ++ hand) s' ∧ Later s1 s' ∧ ∀ id ∈ rest, LeadsTo p s1 id)
    ⟨h1, .refl _, fun id hid => h1.leadsTo hp hb hid⟩ ?_).bind fun targets s2 h2 => ?_)
  · rintro id rest done s' ⟨h', hs', hrest⟩
    refine (h'.meets_branchTarget hp ((hrest id (by simp)).later hs') (h1.frame.mono hs'.ops)).imp
      fun t s'' h'' => ⟨h''.1.perm ?_, hs'.trans h''.2, fun i hi => hrest i (by simp [hi])⟩
    rw [List.map_append, List.append_assoc]
    exact List.perm_middle.symm
  · obtain ⟨h2, hs2, -⟩ := h2
    have hlast : s2.last.isSome := by rw [hs2.last, hs1.last]; exact hl
    exact (h2.meets_appendSwitch (hs2.ops.hasKind hv) hlast _ _).bind fun _ _ h3 => h3

theorem Inv.meets_leaveMethod (kind : Option Kind) (bci : Nat) :
    Meets (leaveMethod kind bci) s (fun _ s' => Inv p hand s') Foreseen := by
  unfold leaveMethod
  have hpop : Meets (kind.mapM pop) s
      (fun value s' => Inv p hand s' ∧ Later s s' ∧
        ∀ x, value = some x → s'.graph.HasKind x (kind.getD .void).onStack) Foreseen := by
    cases kind with
    | none => exact ⟨h, .refl s, nofun⟩
    | some kind =>
      refine meets_map.2 ((h.meets_pop kind).imp fun x s1 h1 => ⟨h1.1, h1.2.1, ?_⟩)
      rintro _ ⟨⟩
      exact h1.2.2
  have hleave {s1 : State} (h1 : Inv p hand s1) (hs1 : Later s s1) :
      Meets (do jumpTo (← returnBlock bci)) s1 (fun _ s' => Inv p hand s') Foreseen := by
    refine (meets_returnBlock h1.map bci).bind fun id s2 ho => ?_
    obtain ⟨h2, hs2, hid⟩ := h1.opens ho
    exact h2.meets_jump hp (.inl hid) (by rw [hs2.last, hs1.last]; exact hl)
  refine hpop.bind fun value s1 h1 => ?_
  obtain ⟨h1, hs1, hv⟩ := h1
  refine meets_read.2 ?_
  dsimp only
  split
  · trivial
  rename_i hkind
  rw [not_not] at hkind
  rw [hkind] at hv
  refine meets_change.2 ?_
  have h2 : Inv p hand { s1 with frame := { s1.frame with rethrow := false, stack := [] } } :=
    h1.withFrame ⟨h1.frame.locals, .nil, h1.frame.size⟩
  split
  · rename_i x
    refine (h2.meets_push (hv x rfl)).bind fun _ s3 h3 => ?_
    exact hleave h3.1 (hs1.trans ⟨h3.2.ops, h3.2.leaves, h3.2.last⟩)
  · exact hleave h2 ⟨hs1.ops, hs1.leaves, hs1.last⟩

/-! ### Subroutines -/

theorem Inv.meets_call (returnBci : Nat) :
    Meets (call returnBci) s (fun _ s' => Inv p hand s') Foreseen := by
  unfold call
  refine meets_current.bind ?_
  rintro b s ⟨rfl, hb⟩
  refine meets_observe.2 ?_
  split
  swap
  · exact meets_malformed.2 trivial
  rename_i callee hcallee
  refine meets_observe.2 ?_
  dsimp only
  split
  · trivial
  refine (h.meets_pushConstant ..).bind fun _ s1 h1 => ?_
  obtain ⟨h1, hs1⟩ := h1
  have hid : LeadsTo p s callee := by
    obtain ⟨hb', hblock⟩ := h.block_current hp hb
    refine h.leadsTo hp hb ?_
    rw [hblock] at hcallee ⊢
    exact hp.callee b hb' callee hcallee
  exact h1.meets_jump hp (hid.later hs1) (by rw [hs1.last]; exact hl)

theorem Inv.meets_ret (index : Nat) :
    Meets (ret index) s (fun _ s' => Inv p hand s') Foreseen := by
  unfold ret
  refine meets_read.2 (meets_bind.2 (meets_ofExcept.2 fun held hheld => ?_))
  refine meets_current.bind ?_
  rintro b s ⟨rfl, hb⟩
  refine meets_observe.2 ?_
  split
  swap
  · exact meets_bailout.2 trivial
  rename_i continuation hcontinuation
  have hid : LeadsTo p s continuation := by
    obtain ⟨hb', hblock⟩ := h.block_current hp hb
    refine h.leadsTo hp hb ?_
    rw [hblock] at hcontinuation ⊢
    exact hp.continuation b hb' continuation hcontinuation
  refine meets_observe.2 ?_
  split
  · trivial
  refine (h.meets_internConstant ..).bind fun address s1 h1 => ?_
  obtain ⟨h1, hs1, haddress⟩ := h1
  have hheld := hs1.ops.hasKind (h.frame.load hheld)
  refine (h1.meets_intern rfl (by rintro ⟨⟩) rfl (supplied_compare hheld haddress)).bind
    fun guard s2 h2 => ?_
  obtain ⟨h2, hs2, hguard⟩ := h2
  have hs := (hs1.trans hs2).later
  refine meets_read.2 ((h2.meets_branchTarget hp (hid.later hs) h2.frame).bind
    fun t s3 h3 => ?_)
  obtain ⟨h3, hs3⟩ := h3
  refine meets_bind.2 (meets_onGraph_bind.2 ((h3.meets_addStep rfl (.ones [] rfl .nil)).imp
    fun deopt s4 h4 => ?_))
  obtain ⟨h4, hs4, -⟩ := h4
  refine (Inv.meets_addBegin h4).imp fun mismatch s5 h5 => ?_
  obtain ⟨h5, hs5, -⟩ := h5
  have hs' := hs3.trans (hs4.trans hs5).later
  exact ((h5.perm (.swap ..)).meets_appendBranch (hs'.ops.isValue hguard.1)
    (by rw [hs'.last, hs.last]; exact hl) _).bind fun _ s6 h6 => h6.1

/-! ### Memory and calls -/

/-- A new node that may raise an exception comes into the control flow. -/
theorem Inv.meets_addTrapping (hc : isTrapping op.cls) (hs : Supplied s.graph op inputs) (bci : Nat) :
    Meets (onGraph (Graph.add (.ofInputs op inputs))) s (fun x s1 =>
      Meets (appendTrapping x bci) s1
        (fun _ s' => Inv p hand s' ∧ s'.graph.op? x = some op) Foreseen) Foreseen := by
  have hstep : isStep op.cls := by
    simp only [isTrapping, Bool.and_eq_true] at hc
    exact hc.1.1
  refine (h.meets_addStep hstep hs).imp fun x s1 h1 => ?_
  obtain ⟨h1, hs1, -, hx⟩ := h1
  exact (h1.meets_appendTrapping hp (cls?_of_op? hx) hc (by rw [hs1.later.last]; exact hl) bci).imp
    fun _ s2 h2 => ⟨h2.1, h2.2.ops _ _ hx⟩

theorem Inv.meets_appendValue (hc : isTrapping op.cls) (hv : op.cls.isValue)
    (hs : Supplied s.graph op inputs) (hk : op.valueKind.onStack = kind.onStack) (bci : Nat) :
    Meets (appendValue (.ofInputs op inputs) kind bci) s (fun _ s' => Inv p hand s') Foreseen := by
  refine meets_bind.2 ((h.meets_addTrapping hp hl hc hs bci).imp fun x s1 h1 => ?_)
  refine h1.bind fun _ s2 h2 => ?_
  have hx := hasKind_of_op? h2.2 hv
  rw [hk] at hx
  exact (h2.1.meets_push hx).imp fun _ _ h3 => h3.1

theorem Inv.meets_arrayLoad (element : Kind)
    (bci : Nat) : Meets (arrayLoad element bci) s (fun _ s' => Inv p hand s') Foreseen := by
  unfold arrayLoad
  refine (h.meets_pop .int).bind fun index s1 h1 => ?_
  obtain ⟨h1, hs1, hindex⟩ := h1
  refine (h1.meets_pop .object).bind fun array s2 h2 => ?_
  obtain ⟨h2, hs2, harray⟩ := h2
  replace hindex := hs2.ops.hasKind hindex
  exact h2.meets_appendValue hp (by rw [hs2.last, hs1.last]; exact hl) rfl rfl
    (.ones [array, index, none] rfl (.value harray rfl (.value hindex rfl (.noState .nil))))
    (by exact element.onStack_onStack) bci

theorem Inv.meets_arrayStore (element : Kind)
    (bci : Nat) : Meets (arrayStore element bci) s (fun _ s' => Inv p hand s') Foreseen := by
  unfold arrayStore
  refine (h.meets_pop element).bind fun value s1 h1 => ?_
  obtain ⟨h1, hs1, hvalue⟩ := h1
  refine (h1.meets_pop .int).bind fun index s2 h2 => ?_
  obtain ⟨h2, hs2, hindex⟩ := h2
  refine (h2.meets_pop .object).bind fun array s3 h3 => ?_
  obtain ⟨h3, hs3, harray⟩ := h3
  replace hindex := hs3.ops.hasKind hindex
  replace hvalue := (hs2.trans hs3).ops.hasKind hvalue
  refine meets_bind.2 ((h3.meets_addTrapping hp (by rw [hs3.last, hs2.last, hs1.last]; exact hl) rfl
    (.ones [array, index, value, none] rfl
      (.value harray rfl (.value hindex rfl (.value hvalue rfl (.noState .nil))))) bci).imp fun x s4 h4 => ?_)
  exact h4.imp fun _ _ h5 => h5.1

end

section

variable (h : Inv p hand s)

include h

theorem Inv.meets_popObject (isStatic : Bool) :
    Meets (popObject isStatic) s
      (fun object s' => Inv p hand s' ∧ Later s s' ∧
        ∀ x, object = some x → s'.graph.HasKind x .object) Foreseen := by
  unfold popObject
  split
  · exact ⟨h, .refl s, nofun⟩
  · refine (h.meets_pop .object).bind fun x s1 h1 => ⟨h1.1, h1.2.1, ?_⟩
    rintro _ ⟨⟩
    exact h1.2.2

theorem Inv.meets_getField (hp : p.Ready) (hl : s.last.isSome) (index : Nat) (isStatic : Bool) (bci : Nat) :
    Meets (getField index isStatic bci) s (fun _ s' => Inv p hand s') Foreseen := by
  unfold getField
  refine meets_read.2 (meets_bind.2 (meets_ofExcept.2 fun field _ => ?_))
  split
  · exact (h.meets_unresolved hl _).imp fun _ _ hs => hs.1
  refine (h.meets_popObject isStatic).bind fun object s1 h1 => ?_
  obtain ⟨h1, hs1, hobject⟩ := h1
  exact h1.meets_appendValue hp (by rw [hs1.last]; exact hl) rfl rfl
    (.ones [object, none] rfl (.maybe hobject rfl (.noState .nil))) (by exact field.kind.onStack_onStack) bci

theorem Inv.meets_putField (hp : p.Ready) (hl : s.last.isSome) (index : Nat) (isStatic : Bool) (bci : Nat) :
    Meets (putField index isStatic bci) s (fun _ s' => Inv p hand s') Foreseen := by
  unfold putField
  refine meets_read.2 (meets_bind.2 (meets_ofExcept.2 fun field _ => ?_))
  split
  · exact (h.meets_unresolved hl _).imp fun _ _ hs => hs.1
  refine (h.meets_pop field.kind).bind fun value s1 h1 => ?_
  obtain ⟨h1, hs1, hvalue⟩ := h1
  refine (h1.meets_popObject isStatic).bind fun object s2 h2 => ?_
  obtain ⟨h2, hs2, hobject⟩ := h2
  replace hvalue := hs2.ops.hasKind hvalue
  refine meets_bind.2 ((h2.meets_addTrapping hp (by rw [hs2.last, hs1.last]; exact hl) rfl
    (.ones [object, value, none] rfl (.maybe hobject rfl (.value hvalue rfl (.noState .nil)))) bci).imp
    fun x s3 h3 => ?_)
  exact h3.imp fun _ _ h4 => h4.1

theorem Inv.meets_invoke (hp : p.Ready) (hl : s.last.isSome) (index : Nat) (receiver : Bool) (bci : Nat) :
    Meets (invoke index receiver bci) s (fun _ s' => Inv p hand s') Foreseen := by
  unfold invoke
  refine meets_read.2 (meets_bind.2 (meets_ofExcept.2 fun callee hcallee => ?_))
  rw [h.method] at hcallee
  split
  · exact (h.meets_unresolved hl _).imp fun _ _ hs => hs.1
  refine meets_bind.2 (meets_ofExcept.2 fun signature hsignature => ?_)
  refine (h.meets_onFrame (Frame.pops_popAll _)).bind fun arguments s1 h1 => ?_
  obtain ⟨h1, hs1, hg1, hargs⟩ := h1
  replace hargs := hargs.imp fun id kind hid => show s1.graph.HasKind id kind.onStack by
    obtain ⟨slot, ⟨rfl, hkind⟩, hmem⟩ := hid
    rw [hg1, ← hkind]
    exact h.frame.stack slot hmem
  -- the call itself, once all its arguments are known
  have hinvoke {arguments : List NodeId} {s2 : State} (h2 : Inv p hand s2) (hs2 : Later s s2)
      (hargs : List.Forall₂ s2.graph.HasKind arguments
        (((if receiver then [Kind.object] else []) ++ signature.parameters).map Kind.onStack)) :
      Meets (do
          let id ← onGraph (Graph.add (.invoke callee.qualifiedName arguments signature.result))
          appendTrapping id bci
          if signature.result ≠ .void then push signature.result id) s2
        (fun _ s' => Inv p hand s') Foreseen := by
    have hsupplied : Supplied s2.graph (.invoke callee.qualifiedName signature.result)
        [.many (arguments.map some), .one none] := by
      refine ⟨Node.fits_ofInputs (.cons ⟨rfl, fun t ht => ?_⟩
        (.cons (Node.linkFits_one (by decide) nofun) .nil)), .cons nofun (.cons nofun .nil),
        Node.typed_invoke ⟨index, callee, signature, receiver, hcallee, hsignature, rfl, rfl, rfl⟩
          (hargs.imp fun _ _ hx => hx.2)⟩
      simp only [Link.slots, List.mem_map, Option.some.injEq, exists_eq_right] at ht
      exact ((List.forall₂_and_left _ _).1 hargs).1 t ht
    refine meets_bind.2 ((h2.meets_addTrapping hp (by rw [hs2.last]; exact hl) rfl hsupplied bci).imp
      fun x s3 h3 => ?_)
    refine h3.bind fun _ s4 h4 => ?_
    split
    · have hx := hasKind_of_op? h4.2 rfl
      rw [show (Op.invoke callee.qualifiedName signature.result).valueKind.onStack =
        signature.result.onStack from signature.result.onStack_onStack] at hx
      exact (h4.1.meets_push hx).imp fun _ _ h5 => h5.1
    · exact h4.1
  cases receiver with
  | true =>
    refine (h1.meets_pop .object).bind fun object s2 h2 => ?_
    obtain ⟨h2, hs2, hobject⟩ := h2
    refine hinvoke h2 (hs1.trans hs2) (.cons hobject ?_)
    exact (List.forall₂_map_right_iff.2 hargs).imp fun _ _ hx => hs2.ops.hasKind hx
  | false => exact hinvoke h1 hs1 (List.forall₂_map_right_iff.2 hargs)

theorem Inv.meets_withType (hl : s.last.isSome) (index : Nat) {act : String → LiftM Unit}
    (hact : ∀ name, Meets (act name) s (fun _ s' => Inv p hand s') Foreseen) :
    Meets (withType index act) s (fun _ s' => Inv p hand s') Foreseen := by
  unfold withType
  refine meets_read.2 (meets_bind.2 (meets_ofExcept.2 fun type _ => ?_))
  split
  · exact (h.meets_unresolved hl _).imp fun _ _ hs => hs.1
  · exact hact type.name

theorem Inv.meets_throw (hp : p.Ready) (hl : s.last.isSome) (bci : Nat) :
    Meets (do
        let exception ← pop .object
        appendJump (← raise (some exception) bci)) s (fun _ s' => Inv p hand s') Foreseen := by
  refine (h.meets_pop .object).bind fun exception s1 h1 => ?_
  obtain ⟨h1, hs1, hv⟩ := h1
  refine (h1.meets_raise hp (by rintro _ ⟨⟩; exact hv) bci).bind fun e s2 h2 => ?_
  obtain ⟨h2, hs2⟩ := h2
  exact (h2.meets_appendJump (by rw [hs2.last, hs1.last]; exact hl)).imp fun _ _ h3 => h3.1

/-! ### All forms -/

/-- Every instruction keeps what holds between the steps of lifting. -/
theorem Inv.meets_instruction (hp : p.Ready) (hl : s.last.isSome) (c : Cursor) :
    Meets (instruction c) s (fun _ s' => Inv p hand s') Foreseen := by
  have drop {act : LiftM Unit} {s : State}
      (hact : Meets act s (fun _ s' => Inv p hand s' ∧ Later s s') Foreseen) :
      Meets act s (fun _ s' => Inv p hand s') Foreseen := hact.imp fun _ _ hs => hs.1
  have hkinds (form : Form) (hform : c.form? = some form) := isKinded_of_form? hform
  unfold instruction
  dsimp only
  split
  · exact h
  · exact drop (h.meets_pushConstant ..)
  · exact drop (h.meets_pushConstant ..)
  · exact drop (h.meets_pushConstant ..)
  · exact drop (h.meets_loadConstant ..)
  · exact drop (h.meets_loadLocal ..)
  · exact drop (h.meets_storeLocal ..)
  · exact h.meets_arrayLoad hp hl ..
  · exact h.meets_arrayStore hp hl ..
  · exact drop (h.meets_shuffle ..)
  · rename_i op kind hform
    obtain ⟨hkind, hshift⟩ : kind.onStack = kind ∧ op.isShift = false := by
      simpa [isKinded] using hkinds _ hform
    refine (h.meets_popTwo ..).bind fun r s1 h1 => ?_
    obtain ⟨h1, -, hx, hy⟩ := h1
    rw [hkind] at hx hy
    exact drop (h1.meets_pushBinary hx (by simpa [hshift] using hy))
  · rename_i op kind hform
    obtain ⟨hkind, hshift⟩ : kind.onStack = kind ∧ op.isShift := by
      simpa [isKinded] using hkinds _ hform
    refine (h.meets_popTwo ..).bind fun r s1 h1 => ?_
    obtain ⟨h1, -, hx, hy⟩ := h1
    rw [hkind] at hx
    exact drop (h1.meets_pushBinary hx (by rw [hshift]; exact hy))
  · rename_i kind hform
    have hkind : kind.onStack = kind := by simpa [isKinded] using hkinds _ hform
    refine (h.meets_pop _).bind fun x s1 h1 => ?_
    obtain ⟨h1, -, hx⟩ := h1
    rw [hkind] at hx
    exact drop (h1.meets_pushNew rfl (by nofun) rfl (.ones [x] rfl (.value hx rfl .nil)) rfl)
  · exact drop (h.meets_increment ..)
  · rename_i source target _
    refine (h.meets_pop _).bind fun x s1 h1 => ?_
    obtain ⟨h1, -, hx⟩ := h1
    exact drop (h1.meets_pushNew rfl (by nofun) rfl (.ones [x] rfl (.value hx rfl .nil))
      target.onStack_onStack)
  · rename_i kind less hform
    have hkind : kind.onStack = kind := by simpa [isKinded] using hkinds _ hform
    refine (h.meets_popTwo ..).bind fun r s1 h1 => ?_
    obtain ⟨h1, -, hx, hy⟩ := h1
    rw [hkind] at hx hy
    exact drop (h1.meets_pushNew rfl (by nofun) rfl
      (.ones [r.1, r.2] rfl (.value hx rfl (.value hy rfl .nil))) rfl)
  · refine (h.meets_pop _).bind fun x s1 h1 => ?_
    obtain ⟨h1, hs1, hx⟩ := h1
    refine (h1.meets_internConstant ..).bind fun y s2 h2 => ?_
    obtain ⟨h2, hs2, hy⟩ := h2
    exact h2.meets_branchIf hp (hs2.ops.hasKind hx) hy
      (by rw [hs2.later.last, hs1.last]; exact hl) _
  · refine (h.meets_popTwo ..).bind fun r s1 h1 => ?_
    exact h1.1.meets_branchIf hp h1.2.2.1 h1.2.2.2 (by rw [h1.2.1.last]; exact hl) _
  · refine (h.meets_popTwo ..).bind fun r s1 h1 => ?_
    exact h1.1.meets_branchIf hp h1.2.2.1 h1.2.2.2 (by rw [h1.2.1.last]; exact hl) _
  · refine (h.meets_pop _).bind fun x s1 h1 => ?_
    obtain ⟨h1, hs1, hx⟩ := h1
    replace hx : s1.graph.HasKind x .object := hx
    refine (h1.meets_intern rfl (by nofun) rfl (.ones [x] rfl (.value hx rfl .nil))).bind
      fun y s2 h2 => ?_
    exact h2.1.meets_branchOn hp h2.2.2.1 (by rw [h2.2.1.later.last, hs1.last]; exact hl) _
  · refine (h.meets_successor hp 0).bind ?_
    rintro t s ⟨rfl, ht⟩
    exact h.meets_jump hp ht hl
  · exact h.meets_call hp hl _
  · exact h.meets_ret hp hl _
  · exact h.meets_switch hp hl c
  · exact h.meets_switch hp hl c
  · exact h.meets_leaveMethod hp hl ..
  · exact h.meets_throw hp hl _
  · exact h.meets_getField hp hl ..
  · exact h.meets_putField hp hl ..
  · exact h.meets_invoke hp hl ..
  · refine h.meets_withType hl _ fun name => ?_
    exact h.meets_appendValue hp hl rfl rfl (.ones [none] rfl (.noState .nil)) rfl _
  · refine h.meets_withType hl _ fun name => (h.meets_pop _).bind fun x s1 h1 => ?_
    obtain ⟨h1, hs1, hx⟩ := h1
    replace hx : s1.graph.HasKind x .object := hx
    exact h1.meets_appendValue hp (by rw [hs1.last]; exact hl) rfl rfl
      (.ones [x, none] rfl (.value hx rfl (.noState .nil))) rfl _
  · refine h.meets_withType hl _ fun name => (h.meets_pop _).bind fun x s1 h1 => ?_
    obtain ⟨h1, -, hx⟩ := h1
    replace hx : s1.graph.HasKind x .object := hx
    exact drop (h1.meets_pushNew rfl (by nofun) rfl (.ones [x] rfl (.value hx rfl .nil)) rfl)
  · refine (h.meets_pop _).bind fun x s1 h1 => ?_
    obtain ⟨h1, hs1, hx⟩ := h1
    replace hx : s1.graph.HasKind x .object := hx
    exact h1.meets_appendValue hp (by rw [hs1.last]; exact hl) rfl rfl
      (.ones [x, none] rfl (.value hx rfl (.noState .nil))) rfl _
  · trivial

end

end

end SeaOfNodes.Lift
