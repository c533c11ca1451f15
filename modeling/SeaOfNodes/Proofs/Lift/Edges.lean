import SeaOfNodes.Proofs.Flow.StraightLine
import SeaOfNodes.Proofs.Lift.Block

/-!
# The edges of a block

While a block is lifted, control comes to arrive at no blocks but its successors and the blocks where the
method is left.
-/

namespace SeaOfNodes

namespace Bytecode.Form

/-- Instructions that become a node which may raise an exception. -/
def isTrapping : Form → Bool
  | .arrayLoad _ | .arrayStore _ | .getField _ | .putField _ | .arrayLength | .newInstance | .checkCast
  | .invoke _ => true
  | _ => false

/-- Divisions of integers and their remainders. -/
def isDivision : Form → Bool
  | .arith op kind => op.canTrap && kind.isIntegral
  | _ => false

end Bytecode.Form

/-- What an instruction refers to is resolved. -/
def Method.resolves (m : Method) (c : Bytecode.Cursor) : Bool :=
  match c.form? with
  | some (.getField _) | some (.putField _) => (m.pool.field c.poolIndex.toNat).toOption.any (·.resolved)
  | some (.invoke _) => (m.pool.method c.poolIndex.toNat).toOption.any (·.resolved)
  | some .newInstance | some .checkCast | some .instanceOf =>
    (m.pool.type c.poolIndex.toNat).toOption.any (·.resolved)
  | _ => true

namespace Lift

open Graph Bytecode

variable {base : BlockMap} {m : Method} {b t : BlockId} {s0 s s' : State} {f : Frame} {α : Type}
  {post : State → Prop} {c : Cursor}

theorem Carries.mapM {R : State → State → Prop} [IsPreorder State R] {β : Type} {l : List β} {act : β → LiftM α}
    (h : ∀ x ∈ l, Carries R (act x)) : Carries R (l.mapM act) := by
  induction l with
  | nil => exact .pure _
  | cons x rest ih =>
    rw [List.mapM_cons]
    exact (h x (by simp)).seq fun _ => (ih fun y hy => h y (by simp [hy])).seq fun _ => .pure _

/-! ### Values -/

instance (first second : Kind) : Carries Rests (popTwo first second) := by
  unfold popTwo
  infer_instance

instance (w : Shuffle) : Carries Rests (shuffle w) := by
  refine .before fun s => ?_
  dsimp only
  split <;> infer_instance

instance (c : Cursor) (index : Nat) : Carries Rests (loadConstant c index) := by
  refine .before fun s => .before fun e => ?_
  split <;> infer_instance

instance (kind : Kind) (index : Nat) : Carries Rests (loadLocal kind index) := by
  unfold loadLocal
  infer_instance

instance (index : Nat) (slot : Slot) : Carries Rests (storeSlot index slot) := by
  unfold storeSlot
  infer_instance

instance (kind : Kind) (index : Nat) : Carries Rests (storeLocal kind index) := by
  unfold storeLocal
  split
  · refine .before fun slot => ?_
    split <;> infer_instance
  · infer_instance

instance (index : Nat) (delta : Int32) : Carries Rests (increment index delta) := by
  unfold increment
  infer_instance

instance (isStatic : Bool) : Carries Rests (popObject isStatic) := by
  unfold popObject
  infer_instance

instance rests_completeState (x : NodeId) (bci : Nat) : Carries Rests (completeState x bci) := by
  unfold completeState
  infer_instance

instance (id : BlockId) : Carries Rests (clearAfter id) := by
  refine .before fun s => ?_
  split <;> infer_instance

instance (line : State → Option Int32) :
    Carries SameFlow (modify fun s : State => { s with line := line s } : LiftM Unit) :=
  ⟨fun _ => ⟨rfl, rfl, rfl, rfl, rfl, rfl⟩⟩

instance (bci : Nat) : Carries SameFlow (markLine bci) := by
  refine .before fun s => ?_
  split <;> infer_instance

instance (what : String) : Carries SameFlow (unresolved what) := by
  refine .before fun s => ?_
  dsimp only
  split
  · exact ⟨fun _ => trivial⟩
  · infer_instance

/-! ### The block that is being lifted -/

/-- Control may go to a block: it went there before, or this is a successor or where the method is left. -/
def MayReach (base : BlockMap) (b : BlockId) (s0 : State) (t : BlockId) : Prop :=
  s0.Arrives t ∨ t ∈ (base.block b).successors ∨ base.blocks.size ≤ t.index

/-- The block `b` is being lifted, from the state `s0` on: control has come to arrive only at successors
and where the method is left. -/
structure Within (base : BlockMap) (m : Method) (b : BlockId) (s0 s : State) : Prop where
  method : s.method = m
  current : s.current = some b
  map : MapOk base s.map s.returnBlock s.unwindBlock
  kept : ∀ t, s0.Arrives t → s.Arrives t
  fresh : ∀ t, s.Arrives t → MayReach base b s0 t

namespace Within

theorem sameFlow (h : Within base m b s0 s) (hs : SameFlow s s') : Within base m b s0 s' where
  method := hs.method.trans h.method
  current := hs.current.trans h.current
  map := by
    rw [hs.map, hs.returnBlock, hs.unwindBlock]
    exact h.map
  kept t ht := hs.arrives.2 (h.kept t ht)
  fresh t ht := h.fresh t (hs.arrives.1 ht)

theorem reaches (h : Within base m b s0 s) (ht : MayReach base b s0 t) (hs : Reaches t s s') :
    Within base m b s0 s' where
  method := hs.method.trans h.method
  current := hs.current.trans h.current
  map := by
    rw [hs.map, hs.returnBlock, hs.unwindBlock]
    exact h.map
  kept u hu := by
    by_cases hut : u = t
    · exact hut ▸ hs.arrives
    · exact (hs.toOnlyAt.arrives hut).2 (h.kept u hu)
  fresh u hu := by
    by_cases hut : u = t
    · exact hut ▸ ht
    · exact h.fresh u ((hs.toOnlyAt.arrives hut).1 hu)

end Within

/-- The block goes on being lifted. -/
def Stays (base : BlockMap) (m : Method) (b : BlockId) (s0 s s' : State) : Prop :=
  Within base m b s0 s → Within base m b s0 s'

instance : IsPreorder State (Stays base m b s0) where
  refl _ := id
  trans _ _ _ h h' := h' ∘ h

instance (priority := low) {act : LiftM α} [Carries SameFlow act] : Carries (Stays base m b s0) act :=
  ⟨fun s => (carried SameFlow s).imp fun _ _ hs h => h.sameFlow hs⟩

section

variable [ht : Fact (MayReach base b s0 t)]

theorem stays_of_reaches {act : LiftM α} [Carries (Reaches t) act] : Carries (Stays base m b s0) act :=
  ⟨fun s => (carried (Reaches t) s).imp fun _ _ hs h => h.reaches ht.out hs⟩

instance (f : Frame) : Carries (Stays base m b s0) (target t f) := stays_of_reaches (t := t)

instance (f : Frame) : Carries (Stays base m b s0) (branchTarget t f) := stays_of_reaches (t := t)

instance : Carries (Stays base m b s0) (jumpTo t) := stays_of_reaches (t := t)

end

namespace Within

section

variable (h : Within base m b s0 s)

include h

theorem carry {act : LiftM α} [Carries (Stays base m b s0) act] :
    Ensures act s (fun _ s' => Within base m b s0 s') :=
  (carried (Stays base m b s0) s).imp fun _ _ hs => hs h

/-- The current block is a block of the method. -/
theorem block (hb : b.index < base.blocks.size) :
    s.map.block b = base.block b := h.map.block b hb

theorem meets_current :
    Ensures Lift.current s (fun c s' => b = c ∧ s = s') :=
  Lift.meets_current.ensures fun _ _ hc => ⟨Option.mem_unique h.current hc.2, hc.1.symm⟩

theorem meets_successor (hb : b.index < base.blocks.size) (i : Nat) :
    Ensures (successor i) s (fun t s' => (base.block b).successors[i]? = some t ∧ s' = s) := by
  unfold successor
  refine h.meets_current.bind ?_
  rintro _ _ ⟨rfl, rfl⟩
  refine meets_observe.2 ?_
  rw [h.block hb]
  split
  · exact ⟨‹_›, rfl⟩
  · trivial

/-- The method comes to have another block through which it is left. -/
theorem opens (ho : Opens base s t s') : Within base m b s0 s' ∧ MayReach base b s0 t := by
  cases ho with
  | known hid => exact ⟨h, .inr (.inr (h.map.leaves t hid).1)⟩
  | new _ _ hm _ hid =>
    exact ⟨⟨h.method, h.current, hm, h.kept, h.fresh⟩, .inr (.inr (hm.leaves t hid).1)⟩

/-! ### Exceptions -/

theorem meets_handlerBlock (hb : b.index < base.blocks.size) (bci : Nat) :
    Ensures (handlerBlock bci) s (fun t s' => Within base m b s0 s' ∧ MayReach base b s0 t) := by
  refine (Lift.meets_handlerBlock h.map bci).ensures ?_
  rintro t s' (⟨b', hb', ht, rfl⟩ | ho)
  · obtain rfl : b = b' := Option.mem_unique h.current hb'
    exact ⟨h, .inr (.inl (h.block hb ▸ ht))⟩
  · exact h.opens ho

end

end Within

instance (exception : Option NodeId) (bci : Nat) : Carries Rests (exceptionEntry exception bci) := by
  refine .before fun s => ?_
  cases exception <;> infer_instance

instance : Carries Rests Lift.current := by
  refine .before fun s => ?_
  split <;> infer_instance

section

variable [hb : Fact (b.index < base.blocks.size)]

instance (exception : Option NodeId) (bci : Nat) : Carries (Stays base m b s0) (raise exception bci) :=
  carries_iff.2 fun s h => (h.meets_handlerBlock hb.out bci).bind fun handler s1 h1 => by
    have := Fact.mk h1.2
    exact h1.1.carry

instance (x : NodeId) (bci : Nat) : Carries (Stays base m b s0) (appendTrapping x bci) := by
  refine .before fun here => .before fun s => ?_
  dsimp only
  split <;> infer_instance

/-! ### Branches -/

theorem stays_successor {k : BlockId → LiftM α} {i : Nat}
    (hk : ∀ t, MayReach base b s0 t → Carries (Stays base m b s0) (k t)) :
    Carries (Stays base m b s0) (successor i >>= k) :=
  carries_iff.2 fun s h => (h.meets_successor hb.out i).bind <| by
    rintro t _ ⟨ht, rfl⟩
    have := hk t (.inr (.inl (List.mem_of_getElem? ht)))
    exact h.carry

instance : Carries (Stays base m b s0) fallThrough := stays_successor fun t ht => by
  have := Fact.mk ht
  infer_instance

instance (condition : NodeId) (negated : Bool) : Carries (Stays base m b s0) (branchOn condition negated) := by
  refine stays_successor fun taken htaken => stays_successor fun other hother => ?_
  have := Fact.mk htaken
  have := Fact.mk hother
  infer_instance

instance (x : NodeId) (condition : Condition) (y : NodeId) :
    Carries (Stays base m b s0) (branchIf x condition y) :=
  .before fun _ => inferInstance

instance (map : BlockMap) (successors : List BlockId) (bci : Int) :
    Carries Rests (successorAt map successors bci) := by
  unfold successorAt
  split <;> infer_instance

instance (c : Cursor) : Carries (Stays base m b s0) (switch c) := by
  refine .before fun value => ?_
  split
  swap
  · infer_instance
  refine carries_iff.2 fun s h => meets_read.2 (h.meets_current.bind ?_)
  rintro _ _ ⟨rfl, rfl⟩
  dsimp only
  rw [h.block hb.out]
  have (f : Frame) : Carries (Stays base m b s0) ((base.block b).successors.mapM (branchTarget · f)) :=
    Carries.mapM fun t ht => by
      have := Fact.mk (show MayReach base b s0 t from .inr (.inl ht))
      infer_instance
  have (cases : List (Int32 × Int)) (map : BlockMap) (successors : List BlockId) :
      Carries Rests (cases.mapM fun row => successorAt map successors row.2) := Carries.mapM inferInstance
  exact h.carry

instance (kind : Option Kind) (bci : Nat) : Carries (Stays base m b s0) (leaveMethod kind bci) := by
  have hpop : Carries Rests (kind.mapM pop) := by
    cases kind with
    | none => exact .pure _
    | some kind => exact .before fun _ => .pure _
  have hjump : Carries (Stays base m b s0) (do jumpTo (← returnBlock bci)) :=
    carries_iff.2 fun s h => (meets_returnBlock h.map bci).bind fun t s1 ho => by
      have := Fact.mk (h.opens ho).2
      exact (h.opens ho).1.carry
  refine .before fun value => .before fun s => ?_
  dsimp only
  split
  · exact ⟨fun _ => trivial⟩
  refine .before fun _ => ?_
  cases value with
  | none => exact hjump
  | some value => exact .before fun _ => hjump

end

section

variable (hbase : base.WellOrdered) (hb : b ∈ base.order)

include hbase hb

theorem stays_call (returnBci : Nat) : Carries (Stays base m b s0) (call returnBci) := by
  refine carries_iff.2 fun s h => h.meets_current.bind ?_
  rintro _ _ ⟨rfl, rfl⟩
  refine meets_observe.2 ?_
  rw [h.block (hbase.range b hb)]
  split
  swap
  · trivial
  rename_i callee hcallee
  have := Fact.mk (show MayReach base b s0 callee from .inr (.inl (hbase.callee b hb callee hcallee)))
  exact h.carry

theorem stays_ret (index : Nat) : Carries (Stays base m b s0) (ret index) := by
  refine .before fun s => .before fun held => carries_iff.2 fun s h => h.meets_current.bind ?_
  rintro _ _ ⟨rfl, rfl⟩
  refine meets_observe.2 ?_
  rw [h.block (hbase.range b hb)]
  split
  swap
  · trivial
  rename_i continuation hcontinuation
  have := Fact.mk (show MayReach base b s0 continuation from
    .inr (.inl (hbase.continuation b hb continuation hcontinuation)))
  refine meets_observe.2 ?_
  dsimp only
  split
  · trivial
  · exact h.carry

end

/-! ### Instructions -/

theorem meets_ofExcept_any {r : Except Bailout α} {post : α → State → Prop}
    (h : ∀ a, r = .ok a → post a s) : Ensures (ofExcept r) s post := by
  cases r with
  | ok a => exact h a rfl
  | error _ => trivial

theorem meets_withType {index : Nat} {act : String → LiftM Unit}
    (hact : ∀ name, Ensures (act name) s (fun _ s' => post s'))
    (hunresolved : (s.method.pool.type index).toOption.any (·.resolved) = false →
      ∀ what, Ensures (unresolved what) s (fun _ s' => post s')) :
    Ensures (withType index act) s (fun _ s' => post s') := by
  unfold withType
  refine meets_read.2 (meets_bind.2 (meets_ofExcept_any fun type htype => ?_))
  split
  · rename_i hresolved
    exact hunresolved (by rw [htype]; simpa [Except.toOption] using hresolved) _
  · exact hact _

/-- An instruction that may trap pops its operands and becomes a node, unless what it refers to is not
resolved. -/
theorem meets_trapping {form : Form} (hform : c.form? = some form) (htraps : form.isTrapping)
    (hnode : ∀ n (k : NodeId → LiftM Unit) s1, goesOn n.cls → Rests s s1 →
      (∀ x, Carries Rests (k x)) → Ensures (do
        let x ← onGraph (Graph.add n)
        appendTrapping x c.bci
        k x) s1 (fun _ s' => post s'))
    (hunresolved : s.method.resolves c = false →
      ∀ what, Ensures (unresolved what) s (fun _ s' => post s')) :
    Ensures (instruction c) s (fun _ s' => post s') := by
  unfold Method.resolves at hunresolved
  unfold instruction
  rw [hform] at hunresolved ⊢
  have hpop {α : Type} {act : LiftM α} [Carries Rests act] {s1 : State} (h1 : Rests s s1) :
      Ensures act s1 (fun _ s2 => Rests s s2) :=
    (carried Rests s1).imp fun _ s2 h2 => IsTrans.trans s s1 s2 h1 h2
  have hs : Rests s s := Std.Refl.refl s
  cases form <;> cases htraps
  case arrayLoad element =>
    refine (hpop hs).bind fun index s1 h1 => ?_
    refine (hpop h1).bind fun array s2 h2 => ?_
    exact hnode _ _ s2 rfl h2 inferInstance
  case arrayStore element =>
    refine (hpop hs).bind fun value s1 h1 => ?_
    refine (hpop h1).bind fun index s2 h2 => ?_
    refine (hpop h2).bind fun array s3 h3 => ?_
    have := hnode (.storeIndexed array index element value) _ s3 rfl h3 fun _ => .pure ⟨⟩
    simpa using this
  case getField isStatic =>
    unfold getField
    refine meets_read.2 (meets_bind.2 (meets_ofExcept_any fun field hfield => ?_))
    split
    · rename_i hresolved
      exact hunresolved (by rw [hfield]; simpa [Except.toOption] using hresolved) _
    · refine (hpop hs).bind fun object s1 h1 => ?_
      exact hnode _ _ s1 rfl h1 inferInstance
  case putField isStatic =>
    unfold putField
    refine meets_read.2 (meets_bind.2 (meets_ofExcept_any fun field hfield => ?_))
    split
    · rename_i hresolved
      exact hunresolved (by rw [hfield]; simpa [Except.toOption] using hresolved) _
    · refine (hpop hs).bind fun value s1 h1 => ?_
      refine (hpop h1).bind fun object s2 h2 => ?_
      have := hnode (.storeField object field.qualifiedName field.kind value) _ s2 rfl h2 fun _ => .pure ⟨⟩
      simpa using this
  case invoke receiver =>
    unfold invoke
    refine meets_read.2 (meets_bind.2 (meets_ofExcept_any fun callee hcallee => ?_))
    split
    · rename_i hresolved
      exact hunresolved (by rw [hcallee]; simpa [Except.toOption] using hresolved) _
    · refine meets_bind.2 (meets_ofExcept_any fun signature _ => ?_)
      have hcall {s1 : State} (h1 : Rests s s1) (arguments : List NodeId) : Ensures (do
          let id ← onGraph (Graph.add (.invoke callee.qualifiedName arguments signature.result))
          appendTrapping id c.bci
          if signature.result ≠ .void then push signature.result id) s1 (fun _ s' => post s') := by
        exact hnode _ _ s1 rfl h1 inferInstance
      refine (hpop hs).bind fun arguments s1 h1 => ?_
      dsimp only
      by_cases hreceiver : receiver
      · rw [if_pos hreceiver]
        exact (hpop h1).bind fun object s2 h2 => hcall h2 (object :: arguments)
      · rw [if_neg hreceiver]
        exact hcall h1 arguments
  case newInstance =>
    exact meets_withType (fun name => hnode _ _ s rfl hs inferInstance) hunresolved
  case checkCast =>
    refine meets_withType (fun name => ?_) hunresolved
    exact (hpop hs).bind fun x s1 h1 => hnode _ _ s1 rfl h1 inferInstance
  case arrayLength =>
    exact (hpop hs).bind fun x s1 h1 => hnode _ _ s1 rfl h1 inferInstance

theorem rests_instruction {form : Form} (hform : c.form? = some form)
    (hcomputes : form.computes) : Carries Rests (instruction c) := by
  unfold instruction
  rw [hform]
  cases form <;> cases hcomputes
  all_goals infer_instance

/-- Testing a type works on values only, if the type is resolved. -/
theorem meets_instanceOf (hform : c.form? = some .instanceOf) (hrests : ∀ s', Rests s s' → post s')
    (hunresolved : s.method.resolves c = false →
      ∀ what, Ensures (unresolved what) s (fun _ s' => post s')) :
    Ensures (instruction c) s (fun _ s' => post s') := by
  unfold Method.resolves at hunresolved
  unfold instruction
  rw [hform] at hunresolved ⊢
  refine meets_withType (fun name => ?_) hunresolved
  exact (carried Rests s).imp fun _ s' => hrests s'

theorem stays_instruction (hbase : base.WellOrdered) (hb : b ∈ base.order) (c : Cursor) :
    Carries (Stays base m b s0) (instruction c) := by
  have := Fact.mk (hbase.range b hb)
  refine carries_iff.2 fun s h => ?_
  cases hform : c.form? with
  | none =>
    unfold instruction
    rw [hform]
    trivial
  | some form =>
    by_cases hcomputes : form.computes
    · have := rests_instruction hform hcomputes
      exact h.carry
    by_cases htraps : form.isTrapping
    · refine meets_trapping hform htraps (fun n k s1 _ h1 hk => ?_) fun _ what => h.carry
      exact (h.sameFlow h1.toSameFlow).carry
    by_cases htype : form = .instanceOf
    · exact meets_instanceOf (htype ▸ hform) (fun s' hs => h.sameFlow hs.toSameFlow) fun _ what => h.carry
    unfold instruction
    rw [hform]
    cases form <;>
      first | exact absurd rfl hcomputes | exact absurd rfl htraps | exact absurd rfl htype | trivial | skip
    case branch operands condition => cases operands <;> exact h.carry
    case branchNull ifNull => exact h.carry
    case jump far => exact (h.carry : Ensures fallThrough s _)
    case call far =>
      have : Carries (Stays base m b s0) (call c.next) := stays_call hbase hb c.next
      exact h.carry
    case ret =>
      have : Carries (Stays base m b s0) (ret c.localIndex) := stays_ret hbase hb c.localIndex
      exact h.carry
    case tableSwitch => exact h.carry
    case lookupSwitch => exact h.carry
    case methodReturn kind => exact h.carry
    case throw => exact h.carry

/-! ### Blocks -/

instance (bci : Nat) : Carries SameFlow (markLineAsked bci) := by
  unfold markLineAsked
  infer_instance

section

variable [hb : Fact (b.index < base.blocks.size)]

instance (handler next : BlockId) [Fact (MayReach base b s0 handler)] [Fact (MayReach base b s0 next)]
    (typeName : String) (bci : Int) : Carries (Stays base m b s0) (testType typeName handler next bci) := by
  refine .before fun s => ?_
  split
  · refine .before fun checked => .before fun s => .before fun _ => .before fun _ => .before fun _ => ?_
    refine .before fun s => .before fun _ => .before fun _ => .before fun _ => .before fun s => .before fun _ => ?_
    exact .before fun _ => .before fun _ => .before fun _ => .before fun _ => .pure _
  · infer_instance

instance (handler : Nat) (bci : Int) : Carries (Stays base m b s0) (dispatch b handler bci) := by
  refine carries_iff.2 fun s h => meets_read.2 ?_
  split
  swap
  · trivial
  dsimp only
  rw [h.block hb.out]
  split
  swap
  · trivial
  rename_i entry hentry
  have := Fact.mk (show MayReach base b s0 entry from .inr (.inl (List.mem_of_head? hentry)))
  split
  · exact h.carry
  split
  · exact h.carry
  split
  · rename_i next hnext
    have := Fact.mk (show MayReach base b s0 next from .inr (.inl (List.mem_of_getElem? hnext)))
    rw [pure_bind]
    exact h.carry
  · refine (meets_unwindBlock h.map bci.toNat).bind fun next s1 ho => ?_
    have := Fact.mk (h.opens ho).2
    exact (h.opens ho).1.carry

end

theorem stays_openLoop (hs0 : s0.Arrives b) (bci : Int) : Carries (Stays base m b s0) (openLoop b bci) := by
  have := Fact.mk (show MayReach base b s0 b from .inl hs0)
  have (first : NodeId) (f : Frame) : Carries (Stays base m b s0) (setArrival b ⟨first, some f⟩) :=
    stays_of_reaches (t := b)
  refine .before fun s => .before fun loopBegin => .before fun _ => .before fun s => .before fun f => ?_
  infer_instance

theorem stays_instructions (hbase : base.WellOrdered) (hb : b ∈ base.order) (stop : Int) (cursors : List Cursor) :
    Carries (Stays base m b s0) (instructions b stop cursors) := by
  have := Fact.mk (hbase.range b hb)
  induction cursors with
  | nil => exact .pure _
  | cons c rest ih =>
    refine carries_iff.2 fun s h => meets_instructions_cons.2 (h.carry.imp fun _ s1 h1 => ?_)
    have : Carries (Stays base m b s0) (instruction c) := stays_instruction hbase hb c
    refine h1.carry.imp fun _ s2 h2 => meets_read.2 ?_
    split
    swap
    · exact h2
    split <;> exact h2.carry

theorem stays_bytecodes (hbase : base.WellOrdered) (hb : b ∈ base.order) (hs0 : s0.Arrives b) (block : Block) :
    Carries (Stays base m b s0) (bytecodes b block) := by
  have (stop : Int) (cursors : List Cursor) : Carries (Stays base m b s0) (instructions b stop cursors) :=
    stays_instructions hbase hb stop cursors
  have (bci : Int) : Carries (Stays base m b s0) (openLoop b bci) := stays_openLoop hs0 bci
  unfold bytecodes
  infer_instance

/-- A block is entered. -/
theorem within_enter (hmethod : s.method = m) (hmap : MapOk base s.map s.returnBlock s.unwindBlock)
    (first : NodeId) (f : Frame) :
    Within base m b s { s with current := some b, last := some first, frame := f } :=
  ⟨hmethod, rfl, hmap, fun _ ht => ht, fun _ ht => .inl ht⟩

/-- Lifting a block leads to its successors only, and out of the method. -/
theorem meets_enteredBlock_within (hbase : base.WellOrdered) (hb : b ∈ base.order) (hmethod : s.method = m)
    (hmap : MapOk base s.map s.returnBlock s.unwindBlock) (hs : s.Arrives b) (first : NodeId) (f : Frame) :
    Ensures (enteredBlock b first f) s (fun _ s' => Within base m b s s') := by
  have := Fact.mk (hbase.range b hb)
  have (block : Block) : Carries (Stays base m b s) (bytecodes b block) := stays_bytecodes hbase hb hs block
  have hstate {s' : State} (h : Within base m b s s') (block : Block) {k : LiftM Unit}
      (hk : ∀ s'', Within base m b s s'' → Ensures k s'' (fun _ s' => Within base m b s s')) :
      Ensures (do
        if (← classOf first) = .merge then setState first (← get).frame block.stateBci
        k) s' (fun _ s' => Within base m b s s') := by
    refine h.carry.bind fun cls s1 h1 => ?_
    split
    · exact meets_read.2 (h1.carry.bind fun _ s2 h2 => hk s2 h2)
    · exact hk s1 h1
  unfold enteredBlock
  refine meets_change.2 (meets_observe.2 ?_)
  refine hstate (within_enter hmethod hmap first _) _ fun s1 h1 => ?_
  split
  · refine meets_read.2 ?_
    dsimp only
    split
    · exact meets_bind.2 (meets_pure.2 h1.carry)
    · exact h1.carry.bind fun x s2 h2 => meets_bind.2 (meets_pure.2 h2.carry)
  all_goals exact h1.carry

end Lift

end SeaOfNodes
