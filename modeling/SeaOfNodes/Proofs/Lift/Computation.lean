import SeaOfNodes.Lift.Instruction
import SeaOfNodes.Proofs.Bytecode.Machine
import SeaOfNodes.Proofs.Flow.StraightLine
import SeaOfNodes.Proofs.Lift.Invariant

/-!
# Instructions that compute

A frame agrees with the operand-stack machine when its stack holds nodes for the words of the machine, and
so do those of its locals that are known. Every instruction that computes keeps that.
-/

namespace SeaOfNodes

open Bytecode Graph

@[simp] theorem Kind.isTwoSlot_onStack (kind : Kind) : kind.onStack.isTwoSlot = kind.isTwoSlot := by
  cases kind <;> rfl

variable {α : Type} {I : Interpretation α} {g g' : Graph} {f f' : Frame} {w : Machine α} {x : NodeId} {v : α}
  {kind : Kind}

/-! ### Frames and the machine -/

/-- A slot of the stack and a word hold the same value, or both are empty. -/
inductive Holds (g : Graph) (I : Interpretation α) : Option Slot → Option α → Prop
  | empty : Holds g I none none
  | value {slot : Slot} {v : α} (h : g.Denotes I slot.node v) : Holds g I (some slot) (some v)

/-- The slots that are not empty hold the values of the words at their places. -/
structure Knows (g : Graph) (I : Interpretation α) (slots : List (Option Slot)) (words : List (Option α)) :
    Prop where
  size : slots.length = words.length
  value : ∀ (i : Nat) (slot : Slot), (slots[i]?).join = some slot → ∃ v, (words[i]?).join = some v ∧ g.Denotes I slot.node v

theorem join_getElem?_set {β : Type} {slots : List (Option β)} {i j : Nat} {slot : Option β} :
    ((slots.set i slot)[j]?).join =
      if i = j then if i < slots.length then slot else none else (slots[j]?).join := by
  rw [List.getElem?_set]
  split_ifs <;> rfl

namespace Knows

variable {slots : List (Option Slot)} {words : List (Option α)}

section

variable (h : Knows g I slots words)

include h

theorem retains (hg : Retains g g') : Knows g' I slots words := by
  refine ⟨h.size, fun i slot hs => ?_⟩
  obtain ⟨v, hw, hv⟩ := h.value i slot hs
  exact ⟨v, hw, hg.denotes hv⟩

theorem set {slot : Slot} (hv : g.Denotes I slot.node v) (i : Nat) :
    Knows g I (slots.set i (some slot)) (words.set i (some v)) := by
  refine ⟨by simp [h.size], fun j s hs => ?_⟩
  rw [join_getElem?_set] at hs ⊢
  rw [h.size] at hs
  split_ifs at hs ⊢
  · obtain rfl := Option.some.inj hs
    exact ⟨v, rfl, hv⟩
  · exact h.value j s hs

/-- Nothing need be known of a word. -/
theorem sub {slots' : List (Option Slot)} (hsize : slots'.length = slots.length)
    (hsub : ∀ (i : Nat) (slot : Slot), (slots'[i]?).join = some slot → (slots[i]?).join = some slot) :
    Knows g I slots' words :=
  ⟨hsize.trans h.size, fun i slot hs => h.value i slot (hsub i slot hs)⟩

theorem forget (i : Nat) : Knows g I (slots.set i none) words := by
  refine h.sub (by simp) fun j s hs => ?_
  rw [join_getElem?_set] at hs
  split_ifs at hs
  exact hs

theorem clear (i : Nat) : Knows g I (slots.set i none) (words.set i none) := by
  refine ⟨by simp [h.size], fun j s hs => ?_⟩
  rw [join_getElem?_set] at hs ⊢
  split_ifs at hs ⊢
  exact h.value j s hs

end

end Knows

/-- The stack of the frame is that of the machine, and so are the locals that the frame knows. -/
structure Agrees (g : Graph) (I : Interpretation α) (f : Frame) (w : Machine α) : Prop where
  stack : List.Forall₂ (Holds g I) f.stack w.stack
  locals : Knows g I f.locals w.locals

namespace Agrees

theorem retains (h : Agrees g I f w) (hg : Retains g g') : Agrees g' I f w where
  stack := h.stack.imp fun _ _ hs => by
    cases hs with
    | empty => exact .empty
    | value hv => exact .value (hg.denotes hv)
  locals := h.locals.retains hg

theorem push (h : Agrees g I f w) (hx : g.Denotes I x v) (kind : Kind) :
    Agrees g I (f.push kind x) (w.push kind v) := by
  have hvalue : Holds g I (some (.of x kind)) (some v) := .value hx
  unfold Frame.push Frame.pushSlot Machine.push
  dsimp only
  split
  · exact ⟨.cons .empty (.cons hvalue h.stack), h.locals⟩
  · exact ⟨.cons hvalue h.stack, h.locals⟩

/-- Popping from the frame is popping from the machine. -/
theorem pop (h : Agrees g I f w) {slot : Slot} {rest : List (Option Slot)}
    (hstack : f.stack = if kind.onStack.isTwoSlot then none :: some slot :: rest else some slot :: rest) :
    ∃ v w', w.pop kind = some (v, w') ∧ g.Denotes I slot.node v ∧ Agrees g I { f with stack := rest } w' := by
  have hw := h.stack
  obtain ⟨locals, words⟩ := w
  rw [hstack, Kind.isTwoSlot_onStack] at hw
  unfold Machine.pop
  cases htwo : kind.isTwoSlot <;> rw [htwo] at hw
  · obtain ⟨word, rest', hword, hrest, hwords⟩ := List.forall₂_cons_left_iff.1 hw
    obtain rfl : words = _ := hwords
    cases hword with
    | value hv => exact ⟨_, _, rfl, hv, hrest, h.locals⟩
  · obtain ⟨upper, rest', hupper, hw, hwords⟩ := List.forall₂_cons_left_iff.1 hw
    obtain ⟨word, rest'', hword, hrest, rfl⟩ := List.forall₂_cons_left_iff.1 hw
    obtain rfl : words = _ := hwords
    cases hupper with
    | empty =>
      cases hword with
      | value hv => exact ⟨_, _, rfl, hv, hrest, h.locals⟩

theorem load (h : Agrees g I f w) {index : Nat} (hl : f.load index kind = .ok x) :
    ∃ v, w.load index = some v ∧ g.Denotes I x v := by
  unfold Frame.load at hl
  dsimp only at hl
  split at hl
  · rename_i slot hslot
    split at hl
    · obtain rfl := Except.ok.inj hl
      exact h.locals.value index slot hslot
    · cases hl
  · cases hl

/-- Writing a local. The frame forgets a value of two slots whose upper half is overwritten. -/
theorem store (h : Agrees g I f w) {index : Nat} {slot : Slot} (hv : g.Denotes I slot.node v)
    (hkind : slot.kind.isTwoSlot = kind.isTwoSlot) (hs : f.store index (some slot) = .ok f') :
    ∃ w', w.store kind index v = some w' ∧ Agrees g I f' w' := by
  unfold Frame.store at hs
  simp only [Option.any_some, Option.isSome_some, Bool.true_and, hkind] at hs
  obtain ⟨-, hs⟩ | ⟨hroom, hs⟩ := ite_eq_iff.1 hs
  · cases hs
  obtain rfl := Except.ok.inj hs
  have hcount : index + kind.slotCount ≤ w.locals.length := by
    rw [← h.locals.size]
    revert hroom
    cases kind <;> simp [Kind.isTwoSlot, Kind.slotCount] <;> omega
  have hset : Knows g I ((if (decide (0 < index) &&
      (f.localAt? (index - 1)).any (·.kind.isTwoSlot)) = true then f.locals.set (index - 1) none
      else f.locals).set index (some slot)) (w.locals.set index (some v)) := by
    refine Knows.set ?_ hv index
    split
    · exact h.locals.forget _
    · exact h.locals
  refine ⟨_, if_pos hcount, h.stack, ?_⟩
  dsimp only
  split
  · exact hset.clear _
  · exact hset

end Agrees

/-- A rearrangement acts on related stacks alike. -/
theorem Shuffle.forall₂_apply {β γ : Type} {R : β → γ → Prop} {xs : List β} {ys : List γ}
    (h : List.Forall₂ R xs ys) {s : Shuffle} (hs : s.arity ≤ xs.length) :
    s.places.1 ≤ ys.length ∧ ∃ zs, s.places.2.mapM (ys[·]?) = some zs ∧
      List.Forall₂ R (s.apply xs) (zs ++ ys.drop s.places.1) := by
  rcases h with _ | ⟨ha, _ | ⟨hb, _ | ⟨hc, _ | ⟨hd, h⟩⟩⟩⟩ <;> cases s <;>
    simp_all [Shuffle.arity, Shuffle.places, Shuffle.apply]

theorem Agrees.shuffle (h : Agrees g I f w) {s : Shuffle} (hs : s.arity ≤ f.stack.length) :
    ∃ w', w.shuffle s = some w' ∧ Agrees g I { f with stack := s.apply f.stack } w' := by
  obtain ⟨hcount, words, hwords, hrel⟩ := Shuffle.forall₂_apply h.stack hs
  refine ⟨{ w with stack := words ++ w.stack.drop s.places.1 }, ?_, hrel, h.locals⟩
  unfold Machine.shuffle
  dsimp only
  rw [if_pos hcount, hwords]
  rfl

namespace Lift

variable {s s' s'' : State} {c : Cursor} {n : Node} {vs : List α} {β : Type}

/-! ### Instructions -/

/-- Nothing is returned yet, and the frame agrees with the machine. -/
structure Tracks (I : Interpretation α) (s : State) (w : Machine α) : Prop where
  linear : s.graph.Linear none
  agrees : Agrees s.graph I s.frame w

/-- Only the graph and the frame change, and the graph retains its nodes. -/
structure Computes (s s' : State) : Prop where
  retains : Retains s.graph s'.graph
  eq : s' = { s with graph := s'.graph, frame := s'.frame }

theorem Computes.trans (h : Computes s s') (h' : Computes s' s'') : Computes s s'' :=
  ⟨h.retains.trans h'.retains, by rw [h'.eq, h.eq]⟩

theorem computes_frame (f : Frame) : Computes s { s with frame := f } := ⟨.refl _, rfl⟩

/-- The frame has come to agree with `w` by such changes. -/
structure Stepped (I : Interpretation α) (s s' : State) (w : Machine α) : Prop extends
  Tracks I s' w, Computes s s'

theorem Computes.stepped (h : Computes s s') (h' : Stepped I s' s'' w) : Stepped I s s'' w :=
  ⟨h'.toTracks, h.trans h'.toComputes⟩

theorem meets_ofExcept_ok {r : Except Bailout β} {post : β → State → Prop} :
    Ensures (ofExcept r) s post ↔ ∀ b, r = .ok b → post b s := by
  cases r with
  | ok b => simp [ofExcept]
  | error cause => simp [ofExcept, bailout]

theorem meets_onFrame_pops {act : FrameM β} {post : List (Option Slot) → β → List (Option Slot) → Prop}
    (h : Frame.Pops act post) :
    Ensures (onFrame act) s (fun b s' => ∃ rest, s' = { s with frame := { s.frame with stack := rest } } ∧
      post s.frame.stack b rest) := by
  obtain ⟨rest, -, hrun, hpost⟩ := h s.frame
  refine meets_read.2 (meets_bind.2 (meets_set.2 (meets_ofExcept_ok.2 fun b hb => ?_)))
  exact ⟨rest, by rw [show (act s.frame).2 = _ from hrun], hpost b hb⟩

namespace Tracks

section

variable (h : Tracks I s w)

include h

theorem meets_pop (kind : Kind) :
    Ensures (pop kind) s (fun x s' => ∃ v w', w.pop kind = some (v, w') ∧ s'.graph.Denotes I x v ∧
      Stepped I s s' w') := by
  refine (meets_onFrame_pops (Frame.pops_pop kind)).imp fun x s' hs => ?_
  obtain ⟨rest, rfl, slot, ⟨rfl, -⟩, hstack⟩ := hs
  obtain ⟨v, w', hw, hx, hagrees⟩ := h.agrees.pop hstack
  exact ⟨v, w', hw, hx, ⟨h.linear, hagrees⟩, computes_frame _⟩

theorem meets_push (hx : s.graph.Denotes I x v) (kind : Kind) :
    Ensures (push kind x) s (fun _ s' => Stepped I s s' (w.push kind v)) := by
  unfold push
  split
  · trivial
  · exact ⟨⟨h.linear, h.agrees.push hx kind⟩, computes_frame _⟩

/-- A node of an operation that computes. -/
theorem meets_intern (hvs : s.graph.Supplies I (n.slots .inputs) vs) (hv : I.apply n.op vs = some v) :
    Ensures (intern n) s (fun x s' => s'.graph.Denotes I x v ∧ Stepped I s s' w) := by
  refine meets_onGraph.2 ((h.linear.meets_intern hvs hv).imp fun x g' h' => ?_)
  obtain ⟨hx, hg⟩ := h'
  exact ⟨hx, ⟨hg.linear, h.agrees.retains hg.retains⟩, hg.retains, rfl⟩

theorem meets_pushNew (hvs : s.graph.Supplies I (n.slots .inputs) vs)
    (hv : I.apply n.op vs = some v) (kind : Kind) :
    Ensures (pushNew kind n) s (fun _ s' => Stepped I s s' (w.push kind v)) := by
  refine (h.meets_intern hvs hv).bind fun x s1 h1 => ?_
  obtain ⟨hx, h1⟩ := h1
  exact (h1.meets_push hx kind).imp fun _ s2 h2 => h1.stepped h2

theorem meets_pushConstant (kind : Kind) (bits : Int64) :
    Ensures (pushNew kind (.constant kind bits)) s
      (fun _ s' => Stepped I s s' (w.push kind (I.constant kind bits))) :=
  h.meets_pushNew (n := .constant kind bits) supplies_nil rfl kind

theorem meets_loadConstant (c : Cursor) (index : Nat) :
    Ensures (loadConstant c index) s (fun _ s' => ∃ entry kind bits, s.method.pool.get? index = some entry ∧
      entry.number? = some (kind, bits) ∧ Stepped I s s' (w.push kind (I.constant kind bits))) := by
  unfold loadConstant
  refine meets_read.2 (meets_bind.2 (meets_ofExcept_ok.2 fun entry hentry => ?_))
  have hget : s.method.pool.get? index = some entry := by
    unfold Pool.entry at hentry
    split at hentry
    · rename_i e he
      rw [he, Except.ok.inj hentry]
    · cases hentry
  cases entry with
  | int _ | long _ | float _ | double _ =>
    exact (h.meets_pushConstant ..).imp fun _ _ hs => ⟨_, _, _, hget, rfl, hs⟩
  | _ => trivial

theorem meets_loadLocal (kind : Kind) (index : Nat) :
    Ensures (loadLocal kind index) s (fun _ s' => ∃ v, w.load index = some v ∧
      Stepped I s s' (w.push kind v)) := by
  unfold loadLocal
  refine meets_read.2 (meets_bind.2 (meets_ofExcept_ok.2 fun x hx => ?_))
  obtain ⟨v, hw, hv⟩ := h.agrees.load hx
  exact (h.meets_push hv kind).imp fun _ _ hs => ⟨v, hw, hs⟩

theorem meets_storeSlot (slot : Slot) (hv : s.graph.Denotes I slot.node v)
    (hkind : slot.kind.isTwoSlot = kind.isTwoSlot) (index : Nat) :
    Ensures (storeSlot index slot) s (fun _ s' => ∃ w', w.store kind index v = some w' ∧
      Stepped I s s' w') := by
  unfold storeSlot
  refine meets_read.2 (meets_bind.2 (meets_ofExcept_ok.2 fun f hf => ?_))
  obtain ⟨w', hw, hagrees⟩ := h.agrees.store hv hkind hf
  exact ⟨w', hw, ⟨h.linear, hagrees⟩, computes_frame _⟩

theorem meets_storeLocal (kind : Kind) (index : Nat) :
    Ensures (storeLocal kind index) s (fun _ s' => ∃ v w1 w', w.pop kind = some (v, w1) ∧
      w1.store kind index v = some w' ∧ Stepped I s s' w') := by
  unfold storeLocal
  split
  · -- the slot is stored as it is, so that it may also be a return address
    rename_i hobject
    subst hobject
    refine (meets_onFrame_pops Frame.pops_popSlot).bind fun slot s1 h1 => ?_
    obtain ⟨rest, rfl, hstack⟩ := h1
    have hstacks := h.agrees.stack
    rw [hstack] at hstacks
    obtain ⟨word, rest', hword, hrest, hwords⟩ := List.forall₂_cons_left_iff.1 hstacks
    cases hword with
    | empty => trivial
    | @value value v hv =>
      split
      · rename_i value' hvalue
        obtain ⟨hvalue, hkind⟩ := Option.filter_eq_some_iff.1 hvalue
        obtain rfl := Option.some.inj hvalue
        have htwo : value.kind.isTwoSlot = Kind.object.isTwoSlot := by
          rcases Bool.or_eq_true_iff.1 hkind with hk | hk <;> simp [of_decide_eq_true hk, Kind.isTwoSlot]
        have h1 : Tracks I { s with frame := { s.frame with stack := rest } } { w with stack := rest' } :=
          ⟨h.linear, hrest, h.agrees.locals⟩
        refine (h1.meets_storeSlot value hv htwo index).imp fun _ s2 h2 => ?_
        obtain ⟨w', hw', h2⟩ := h2
        refine ⟨v, _, w', ?_, hw', (computes_frame _).stepped h2⟩
        simp [Machine.pop, Kind.isTwoSlot, hwords]
      · trivial
  · refine (h.meets_pop kind).bind fun x s1 h1 => ?_
    obtain ⟨v, w1, hw1, hx, h1⟩ := h1
    refine (h1.meets_storeSlot (.of x kind) hx (Kind.isTwoSlot_onStack kind) index).imp fun _ s2 h2 => ?_
    obtain ⟨w', hw', h2⟩ := h2
    exact ⟨v, w1, w', hw1, hw', h1.stepped h2⟩

/-- Two operands, the second one on top. -/
theorem meets_popTwo (first second : Kind) :
    Ensures (popTwo first second) s (fun r s' => ∃ v v' w1 w', w.pop second = some (v', w1) ∧
      w1.pop first = some (v, w') ∧ s'.graph.Denotes I r.1 v ∧ s'.graph.Denotes I r.2 v' ∧
      Stepped I s s' w') := by
  refine (h.meets_pop second).bind fun y s1 h1 => ?_
  obtain ⟨v', w1, hw1, hy, h1⟩ := h1
  refine (h1.meets_pop first).bind fun x s2 h2 => ?_
  obtain ⟨v, w', hw', hx, h2⟩ := h2
  exact ⟨v, v', w1, w', hw1, hw', hx, h2.retains.denotes hy, h1.stepped h2⟩

theorem meets_increment (index : Nat) (delta : Int32) :
    Ensures (increment index delta) s (fun _ s' => ∃ v w', w.load index = some v ∧
      w.store .int index (I.binary .add .int v (I.constant .int delta.toInt64)) = some w' ∧
      Stepped I s s' w') := by
  unfold increment
  refine meets_read.2 (meets_bind.2 (meets_ofExcept_ok.2 fun x hx => ?_))
  obtain ⟨v, hw, hv⟩ := h.agrees.load hx
  refine (h.meets_intern (n := .int delta) supplies_nil rfl).bind fun y s1 h1 => ?_
  obtain ⟨hy, h1⟩ := h1
  refine (h1.meets_intern (n := .binary .add .int x y)
    (supplies_two (h1.retains.denotes hv) hy) rfl).bind fun z s2 h2 => ?_
  obtain ⟨hz, h2⟩ := h2
  refine (h2.meets_storeSlot (.of z .int) hz rfl index).imp fun _ s3 h3 => ?_
  obtain ⟨w', hw', h3⟩ := h3
  exact ⟨v, w', hw, hw', h1.stepped (h2.stepped h3)⟩

/-- An instruction that computes does what the machine does. -/
theorem meets_instruction (hc : c.form?.any Form.computes) :
    Ensures (instruction c) s (fun _ s' => ∃ w', Machine.step I s.method.pool c w = some w' ∧
      Stepped I s s' w') := by
  obtain ⟨form, hform, hcomputes⟩ := (Option.any_eq_true _ _).1 hc
  unfold instruction Machine.step
  simp only [hform]
  cases form with
  | nop => exact ⟨w, rfl, h, .refl _, rfl⟩
  | constant kind bits => exact (h.meets_pushConstant kind bits).imp fun _ _ hs => ⟨_, rfl, hs⟩
  | pushByte | pushShort => exact (h.meets_pushConstant ..).imp fun _ _ hs => ⟨_, rfl, hs⟩
  | loadConstant twoBytes =>
    refine (h.meets_loadConstant c _).imp fun _ s' hs => ?_
    obtain ⟨entry, kind, bits, hentry, hnumber, hs⟩ := hs
    exact ⟨_, by simp [hentry, hnumber], hs⟩
  | load kind slot =>
    refine (h.meets_loadLocal kind _).imp fun _ s' hs => ?_
    obtain ⟨v, hv, hs⟩ := hs
    exact ⟨_, by simp [hv], hs⟩
  | store kind slot =>
    refine (h.meets_storeLocal kind _).imp fun _ s' hs => ?_
    obtain ⟨v, w1, w', hw1, hw', hs⟩ := hs
    exact ⟨w', by simp [hw1, hw'], hs⟩
  | shuffle shuffle =>
    unfold Lift.shuffle
    refine meets_read.2 ?_
    dsimp only
    split
    · trivial
    · rename_i harity
      obtain ⟨w', hw', hagrees⟩ := h.agrees.shuffle (Nat.le_of_not_lt harity)
      exact ⟨w', hw', ⟨h.linear, hagrees⟩, computes_frame _⟩
  | arith op kind =>
    refine (h.meets_popTwo kind kind).bind fun r s1 h1 => ?_
    obtain ⟨v, v', w1, w2, hw1, hw2, hx, hy, h1⟩ := h1
    refine (h1.meets_pushNew (n := .binary op kind r.1 r.2) (supplies_two hx hy) rfl kind).imp fun _ s2 h2 => ?_
    exact ⟨_, by simp [hw1, hw2], h1.stepped h2⟩
  | shift op kind =>
    refine (h.meets_popTwo kind .int).bind fun r s1 h1 => ?_
    obtain ⟨v, v', w1, w2, hw1, hw2, hx, hy, h1⟩ := h1
    refine (h1.meets_pushNew (n := .binary op kind r.1 r.2) (supplies_two hx hy) rfl kind).imp fun _ s2 h2 => ?_
    exact ⟨_, by simp [hw1, hw2], h1.stepped h2⟩
  | negate kind =>
    refine (h.meets_pop kind).bind fun x s1 h1 => ?_
    obtain ⟨v, w1, hw1, hx, h1⟩ := h1
    refine (h1.meets_pushNew (n := .negate kind x) (supplies_one hx) rfl kind).imp fun _ s2 h2 => ?_
    exact ⟨_, by simp [hw1], h1.stepped h2⟩
  | increment =>
    refine (h.meets_increment _ _).imp fun _ s' hs => ?_
    obtain ⟨v, w', hv, hw', hs⟩ := hs
    exact ⟨w', by simp [hv, hw'], hs⟩
  | convert source target =>
    refine (h.meets_pop source).bind fun x s1 h1 => ?_
    obtain ⟨v, w1, hw1, hx, h1⟩ := h1
    refine (h1.meets_pushNew (n := .convert source target x) (supplies_one hx) rfl target).imp fun _ s2 h2 => ?_
    exact ⟨_, by simp [hw1], h1.stepped h2⟩
  | compare kind unorderedIsLess =>
    refine (h.meets_popTwo kind kind).bind fun r s1 h1 => ?_
    obtain ⟨v, v', w1, w2, hw1, hw2, hx, hy, h1⟩ := h1
    refine (h1.meets_pushNew (n := .normalizeCompare kind r.1 r.2 unorderedIsLess) (supplies_two hx hy) rfl
      .int).imp fun _ s2 h2 => ?_
    exact ⟨_, by simp [hw1, hw2], h1.stepped h2⟩
  | _ => exact Bool.noConfusion hcomputes

end

end Tracks

end Lift

end SeaOfNodes
