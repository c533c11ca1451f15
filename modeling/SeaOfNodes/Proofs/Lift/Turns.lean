import SeaOfNodes.Proofs.Lift.Edges
import SeaOfNodes.Proofs.Lift.Method

/-!
# The turns of blocks

The blocks of a method have their turns in order. A block is lifted if control has arrived there when its
turn comes. Control that has arrived at a block stays there, and it enters a loop through the header, so
that the headers of the loops around a lifted block are lifted, too.
-/

namespace SeaOfNodes

open Bytecode

namespace Lift

open Graph

/-- The start of a method, and the turns of some blocks. -/
def liftUpTo (turns : List BlockId) : LiftM Unit := do
  if let some startBlock := (← get).map.order.head? then begin_ startBlock
  for id in turns do liftBlock id

end Lift

/-- The blocks that have their turns before a block. -/
def BlockMap.before (map : BlockMap) (id : BlockId) : List BlockId := map.order.takeWhile (· ≠ id)

/-- The block is lifted: control has arrived there when its turn comes. -/
def Method.Lifts (m : Method) (options : Options) (map : BlockMap) (id : BlockId) : Prop :=
  ∃ s0 s, Lift.initial m options map = .ok s0 ∧ Lift.liftUpTo (map.before id) s0 = .ok ((), s) ∧
    s.Arrives id

theorem BlockMap.WellOrdered.before_eq {map : BlockMap} (hmap : map.WellOrdered) {turns rest : List BlockId}
    {id : BlockId} (h : map.order = turns ++ id :: rest) : map.before id = turns := by
  have hnot : ∀ x ∈ turns, decide (x ≠ id) := fun x hx => by
    have hnodup := hmap.nodup
    rw [h] at hnodup
    have := (List.nodup_append.1 hnodup).2.2 x hx id (by simp)
    simpa using this
  rw [BlockMap.before, h, List.takeWhile_append_of_pos hnot]
  simp

namespace Lift

open Graph

variable {base : BlockMap} {m : Method} {options : Options} {b t : BlockId} {s0 s s' : State}
  {turns rest : List BlockId}

instance (s : State) (id : BlockId) : Decidable (s.Arrives id) :=
  decidable_of_iff ((s.arrivals.lookup id).any (·.frame.isSome) = true) <| by
    rw [State.Arrives]
    cases s.arrivals.lookup id with
    | none => simp
    | some a =>
      obtain ⟨first, f⟩ := a
      cases f <;> simp

instance (m : Method) (options : Options) (map : BlockMap) (id : BlockId) :
    Decidable (m.Lifts options map id) :=
  match h : initial m options map with
  | .error e => .isFalse fun ⟨_, _, h0, _⟩ => by rw [h] at h0; cases h0
  | .ok s0 =>
    match h1 : liftUpTo (map.before id) s0 with
    | .error e => .isFalse fun ⟨_, _, h0, h2, _⟩ => by
        rw [h] at h0
        cases h0
        rw [h1] at h2
        cases h2
    | .ok ((), s) => decidable_of_iff (s.Arrives id)
        ⟨fun hs => ⟨s0, s, h, h1, hs⟩, fun ⟨_, _, h0, h2, hs⟩ => by
          rw [h] at h0
          cases h0
          rw [h1] at h2
          cases h2
          exact hs⟩

/-! ### One turn -/

/-- What the turn of a block does. -/
structure Turn (base : BlockMap) (m : Method) (b : BlockId) (s s' : State) : Prop where
  method : s'.method = m
  map : MapOk base s'.map s'.returnBlock s'.unwindBlock
  kept : ∀ t, s.Arrives t → s'.Arrives t
  fresh : ∀ t, s'.Arrives t → s.Arrives t ∨
    s.Arrives b ∧ (t ∈ (base.block b).successors ∨ base.blocks.size ≤ t.index)

theorem meets_liftBlock_turn (hbase : base.WellOrdered) (hb : b ∈ base.order) (hmethod : s.method = m)
    (hmap : MapOk base s.map s.returnBlock s.unwindBlock) :
    Ensures (liftBlock b) s (fun _ s' => Turn base m b s s') := by
  unfold liftBlock
  refine meets_observe.2 ?_
  split
  · rename_i first f harrival
    have hs : s.Arrives b := ⟨first, f, harrival⟩
    exact (meets_enteredBlock_within hbase hb hmethod hmap hs first f).imp fun _ s' h =>
      ⟨h.method, h.map, h.kept, fun t ht => (h.fresh t ht).imp_right fun ht => ⟨hs, ht⟩⟩
  · exact ⟨hmethod, hmap, fun _ ht => ht, fun _ ht => .inl ht⟩

/-- Control arrives at the start block first. -/
instance (id : BlockId) : Carries (Reaches id) (begin_ id) := ⟨fun s => by
  unfold begin_
  refine (carried Rests s).bind fun start s1 h1 => ?_
  refine (carried Rests s1).bind fun _ s2 h2 => meets_read.2 ?_
  refine ((observes_clearedFor id s2.frame).ensures s2).bind ?_
  rintro f _ rfl
  refine meets_change.2 ?_
  refine (carried Rests _).bind fun _ s3 h3 => ?_
  have hflow : SameFlow s s3 := (h1.toSameFlow.trans h2.toSameFlow).trans
    ⟨h3.method, h3.map, h3.current, h3.arrivals, h3.returnBlock, h3.unwindBlock⟩
  refine meets_observe.2 ?_
  split
  · exact (carried (Reaches id) s3).imp fun _ _ h => h.mono hflow.onlyAt
  · exact (carried (Reaches id) s3).imp fun _ _ h => h.mono hflow.onlyAt⟩

/-! ### All turns -/

theorem liftUpTo_append (turns rest : List BlockId) :
    liftUpTo (turns ++ rest) = (do
      liftUpTo turns
      for id in rest do liftBlock id) := by
  unfold liftUpTo
  rw [bind_assoc]
  refine bind_congr fun s => ?_
  cases s.map.order.head? <;> simp

/-- Lifting a method starts with the turns of its blocks. -/
theorem all_eq_liftUpTo (hmap : s.map = base) : all s = (do
      liftUpTo base.order
      if let some id := (← get).returnBlock then liftBlock id
      if let some id := (← get).unwindBlock then liftBlock id
      onGraph Graph.cleanUp) s := by
  have hget (k : State → LiftM Unit) : (get >>= k) s = k s s := rfl
  subst hmap
  unfold all liftUpTo
  rw [bind_assoc, hget, hget]
  dsimp only
  cases s.map.order.head? <;> simp only [bind_assoc, pure_bind] <;> rfl

/-- The turn of one more block. -/
theorem exists_turn_of_liftUpTo (h : liftUpTo (turns ++ [b]) s0 = .ok ((), s)) :
    ∃ s1, liftUpTo turns s0 = .ok ((), s1) ∧ liftBlock b s1 = .ok ((), s) := by
  rw [liftUpTo_append] at h
  obtain ⟨_, s1, h1, h2⟩ := exists_ok_of_bind h
  refine ⟨s1, h1, ?_⟩
  simpa using h2

theorem initial_of_ok (h : initial m options base = .ok s0) : s0.method = m ∧ s0.map = base ∧
    s0.arrivals = [] ∧ s0.returnBlock = none ∧ s0.unwindBlock = none := by
  unfold initial at h
  split at h
  · cases h
    exact ⟨rfl, rfl, rfl, rfl, rfl⟩
  · cases h

/-- What holds between the turns of blocks: a loop is entered through its header. -/
structure Underway (m : Method) (options : Options) (base : BlockMap) (s : State) : Prop where
  method : s.method = m
  map : MapOk base s.map s.returnBlock s.unwindBlock
  inside : ∀ t ∈ base.order, s.Arrives t → ∀ l ∈ LoopMask.toList (base.block t).loops,
    ∃ h, base.header? l = some h ∧ (h = t ∨ m.Lifts options base h)

/-- A block that is entered first is not inside of a loop whose header was passed over. -/
theorem Underway.turn (h : Underway m options base s) (hbase : base.WellOrdered) (hb : b ∈ base.order)
    (hlifts : s.Arrives b → m.Lifts options base b) (hturn : Turn base m b s s') :
    Underway m options base s' where
  method := hturn.method
  map := hturn.map
  inside t ht harrives l hl := by
    rcases hturn.fresh t harrives with hs | ⟨hs, hsuccessor | hleaves⟩
    · exact h.inside t ht hs l hl
    · rcases hbase.loop_cases ht hl with hself | houter
      · exact ⟨t, hself, .inl rfl⟩
      · obtain ⟨i, hi, hib⟩ := h.inside b hb hs l (hbase.outer b hb t hsuccessor l houter)
        exact ⟨i, hi, .inr (hib.elim (fun e => e ▸ hlifts hs) id)⟩
    · exact absurd (hbase.range t ht) (Nat.not_lt.2 hleaves)

section

variable (hbase : base.WellOrdered) (hs0 : initial m options base = .ok s0)

include hbase hs0

/-- At the start, control arrives at the start block only. -/
theorem meets_start_underway :
    Ensures (liftUpTo []) s0 (fun _ s => Underway m options base s) := by
  obtain ⟨hmethod, hmap, harrivals, hreturn, hunwind⟩ := initial_of_ok hs0
  have hmapOk : MapOk base base none none :=
    ⟨Nat.le_refl _, fun _ _ => rfl, rfl, nofun, nofun, nofun⟩
  have hno (t : BlockId) : ¬s0.Arrives t := by
    rintro ⟨first, f, hf⟩
    rw [harrivals] at hf
    cases hf
  unfold liftUpTo
  refine meets_read.2 ?_
  rw [hmap]
  split
  · rename_i first hfirst
    refine (carried (Reaches first) s0).bind fun _ s h => ?_
    refine meets_bind.2 (meets_pure.2 ⟨h.method.trans hmethod, ?_, fun t ht harrives l hl => ?_⟩)
    · rw [h.map, h.returnBlock, h.unwindBlock, hmap, hreturn, hunwind]
      exact hmapOk
    · obtain rfl : t = first := by
        by_contra hne
        exact hno t ((h.toOnlyAt.arrives hne).1 harrives)
      refine ⟨t, (hbase.loop_cases ht hl).resolve_right fun houter => ?_, .inl rfl⟩
      rw [hbase.start t hfirst] at houter
      simp at houter
  · refine meets_bind.2 (meets_pure.2 ⟨hmethod, ?_, fun t _ ht => absurd ht (hno t)⟩)
    rw [hmap, hreturn, hunwind]
    exact hmapOk

theorem underway_of_liftUpTo (horder : base.order = turns ++ rest) (h : liftUpTo turns s0 = .ok ((), s)) :
    Underway m options base s := by
  induction turns using List.reverseRecOn generalizing s rest with
  | nil => exact (meets_start_underway hbase hs0).of_ok h
  | append_singleton turns b ih =>
    obtain ⟨s1, h1, h2⟩ := exists_turn_of_liftUpTo h
    rw [List.append_assoc, List.singleton_append] at horder
    have hw := ih horder h1
    have hb : b ∈ base.order := by
      rw [horder]
      simp
    exact hw.turn hbase hb (fun hs => ⟨s0, s1, hs0, (hbase.before_eq horder).symm ▸ h1, hs⟩)
      ((meets_liftBlock_turn hbase hb hw.method hw.map).of_ok h2)

/-- Where control has arrived, it stays until the turn of the block. -/
theorem arrives_of_liftUpTo {turns' : List BlockId} (horder : base.order = turns ++ turns' ++ rest)
    (h : liftUpTo turns s0 = .ok ((), s)) (h' : liftUpTo (turns ++ turns') s0 = .ok ((), s'))
    (ht : s.Arrives t) : s'.Arrives t := by
  induction turns' using List.reverseRecOn generalizing s' rest with
  | nil =>
    rw [List.append_nil, h] at h'
    cases h'
    exact ht
  | append_singleton turns' b ih =>
    rw [← List.append_assoc] at h' horder
    obtain ⟨s1, h1, h2⟩ := exists_turn_of_liftUpTo h'
    rw [List.append_assoc, List.singleton_append] at horder
    have hw := underway_of_liftUpTo hbase hs0 horder h1
    have hb : b ∈ base.order := by
      rw [horder]
      simp
    exact ((meets_liftBlock_turn hbase hb hw.method hw.map).of_ok h2).kept t (ih horder h1)

end

/-- Where there is a graph, all blocks have had their turns. -/
theorem exists_liftUpTo_of_lift {g : Graph} (h : m.lift options = .ok g)
    (hmap : BlockMap.create m options = .ok base) (horder : base.order = turns ++ rest) :
    ∃ s0 s, initial m options base = .ok s0 ∧ liftUpTo turns s0 = .ok ((), s) := by
  unfold Method.lift at h
  rw [hmap] at h
  cases hs0 : initial m options base with
  | error e => simp [hs0, Except.mapError, bind, Except.bind] at h
  | ok s0 =>
    cases hrun : all s0 with
    | error e => simp [hs0, Except.mapError, bind, Except.bind, StateT.run, hrun] at h
    | ok r =>
      rw [all_eq_liftUpTo (initial_of_ok hs0).2.1, horder, liftUpTo_append, bind_assoc] at hrun
      obtain ⟨_, s1, h1, -⟩ := exists_ok_of_bind hrun
      exact ⟨s0, s1, rfl, h1⟩

end Lift

end SeaOfNodes
