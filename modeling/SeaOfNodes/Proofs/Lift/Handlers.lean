import SeaOfNodes.Proofs.Flow.Exceptions
import SeaOfNodes.Proofs.Lift.Turns

/-!
# Exceptions reach their handlers

A block that leads to a dispatch block ends with an instruction that may raise an exception. Control goes
on from each instruction before it, so that it is reached unless a reference is not resolved, and from it
control comes to arrive at the dispatch block. The exception is a division of integers, which becomes a
value and raises nothing.
-/

namespace SeaOfNodes

open Bytecode

/-- What may raise an exception is a throw, a call or another node that may trap, or a division. -/
theorem Bytecode.Form.cases_of_mayRaise {form : Form} (h : form.mayRaise) :
    form = .throw ∨ form = .invokeDynamic ∨ form.isTrapping ∨ form.isDivision := by
  cases form <;> first | exact .inl rfl | exact .inr (.inl rfl) | exact .inr (.inr (.inl rfl)) |
    exact .inr (.inr (.inr h))

namespace Lift

open Graph

variable {base : BlockMap} {m : Method} {b t : BlockId} {s0 s s' : State} {c : Cursor} {form : Form}
  {bci : Nat}

/-! ### Instructions inside a block -/

theorem meets_append_last (n : Node) (hn : goesOn n.cls) :
    Ensures (append n) s (fun _ s' => s'.last.isSome) := by
  refine meets_bind.2 (meets_onGraph.2 ((meets_add_cls n).ensures fun x g hx => ?_))
  refine (meets_appendNode_last (s := { s with graph := g }) hx hn).bind fun _ s' hs' => ?_
  exact meets_pure.2 (by rw [hs']; rfl)

theorem meets_markLineAsked_last (hl : s.last.isSome) (bci : Nat) :
    Ensures (markLineAsked bci) s (fun _ s' => SameFlow s s' ∧ s'.last.isSome) := by
  have hlast : Ensures (markLineAsked bci) s (fun _ s' => s'.last.isSome) := by
    unfold markLineAsked
    refine meets_read.2 ?_
    split
    swap
    · exact hl
    unfold markLine
    refine meets_read.2 ?_
    split
    swap
    · exact hl
    split
    swap
    · exact hl
    refine meets_change.2 ?_
    refine (meets_append_last _ rfl).bind fun x s1 h1 => meets_read.2 ?_
    exact (carried Rests s1).imp fun _ s2 h2 => by rw [h2.last]; exact h1
  exact ((carried SameFlow s).and hlast).ensures fun _ _ h => h

section

variable (h : Within base m b s0 s) (hb : b.index < base.blocks.size)

include h hb

/-- Away from the end of the block, a node that may trap raises nothing and control goes on after it. -/
theorem Within.meets_appendTrapping_inner (hstop : (base.block b).stop ≠ bci) {x : NodeId} {cls : NodeClass}
    (hx : s.graph.cls? x = some cls) (hcls : goesOn cls) :
    Ensures (appendTrapping x bci) s (fun _ s' => SameFlow s s' ∧ s'.last.isSome) := by
  unfold appendTrapping
  refine h.meets_current.bind ?_
  rintro _ _ ⟨rfl, rfl⟩
  refine meets_read.2 ?_
  dsimp only
  rw [h.block hb, if_neg (by simp [hstop])]
  exact ((carried SameFlow _).and (meets_appendNode_last hx hcls)).mono
    (fun _ s' hs => ⟨hs.1, by rw [hs.2]; rfl⟩) fun _ _ => trivial

/-- Control goes on after an instruction that does not close the block. -/
theorem Within.meets_inner (hstop : (base.block b).stop ≠ c.bci)
    (hopen : c.form?.any (fun form => form.isBlockEnd || form.isInvoke) = false)
    (hresolves : m.resolves c) (hl : s.last.isSome) :
    Ensures (instruction c) s (fun _ s' => SameFlow s s' ∧ s'.last.isSome) := by
  have hnot : s.method.resolves c ≠ false := by
    rw [h.method, hresolves]
    nofun
  have hrests {s' : State} (hs : Rests s s') : SameFlow s s' ∧ s'.last.isSome :=
    ⟨hs.toSameFlow, by rw [hs.last]; exact hl⟩
  cases hform : c.form? with
  | none =>
    unfold instruction
    rw [hform]
    trivial
  | some form =>
    by_cases hcomputes : form.computes
    · exact ((rests_instruction hform hcomputes).ensures s).imp fun _ _ hs => hrests hs
    by_cases htraps : form.isTrapping
    · refine meets_trapping hform htraps (fun n k s1 hn h1 hk => ?_) fun hres => absurd hres hnot
      have hadd := ((carried Rests s1).and
        (meets_onGraph.2 ((meets_add_cls n).ensures fun x g hx => hx) :
          Ensures (onGraph (Graph.add n)) s1 (fun x s' => s'.graph.cls? x = some n.cls)))
      refine (hadd.ensures fun _ _ hs => hs).bind fun x s2 h2 => ?_
      obtain ⟨h2, hx⟩ := h2
      have hflow : SameFlow s s2 := h1.toSameFlow.trans h2.toSameFlow
      refine ((h.sameFlow hflow).meets_appendTrapping_inner hb hstop hx hn).bind fun _ s3 h3 => ?_
      refine (carried Rests s3).imp fun _ s4 h4 => ?_
      refine ⟨(hflow.trans h3.1).trans h4.toSameFlow, ?_⟩
      rw [h4.last]
      exact h3.2
    by_cases htype : form = .instanceOf
    · exact meets_instanceOf (htype ▸ hform) (fun s' hs => hrests hs) fun hres => absurd hres hnot
    unfold instruction
    rw [hform] at hopen ⊢
    cases form <;>
      first
      | exact absurd rfl hcomputes
      | exact absurd rfl htraps
      | exact absurd rfl htype
      | exact absurd hopen (by decide)
      | trivial

/-! ### The end of a block -/

/-- Where exceptions of the block go shows in the map at any time. -/
theorem Within.dispatch? (ht : t.index < base.blocks.size) (hdispatch : base.dispatch? b = some t) :
    s.map.dispatch? b = some t := by
  unfold BlockMap.dispatch? at hdispatch ⊢
  obtain ⟨hlast, hkind⟩ := Option.filter_eq_some_iff.1 hdispatch
  rw [h.map.block b hb]
  exact Option.filter_eq_some_iff.2 ⟨hlast, by rw [h.map.block t ht]; exact hkind⟩

/-- At the end of the block, an exception goes to the dispatch block. -/
theorem Within.meets_raise_tip (ht : t.index < base.blocks.size) (hdispatch : base.dispatch? b = some t)
    (hstop : (base.block b).stop = bci) (exception : Option NodeId) :
    Ensures (raise exception bci) s (fun _ s' => s'.Arrives t) := by
  have hhandler : Ensures (handlerBlock bci) s (fun u s' => u = t ∧ s' = s) := by
    unfold handlerBlock
    refine h.meets_current.bind ?_
    rintro _ _ ⟨rfl, rfl⟩
    refine meets_read.2 ?_
    dsimp only
    rw [h.block hb, if_pos hstop, h.dispatch? hb ht hdispatch]
    exact ⟨rfl, rfl⟩
  unfold raise
  refine hhandler.bind ?_
  rintro u _ ⟨rfl, rfl⟩
  refine (carried Rests _).bind fun r s1 h1 => ?_
  refine (carried (Reaches u) s1).bind fun x s2 h2 => ?_
  exact (carried Rests s2).bind fun _ s3 h3 => h3.toSameFlow.arrives.2 h2.arrives

theorem Within.meets_appendTrapping_tip
    (ht : t.index < base.blocks.size) (hdispatch : base.dispatch? b = some t)
    (hstop : (base.block b).stop = bci) (x : NodeId) :
    Ensures (appendTrapping x bci) s (fun _ s' => s'.Arrives t) := by
  unfold appendTrapping
  refine h.meets_current.bind ?_
  rintro _ _ ⟨rfl, rfl⟩
  refine meets_read.2 ?_
  dsimp only
  rw [h.block hb, h.dispatch? hb ht hdispatch, if_pos (by simp [hstop])]
  refine (h.meets_raise_tip hb ht hdispatch hstop none).bind fun edge s1 h1 => ?_
  refine (carried Rests s1).bind fun _ s2 h2 => ?_
  exact (carried SameFlow s2).imp fun _ s3 h3 => h3.arrives.2 (h2.toSameFlow.arrives.2 h1)

/-- Control comes to arrive at the dispatch block from the last instruction, unless it is a division. -/
theorem Within.meets_tip (ht : t.index < base.blocks.size) (hdispatch : base.dispatch? b = some t)
    (hstop : (base.block b).stop = c.bci) (hform : c.form? = some form) (hraise : form.mayRaise)
    (hdivision : form.isDivision = false) (hresolves : m.resolves c) :
    Ensures (instruction c) s (fun _ s' => s'.Arrives t) := by
  rcases Form.cases_of_mayRaise hraise with rfl | rfl | htraps | hdiv
  · unfold instruction
    rw [hform]
    refine h.carry.bind fun x s1 h1 => ?_
    refine (h1.meets_raise_tip hb ht hdispatch hstop (some x)).bind fun edge s2 h2 => ?_
    exact (carried SameFlow s2).imp fun _ s3 h3 => h3.arrives.2 h2
  · unfold instruction
    rw [hform]
    trivial
  · refine meets_trapping hform htraps (fun n k s1 _ h1 hk => ?_) fun hres => ?_
    · refine (h.sameFlow h1.toSameFlow).carry.bind fun x s2 h2 => ?_
      refine (h2.meets_appendTrapping_tip hb ht hdispatch hstop x).bind fun _ s3 h3 => ?_
      exact (carried Rests s3).imp fun _ s4 h4 => h4.toSameFlow.arrives.2 h3
    · rw [h.method, hresolves] at hres
      cases hres
  · rw [hdivision] at hdiv
    cases hdiv

end

/-! ### The whole block -/

/-- Lifting goes on in the block as from the state it has reached. -/
theorem Within.root (h : Within base m b s0 s) : Within base m b s s :=
  ⟨h.method, h.current, h.map, fun _ ht => ht, fun _ ht => .inl ht⟩

/-- The last instruction of a block is left for the next block. -/
theorem Within.meets_goOn (h : Within base m b s0 s) (hb : b.index < base.blocks.size) {stop : Int}
    (hstop : stop < c.next) (rest : List Cursor) :
    Ensures (goOn b stop c rest) s (fun _ s' => Within base m b s0 s') := by
  unfold goOn
  refine meets_read.2 ?_
  split
  swap
  · exact h
  rw [if_pos hstop]
  have := Fact.mk hb
  exact h.carry

/-- A division is left for the next block only. -/
theorem Within.meets_goOn_next (h : Within base m b s0 s) (hb : b.index < base.blocks.size) {stop : Int}
    (hstop : stop < c.next) (hnext : ∀ u, (base.block b).successors[0]? = some u → u ≠ t)
    (rest : List Cursor) :
    Ensures (goOn b stop c rest) s (fun _ s' => s'.Arrives t ↔ s.Arrives t) := by
  unfold goOn
  refine meets_read.2 ?_
  split
  swap
  · exact Iff.rfl
  rw [if_pos hstop]
  refine (carried Rests s).bind fun _ s1 h1 => ?_
  refine (carried Rests s1).bind fun _ s2 h2 => ?_
  have hflow : SameFlow s s2 := h1.toSameFlow.trans h2.toSameFlow
  refine ((h.sameFlow hflow).meets_successor hb 0).bind ?_
  rintro u _ ⟨hu, rfl⟩
  exact (carried (Reaches u) _).imp fun _ s3 h3 =>
    (h3.toOnlyAt.arrives (hnext u hu).symm).trans hflow.arrives

/-- Opening a loop touches only the arrival at its header, and control goes on. -/
theorem meets_openLoop_only (id : BlockId) (bci : Int) :
    Ensures (openLoop id bci) s (fun _ s' => OnlyAt id s s' ∧ s'.last.isSome) := by
  unfold openLoop
  refine meets_read.2 ((carried Rests s).bind fun loopBegin s1 h1 => ?_)
  refine meets_change.2 (meets_read.2 ?_)
  refine (carried Rests _).bind fun f s2 h2 => ?_
  refine (carried Rests s2).bind fun _ s3 h3 => (carried Rests s3).bind fun _ s4 h4 => ?_
  have hlast : SameFlow s1 { s1 with last := some loopBegin } := ⟨rfl, rfl, rfl, rfl, rfl, rfl⟩
  have hflow : SameFlow s s4 := ((h1.toSameFlow.trans hlast).trans h2.toSameFlow).trans
    (h3.toSameFlow.trans h4.toSameFlow)
  refine (meets_setArrival id _).imp fun _ s5 h5 => ⟨IsTrans.trans _ _ _ hflow.onlyAt h5.1, ?_⟩
  rw [h5.2.2, h4.last, h3.last, h2.last]
  rfl

section

variable {options : Options} (hbase : base.WellOrdered) (hb : b ∈ base.order)
  (hraises : base.Raises m options b c) (hdispatch : base.dispatch? b = some t)
  (hwhole : ∀ a ∈ Bytecode.instructions m.code, base.Spans b a.bci → m.resolves a)

include hbase hb hraises hdispatch hwhole

/-- From the last instruction of a block, control comes to arrive at the dispatch block unless it is a
division. -/
theorem Within.meets_last (h : Within base m b s0 s) (rest : List Cursor) :
    Ensures (instructions b (base.block b).stop (c :: rest)) s
      (fun _ s' => s'.Arrives t ↔ s.Arrives t ∨ c.form?.any Form.isDivision = false) := by
  have hrange := hbase.range b hb
  have htmem := mem_successors_of_dispatch? hdispatch
  have htrange := hbase.range t (hbase.mem_order hb htmem)
  have hlast : (base.block b).stop < c.next := by
    have := lt_next hraises.last.mem
    rw [hraises.stop]
    omega
  obtain ⟨form, hform, hraise⟩ := BlockMap.mayRaise_of_catchers hraises.caught
  refine meets_instructions_cons.2 ((carried SameFlow s).imp fun _ s1 h1 => ?_)
  have hw1 := h.sameFlow h1
  cases hdivision : form.isDivision with
  | true =>
    have hcomputes : form.computes := by
      cases form <;> first | rfl | cases hdivision
    refine ((rests_instruction hform hcomputes).ensures s1).imp fun _ s2 h2 => ?_
    have hflow : SameFlow s s2 := h1.trans h2.toSameFlow
    refine ((h.sameFlow hflow).meets_goOn_next (t := t) hrange hlast (fun u hu => ?_) rest).imp fun _ s3 h3 => ?_
    · -- the next block is one of instructions
      rintro rfl
      have hkind := hraises.next (by rw [hform]; rintro ⟨⟩; cases hdivision) u hu
      have hd := (Option.filter_eq_some_iff.1 hdispatch).2
      simp [Block.isDispatch, hkind] at hd
    · rw [hform]
      simp [hdivision, h3, hflow.arrives]
  | false =>
    have : Carries (Stays base m b s0) (instruction c) := stays_instruction hbase hb c
    refine (((hw1.meets_tip hrange htrange hdispatch hraises.stop hform hraise hdivision
      (hwhole c hraises.last.mem hraises.last.spans)).and hw1.carry).mono
        (fun _ _ h => h) fun _ _ => trivial).imp fun _ s2 h2 => ?_
    refine (h2.2.root.meets_goOn hrange hlast rest).imp fun _ s3 h3 => ?_
    rw [hform]
    simp [hdivision, h3.kept t h2.1]

/-- The instructions of a block up to the last one lead to it. -/
theorem Within.meets_instructions_raises {k : Nat} (hk : IsStart m.code k) (hfrom : (base.block b).start ≤ k)
    (hto : k ≤ c.bci) (h : Within base m b s0 s) (hl : s.last.isSome) :
    Ensures (instructions b (base.block b).stop (Cursor.walkFrom m.code k)) s
      (fun _ s' => s'.Arrives t ↔ s.Arrives t ∨ c.form?.any Form.isDivision = false) := by
  induction hn : c.bci - k using Nat.strong_induction_on generalizing k s with
  | _ n ih =>
    obtain ⟨a, ha, rfl⟩ := hk
    rw [walkFrom_eq_cons_of_mem ha]
    by_cases hac : a.bci = c.bci
    · obtain rfl := eq_of_bci ha hraises.last.mem hac
      exact h.meets_last hbase hb hraises hdispatch hwhole _
    have hlt : a.bci < c.bci := by omega
    have hnext := next_le ha hraises.last.mem hlt
    have hanext := lt_next ha
    have hstop := hraises.stop
    have hspans : base.Spans b a.bci := ⟨hraises.last.spans.range, hraises.last.spans.kind, hfrom, by omega⟩
    have hopen : a.form?.any (fun form => form.isBlockEnd || form.isInvoke) = false := by
      by_contra hclose
      exact hraises.inner a ha hspans hac (.inl (by simpa using hclose))
    have hstart : IsStart m.code a.next := by
      have hsize := lt_size_of_isStart ⟨c, hraises.last.mem, rfl⟩
      refine (site_next ha (by omega)).2.resolve_right fun hall => ?_
      have := hall c hraises.last.mem
      have := lt_next hraises.last.mem
      omega
    refine meets_instructions_cons.2 ((meets_markLineAsked_last hl a.bci).imp fun _ s1 h1 => ?_)
    refine ((h.sameFlow h1.1).meets_inner (hbase.range b hb) (by omega) hopen (hwhole a ha hspans)
      h1.2).imp fun _ s2 h2 => ?_
    have hflow : SameFlow s s2 := h1.1.trans h2.1
    obtain ⟨l, hl2⟩ := Option.isSome_iff_exists.1 h2.2
    refine meets_read.2 ?_
    rw [hl2]
    dsimp only
    rw [if_neg (by omega)]
    refine (carried Rests s2).bind fun _ s3 h3 => ?_
    have hflow3 : SameFlow s s3 := hflow.trans h3.toSameFlow
    refine (ih (c.bci - a.next) (by omega) hstart (by omega) hnext (h.sameFlow hflow3)
      (by rw [h3.last]; exact h2.2) rfl).imp fun _ s4 h4 => h4.trans ?_
    rw [hflow3.arrives]

theorem Within.meets_bytecodes_raises (h : Within base m b s0 s) (hs0 : s0.Arrives b) (hl : s.last.isSome) :
    Ensures (bytecodes b (base.block b)) s
      (fun _ s' => s'.Arrives t ↔ s.Arrives t ∨ c.form?.any Form.isDivision = false) := by
  obtain ⟨k, hk, hstart⟩ := hraises.start
  have hfrom := hraises.last.spans.start
  have hgo {s1 : State} (h1 : Within base m b s0 s1) (hl1 : s1.last.isSome) (hs1 : s1.Arrives t ↔ s.Arrives t) :
      Ensures (do
        let s ← get
        Lift.instructions b (base.block b).stop (Cursor.walkFrom s.method.code (base.block b).start.toNat)) s1
        (fun _ s' => s'.Arrives t ↔ s.Arrives t ∨ c.form?.any Form.isDivision = false) := by
    refine meets_read.2 ?_
    rw [h1.method, show (base.block b).start.toNat = k by omega]
    refine (h1.meets_instructions_raises hbase hb hraises hdispatch hwhole hk (by omega) (by omega) hl1).imp
      fun _ s2 h2 => h2.trans (by rw [hs1])
  unfold bytecodes
  refine (carried Rests s).bind fun _ s1 h1 => ?_
  have hw1 := h.sameFlow h1.toSameFlow
  split
  · have (bci : Int) : Carries (Stays base m b s0) (openLoop b bci) := stays_openLoop hs0 bci
    refine ((hw1.carry.and (meets_openLoop_only b _)).ensures fun _ _ h => h).bind fun _ s2 h2 => ?_
    obtain ⟨hw2, honly, hl2⟩ := h2
    refine hgo hw2 hl2 ((honly.arrives ?_).trans h1.toSameFlow.arrives)
    rintro rfl
    have hd := (Option.filter_eq_some_iff.1 hdispatch).2
    simp [Block.isDispatch, hraises.last.spans.kind] at hd
  · exact hgo hw1 (by rw [h1.last]; exact hl) h1.toSameFlow.arrives

/-- The turn of a block with a dispatch block. -/
theorem meets_liftBlock_raises (hmethod : s.method = m)
    (hmap : MapOk base s.map s.returnBlock s.unwindBlock) (hs : s.Arrives b) :
    Ensures (liftBlock b) s (fun _ s' => s'.Arrives t ↔ s.Arrives t ∨ c.form?.any Form.isDivision = false) := by
  obtain ⟨first, f, harrival⟩ := hs
  have hw : Within base m b s { s with current := some b, last := some first, frame := f.dropDeleted s.graph } :=
    within_enter hmethod hmap first _
  have hgo {s1 : State} (h : Rests
      { s with current := some b, last := some first, frame := f.dropDeleted s.graph } s1) :
      Ensures (bytecodes b (base.block b)) s1
        (fun _ s' => s'.Arrives t ↔ s.Arrives t ∨ c.form?.any Form.isDivision = false) :=
    ((hw.sameFlow h.toSameFlow).meets_bytecodes_raises hbase hb hraises hdispatch hwhole ⟨first, f, harrival⟩
      (by rw [h.last]; rfl)).imp fun _ s2 h2 => h2.trans (or_congr_left h.toSameFlow.arrives)
  unfold liftBlock
  refine meets_observe.2 ?_
  rw [harrival]
  refine meets_change.2 (meets_observe.2 ?_)
  dsimp only
  rw [hmap.block b (hbase.range b hb), hraises.last.spans.kind]
  refine (carried Rests _).bind fun cls s1 h1 => ?_
  split
  · refine meets_read.2 ?_
    exact (carried Rests s1).bind fun _ s2 h2 => hgo (IsTrans.trans _ _ _ h1 h2)
  · exact hgo h1

end

end Lift

/-- The block ends with a division of integers. -/
def BlockMap.EndsInDivision (map : BlockMap) (m : Method) (b : BlockId) : Prop :=
  ∃ c, map.IsLast m b c ∧ c.form?.any Form.isDivision = true

theorem BlockMap.IsLast.endsInDivision_iff {map : BlockMap} {m : Method} {b : BlockId} {c : Cursor}
    (h : map.IsLast m b c) : map.EndsInDivision m b ↔ c.form?.any Form.isDivision := by
  refine ⟨fun ⟨c', h', hdivision⟩ => ?_, fun hdivision => ⟨c, h, hdivision⟩⟩
  have hle := h.last c' h'.mem h'.spans
  have hge := h'.last c h.mem h.spans
  rwa [eq_of_bci h.mem h'.mem (by omega)]

namespace Method

variable {m : Method} {options : Options} {map : BlockMap} {b t : BlockId} {g : Graph}

/-- A block that is lifted and refers to nothing unresolved makes control arrive at its dispatch block, so
that this one is lifted, too. Only a division of integers at its end does not. -/
theorem lifts_dispatch_of_lift (hlift : m.lift options = .ok g) (hmap : BlockMap.create m options = .ok map)
    (hb : b ∈ map.order) (hkind : (map.block b).kind = .bytecodes) (hdispatch : map.dispatch? b = some t)
    (hlifts : m.Lifts options map b)
    (hwhole : ∀ c ∈ instructions m.code, map.Spans b c.bci → m.resolves c = true) :
    (∀ s : Lift.State, s.method = m → Lift.MapOk map s.map s.returnBlock s.unwindBlock → s.Arrives b →
      Meets (Lift.liftBlock b) s (fun _ s' => s'.Arrives t ↔ s.Arrives t ∨ ¬map.EndsInDivision m b)
        fun _ => True) ∧
      (¬map.EndsInDivision m b → t ∈ map.order ∧ m.Lifts options map t) := by
  have hordered := BlockMap.wellOrdered_of_create hmap
  obtain ⟨c, hraises⟩ := BlockMap.exists_raises_of_create hmap (hordered.range b hb) hkind hdispatch
  have hdivision : c.form?.any Form.isDivision = false ↔ ¬map.EndsInDivision m b := by
    rw [hraises.last.endsInDivision_iff, Bool.not_eq_true]
  have hlocal (s : Lift.State) (hmethod : s.method = m)
      (hs : Lift.MapOk map s.map s.returnBlock s.unwindBlock) (harrives : s.Arrives b) :
      Ensures (Lift.liftBlock b) s (fun _ s' => s'.Arrives t ↔ s.Arrives t ∨ ¬map.EndsInDivision m b) := by
    rw [← hdivision]
    exact Lift.meets_liftBlock_raises hordered hb hraises hdispatch hwhole hmethod hs harrives
  refine ⟨hlocal, fun hnot => ?_⟩
  have hsuccessor := Lift.mem_successors_of_dispatch? hdispatch
  have ht := hordered.mem_order hb hsuccessor
  refine ⟨ht, ?_⟩
  obtain ⟨turns, rest, hsplit⟩ := List.append_of_mem hb
  obtain ⟨s₀, s, hs₀, hs, harrives⟩ := hlifts
  rw [hordered.before_eq hsplit] at hs
  have hway := Lift.underway_of_liftUpTo hordered hs₀ hsplit hs
  rcases hordered.edge turns b rest hsplit t hsuccessor with hrest | ⟨-, hheader, hloop⟩
  · -- control stays at the dispatch block until its turn comes
    obtain ⟨between, rest', rfl⟩ := List.append_of_mem hrest
    have hturn : map.order = turns ++ [b] ++ between ++ t :: rest' := by simp [hsplit]
    obtain ⟨s₀', s₁, hs₀', hs₁⟩ := Lift.exists_liftUpTo_of_lift hlift hmap
      (hturn.trans (List.append_assoc (turns ++ [b]) between _))
    obtain ⟨s₀'', s₂, hs₀'', hs₂⟩ := Lift.exists_liftUpTo_of_lift hlift hmap hturn
    obtain rfl := Except.ok.inj (hs₀.symm.trans hs₀')
    obtain rfl := Except.ok.inj (hs₀.symm.trans hs₀'')
    obtain ⟨s', hs', hblock⟩ := Lift.exists_turn_of_liftUpTo hs₁
    obtain rfl : s = s' := congrArg Prod.snd (Except.ok.inj (hs.symm.trans hs'))
    have hreached := ((hlocal s hway.method hway.map harrives).of_ok hblock).2 (.inr hnot)
    exact ⟨s₀, s₂, hs₀, (hordered.before_eq hturn).symm ▸ hs₂,
      Lift.arrives_of_liftUpTo hordered hs₀ hturn hs₁ hs₂ hreached⟩
  · -- the dispatch block is the header of a loop around the block, which was entered through it
    obtain ⟨h, hh, hcases⟩ := hway.inside b hb harrives _ hloop
    obtain rfl : t = h := Option.some.inj ((hordered.self t ht hheader).2.symm.trans hh)
    refine hcases.resolve_left ?_
    rintro rfl
    have hd := (Option.filter_eq_some_iff.1 hdispatch).2
    simp [Block.isDispatch, hkind] at hd

end Method

/-- A load from an array, with a handler that covers itself. -/
def Method.retries : Method :=
  .ofCode #[0x01, 0x03, 0x2e, 0x57, 0xb1, 0x57, 0x01, 0xbe, 0x57, 0xb1] [⟨2, 8, 5, none⟩] []

/-- A division with a handler. -/
def Method.divides : Method :=
  { Method.ofCode #[0x1a, 0x1b, 0x6c, 0xac, 0x57, 0x03, 0xac] [⟨2, 3, 4, none⟩] [] with
    descriptor := "(II)I"
    maxLocals := 2
    parameters := [.int, .int]
    result := .int }

namespace Method

theorem lifts_dispatch_of_lift_retries : ∃ map g, BlockMap.create .retries .standard = .ok map ∧
    lift .retries .standard = .ok g ∧ ∃ b ∈ map.order, ∃ t ∈ map.order, map.dispatch? b = some t ∧
      (map.block t).isLoopHeader = true ∧ Lifts .retries .standard map b ∧ Lifts .retries .standard map t := by
  obtain ⟨g, hlift, -⟩ : ∃ g, lift .retries .standard = .ok g ∧ true = true :=
    exists_ok_of_any (by decide +kernel)
  obtain ⟨map, hmap, hb⟩ : ∃ map, BlockMap.create .retries .standard = .ok map ∧
      decide (∃ b ∈ map.order, ∃ t ∈ map.order, ((map.block b).kind = .bytecodes ∧
        map.dispatch? b = some t ∧ (map.block t).isLoopHeader = true ∧ Lifts .retries .standard map b) ∧
        ∀ c ∈ instructions Method.retries.code, map.Spans b c.bci → resolves .retries c = true) = true :=
    exists_ok_of_any (by decide +kernel)
  obtain ⟨b, hb, t, -, ⟨hkind, hdispatch, hheader, hlifts⟩, hwhole⟩ := of_decide_eq_true hb
  obtain ⟨ht, hlifts'⟩ := (lifts_dispatch_of_lift hlift hmap hb hkind hdispatch hlifts hwhole).2 <| by
    rintro ⟨c, hlast, hdivision⟩
    revert hdivision
    exact (by decide +kernel : ∀ c ∈ instructions Method.retries.code,
      ¬c.form?.any Form.isDivision = true) c hlast.mem
  exact ⟨map, g, hmap, hlift, b, hb, t, ht, hdispatch, hheader, hlifts, hlifts'⟩

/-- The handler of a division is not lifted. -/
theorem not_lifts_divides : ∃ map g, BlockMap.create .divides .standard = .ok map ∧
    lift .divides .standard = .ok g ∧ ∃ b ∈ map.order, ∃ t ∈ map.order,
      ((map.block b).kind = .bytecodes ∧ map.dispatch? b = some t ∧ Lifts .divides .standard map b ∧
        ∀ c ∈ instructions Method.divides.code, map.Spans b c.bci → resolves .divides c = true) ∧
      ¬Lifts .divides .standard map t ∧ g.nodesOf .exceptionObject = [] := by
  obtain ⟨g, hlift, hg⟩ : ∃ g, lift .divides .standard = .ok g ∧
      decide (g.nodesOf .exceptionObject = []) = true := exists_ok_of_any (by decide +kernel)
  obtain ⟨map, hmap, hb⟩ : ∃ map, BlockMap.create .divides .standard = .ok map ∧
      decide (∃ b ∈ map.order, ∃ t ∈ map.order, ((map.block b).kind = .bytecodes ∧
        map.dispatch? b = some t ∧ Lifts .divides .standard map b ∧
        ∀ c ∈ instructions Method.divides.code, map.Spans b c.bci → resolves .divides c = true) ∧
        ¬Lifts .divides .standard map t) = true := exists_ok_of_any (by decide +kernel)
  obtain ⟨b, hb, t, ht, hcaught, hnot⟩ := of_decide_eq_true hb
  exact ⟨map, g, hmap, hlift, b, hb, t, ht, hcaught, hnot, of_decide_eq_true hg⟩

end Method

end SeaOfNodes
