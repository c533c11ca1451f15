import SeaOfNodes.Proofs.Lift.Block

/-!
# Lifting a method keeps the accounts

The blocks are lifted in their order, then the blocks where the method is left. In the end no block
waits any more, so that no control flow is unfinished if the accounts are exact.
-/

namespace SeaOfNodes.Lift

open Graph Bytecode

variable {q : Plan} {s s' : State} {id : BlockId} {f : Frame} {current : Option BlockId}
  {lifted done rest : List BlockId}

/-- What a plan relies on. -/
structure Plan.Holds (q : Plan) : Prop where
  ordered : q.base.WellOrdered
  plain : q.clean = true → ∀ c ∈ q.base.order, (q.base.block c).isDispatch = true →
    (q.base.block c).isLoopHeader = false
  runs : q.exact = true → ∀ c ∈ q.base.order, (q.base.block c).kind = .bytecodes →
    ∃ cursor ∈ Cursor.walkFrom q.code (q.base.block c).start.toNat,
      (q.base.block c).stop < cursor.next

/-- Edges may be made from a block when its turn comes. -/
theorem Plan.Holds.ready (h : q.Holds) (hsplit : q.base.order = done ++ id :: rest)
    (hdone : ∀ j ∈ lifted, j ∈ done) : (q.stage (some id) false (id :: lifted) rest).Ready := by
  have hmem (j : BlockId) : j ∈ q.base.order ↔ j ∈ done ∨ j = id ∨ j ∈ rest := by
    rw [hsplit]
    simp
  have hnodup := h.ordered.nodup
  rw [hsplit] at hnodup
  obtain ⟨-, hnodup, hdisjoint⟩ := List.nodup_append.1 hnodup
  have hid : id ∈ q.base.order := (hmem id).2 (.inr (.inl rfl))
  have hcurrent {c : BlockId} (hc : (q.stage (some id) false (id :: lifted) rest).current = some c) :
      c = id := (Option.some.inj hc).symm
  refine ⟨⟨rfl, ?_, ?_, h.ordered.headers⟩, rfl, ?_, ?_, ?_⟩
  · intro j hj
    rcases List.mem_cons.1 hj with rfl | hj
    · exact h.ordered.range j hid
    · exact h.ordered.range j ((hmem j).2 (.inl (hdone j hj)))
  · intro c hc
    rw [hcurrent hc]
    exact List.mem_cons_self ..
  · intro c hc t ht
    obtain rfl := hcurrent hc
    rcases h.ordered.edge done c rest hsplit t ht with hrest | ⟨ht', hh, hl⟩
    · have ht' : t ∈ q.base.order := (hmem t).2 (.inr (.inr hrest))
      refine .onwards (h.ordered.range t ht') hrest ?_ fun l hl => ?_
      · intro hlifted
        rcases List.mem_cons.1 hlifted with rfl | hlifted
        · exact (List.nodup_cons.1 hnodup).1 hrest
        · exact hdisjoint t (hdone t hlifted) t (List.mem_cons_of_mem _ hrest) rfl
      · exact (h.ordered.loop_cases ht' hl).imp_right fun hl => ⟨c, rfl, h.ordered.outer c hid t ht l hl⟩
    · exact .back c rfl (h.ordered.range t ht') hh hl (h.ordered.self t ht' hh).2
  · intro c hc
    rw [hcurrent hc]
    exact h.ordered.callee id hid
  · intro c hc
    rw [hcurrent hc]
    exact h.ordered.continuation id hid

/-! ### The start -/

/-- The start block is the first in the order, and no loop goes around it. -/
theorem Plan.Holds.follows_start (hq : q.Holds) (hid : q.base.order.head? = some id) :
    (q.stage none false [] q.base.order).Follows id := by
  have hmem := List.mem_of_head? hid
  refine .onwards (hq.ordered.range id hmem) hmem nofun fun l hl => .inl ?_
  refine (hq.ordered.loop_cases hmem hl).resolve_right fun hl => ?_
  rw [hq.ordered.start id hid, LoopMask.toList_zero] at hl
  cases hl

section

variable [Source] {post : Unit → State → Prop} {fail : Failure → Prop} {act : LiftM Unit}

theorem extends_setStart {g : Graph} (hg : g.Growing) (x : NodeId) : Extends g (g.setStart x) :=
  have h : Forgets g (g.setStart x) := ⟨fun _ => rfl, rfl, rfl, rfl, fun _ => rfl, fun _ hp => hp⟩
  ⟨h.moves.growing hg (h.sound hg.sound), h.moves⟩

/-- Control stops at the last node, which comes into hand. -/
theorem Inv.suspend {p : Stage} {hand : List (Note × NodeId)} {l : NodeId} (h : Inv p hand s)
    (hl : s.last = some l) : Inv p ((.gap, l) :: hand) (s.withLast none) :=
  h.change h.growing (.refl ..) h.woven nofun (h.takeLast hl)

theorem Plan.Holds.meets_begin (hq : q.Holds) (hid : q.base.order.head? = some id)
    (h : Inv (q.stage none false [] q.base.order) [] s) (hl : s.last = none) (hs : s.arrivals = []) :
    Meets (begin_ id) s
      (fun _ s' => Inv (q.stage none false [] q.base.order) [] (s'.withLast none)) Foreseen := by
  have hready : (q.stage none false [] q.base.order).Ready :=
    ⟨⟨rfl, nofun, nofun, hq.ordered.headers⟩, rfl, nofun, nofun, nofun⟩
  unfold begin_
  refine (h.meets_addStep rfl (.ones [none] rfl (.noState .nil))).bind fun x s1 h1 => ?_
  obtain ⟨h1, hs1, -, hx⟩ := h1
  replace h1 : Inv (q.stage none false [] q.base.order) [(.gap, x)] s1 := h1
  refine meets_bind.2 (meets_onGraph.2 (meets_modify.2 (meets_read.2 ?_)))
  have hset := extends_setStart h1.growing x
  have h2 := h1.extend hset (h1.quiet hset.2.keepsOps (.of_eq rfl))
  refine (meets_clearedFor h2.frame).bind ?_
  rintro f _ ⟨rfl, hf⟩
  refine meets_change.2 ?_
  have hx2 : (s1.graph.setStart x).cls? x = some .start := cls?_of_op? hx
  have hl1 : s1.last = none := by rw [hs1.later.last, hl]
  have h3 := ((h2.pause fun _ => hl1).resume hx2 rfl nofun).withFrame hf
  refine (h3.meets_setState hx2 nofun rfl hf 0).bind fun _ s4 h4 => ?_
  obtain ⟨h4, hs4, -⟩ := h4
  have hl4 : s4.last = some x := by rw [hs4.later.last]; rfl
  refine meets_observe.2 ?_
  have hmem := List.mem_of_head? hid
  split
  · refine (h4.meets_jumpTo hready (.inr (hq.follows_start hid)) (by rw [hl4]; rfl)).imp
      fun _ s5 h5 => h5.1.pause fun _ => h5.2
  · rename_i hheader
    refine meets_modify.2 ?_
    have h5 := h4.suspend hl4
    have hno (j : BlockId) (a : Arrival) : (j, a) ∉ (s4.withLast none).arrivals := by
      show (j, a) ∉ s4.arrivals
      rw [hs4.arrivals]
      show (j, a) ∉ s1.arrivals
      rw [hs1.arrivals, hs]
      exact List.not_mem_nil
    have hx4 := hs4.ops _ _ hx2
    -- there are no merges yet, and no loops
    have hheads : Frame.Heads s4.graph x f := by
      refine ⟨fun y vs hy => ?_, fun hl => ?_⟩
      · have := (h4.woven.phis x y vs hy fun j => hno j _).cls?
        simp [hx4] at this
      · rw [hx4] at hl
        cases hl
    refine h5.arrive h5.growing (.refl ..) ⟨⟨_, hx4, rfl⟩, ?_⟩ (fun _ => rfl)
      (putHead ?_ nofun) (fun hclean => ⟨nofun, fun l hl => ?_, .inr (.inl hmem)⟩)
      (h5.woven.arrive (fun j a ha => absurd ha (hno j a)) (by rintro _ ⟨⟩; exact hheads)
        fun _ _ _ _ ha => absurd ha (hno _ _))
    · rintro _ ⟨⟩
      exact hf.mono hs4.ops
    · rw [without_eq_self (hno id)]
      exact h5.accounts
    · -- no loop goes around the start block
      have hblock : s4.map.block id = q.base.block id := h4.map.block id (hq.ordered.range id hmem)
      replace hl : l ∈ LoopMask.toList (s4.map.block id).loops := hl
      rw [hblock] at hl hheader
      have := (Flow.mem_outerLoops fun hh => absurd hh hheader).2 ⟨hl, fun hh => absurd hh hheader⟩
      rw [hq.ordered.start id hid, LoopMask.toList_zero] at this
      cases this

/-! ### All blocks -/

/-- The blocks of the method in their order. -/
theorem Plan.Holds.meets_blocks (hq : q.Holds)
    (h : Inv (q.stage none false [] q.base.order) [] (s.withLast none)) :
    Meets (forIn q.base.order PUnit.unit fun id _ => do
        liftBlock id
        pure (ForInStep.yield PUnit.unit)) s
      (fun _ s' => ∃ current lifted, (∀ j ∈ lifted, j ∈ q.base.order) ∧
        Inv (q.stage current false lifted []) [] (s'.withLast none)) Foreseen := by
  refine (Meets.forIn (fun rest s' => ∃ done, q.base.order = done ++ rest ∧ ∃ current lifted,
    (∀ j ∈ lifted, j ∈ done) ∧ Inv (q.stage current false lifted rest) [] (s'.withLast none))
    ⟨[], rfl, none, [], nofun, h⟩ ?_).imp ?_
  · rintro id rest s ⟨done, hsplit, current, lifted, hdone, h⟩
    have hid : id ∈ q.base.order := by simp [hsplit]
    have hnot : id ∉ done := fun hd => by
      have := hq.ordered.nodup
      rw [hsplit] at this
      exact (List.nodup_append.1 this).2.2 id hd id (by simp) rfl
    have hblock : s.map.block id = q.base.block id := h.map.block id (hq.ordered.range id hid)
    have hrest (j : BlockId) (hj : j ∈ id :: rest) : j = id ∨ j ∈ rest := List.mem_cons.1 hj
    refine (h.meets_liftBlock (fun hl => hnot (hdone id hl)) hrest
      (fun _ => hq.ready hsplit hdone) (fun hclean hkind => ?_) fun he hkind => ?_).bind
      fun _ s' h' => ?_
    · rw [hblock] at hkind ⊢
      exact hq.plain hclean id hid ((hq.ordered.kind id hid).resolve_left hkind)
    · rw [hblock] at hkind ⊢
      exact hq.runs he id hid hkind
    · obtain ⟨current', lifted', h', hlifted, -⟩ := h'
      refine ⟨rfl, done ++ [id], by simp [hsplit], current', lifted', fun j hj => ?_, h'⟩
      rcases hlifted with rfl | ⟨rfl, -⟩
      · rcases List.mem_cons.1 hj with rfl | hj
        · simp
        · simp [hdone j hj]
      · simp [hdone j hj]
  · rintro _ s' ⟨done, hsplit, current, lifted, hdone, h⟩
    rw [List.append_nil] at hsplit
    exact ⟨current, lifted, fun j hj => hsplit ▸ hdone j hj, h⟩

/-- What holds of the graph of a method before it is cleaned up. -/
structure Finished (q : Plan) (g : Graph) : Prop where
  growing : g.Growing
  woven : Woven q.clean g []
  vacant : q.clean = true → ∀ x, ¬ g.Notes .held x
  finished : q.exact = true → ∀ k x, k.isDebt = true → ¬ g.Notes k x

section

variable (h : Inv (q.stage current false lifted []) [] (s.withLast none))

include h

/-- Once all blocks are lifted, nothing is awaited. -/
theorem Inv.finished
    (hlifted : q.clean → ∀ j a, (j, a) ∈ s.arrivals → j ∈ lifted) : Finished q s.graph where
  growing := h.growing
  woven :=
    { loops := h.woven.loops
      exits := h.woven.exits
      phis := fun merge x vs hx _ => h.woven.phis merge x vs hx fun j hmem => by
        simpa using h.settled j _ hmem nofun
      firsts := .nil
      heads := nofun }
  vacant hclean := (h.tidy hclean).vacant
  finished he k x hk hx := by
    have hmem := h.accounts.all he k x hk hx
    have hnil : awaited lifted (s.withLast none) = [] := by
      simp only [awaited, State.withLast, Option.toList, List.map_nil, List.nil_append,
        List.map_eq_nil_iff, List.filter_eq_nil_iff, decide_eq_true_eq, not_not]
      exact fun a ha => hlifted (q.clean_of_exact he) a.1 a.2 ha
    rw [List.nil_append] at hmem
    rw [show awaited (q.stage current false lifted []).lifted (s.withLast none) = [] from hnil] at hmem
    cases hmem

/-- A block where the method is left is lifted, if there is one; then something else is done. -/
theorem Inv.meets_liftLeaving {leaving : Option BlockId} {P : BlockId → Prop}
    (hleaving : ∀ id, leaving = some id → s.Leaves id ∧ id ∉ lifted)
    (hwaits : q.clean → ∀ j a, (j, a) ∈ s.arrivals → j ∈ lifted ∨ leaving = some j ∨ P j)
    (hfail : ∀ e, Foreseen e → fail e)
    (hact : ∀ s' current' lifted', Inv (q.stage current' false lifted' []) [] (s'.withLast none) →
      SameWays s s' → (∀ j ∈ lifted', j ∈ lifted ∨ leaving = some j) →
      (q.clean → ∀ j a, (j, a) ∈ s'.arrivals → j ∈ lifted' ∨ P j) → Meets act s' post fail) :
    Meets (do
        if let some id := leaving then liftBlock id
        act) s post fail := by
  split
  · rename_i id
    obtain ⟨hid, hnew⟩ := hleaving id rfl
    have hkind : isLeaving (s.map.block id).kind := by
      rcases hid with hid | hid
      · have := h.map.returns id hid
        exact congrArg isLeaving this
      · obtain ⟨bci, hb⟩ := h.map.unwinds id hid
        exact congrArg isLeaving hb
    have hrest : ∀ j ∈ ([] : List BlockId), j = id ∨ j ∈ ([] : List BlockId) := List.forall_mem_nil _
    refine meets_bind.2 ((h.meets_liftBlock hnew hrest (fun hk => ?_)
      (fun _ _ => (h.map.leaves id hid).2.2) fun _ hk => ?_).mono ?_ hfail)
    · simp [hkind] at hk
    · simp [hk, isLeaving] at hkind
    · rintro _ s' ⟨current', lifted', h', hlifted, hways⟩
      refine hact s' current' lifted' h' (hways hkind) (fun j hj => ?_) fun hclean j a hmem => ?_
      · rcases hlifted with rfl | ⟨rfl, -⟩
        · rcases List.mem_cons.1 hj with rfl | hj
          · exact .inr rfl
          · exact .inl hj
        · exact .inl hj
      · rcases hwaits hclean j a ((hways hkind).arrivals ▸ hmem), hlifted with
          ⟨hj | ⟨⟨⟩⟩ | hj, rfl | ⟨rfl, hno⟩⟩
        · exact .inl (List.mem_cons_of_mem _ hj)
        · exact .inl hj
        · exact .inl (List.mem_cons_self ..)
        · exact absurd hmem (hno a)
        · exact .inr hj
        · exact .inr hj
  · rename_i hnone
    refine hact s current lifted h ⟨rfl, rfl, rfl⟩ (fun _ => .inl) fun hclean j a hmem => ?_
    exact (hwaits hclean j a hmem).imp_right fun hj => hj.resolve_left (hnone j)

/-- The blocks where the method is left are lifted after the others, that for exceptions last. -/
theorem Inv.meets_leavingBlocks (hlifted : ∀ j ∈ lifted, j.index < q.base.blocks.size)
    (hfail : ∀ e, Foreseen e → fail e)
    (hact : ∀ s', Finished q s'.graph → Meets act s' post fail) :
    Meets (do
        if let some id := (← get).returnBlock then liftBlock id
        if let some id := (← get).unwindBlock then liftBlock id
        act) s post fail := by
  have hnew {s' : State} (h' : MapOk q.base s'.map s'.returnBlock s'.unwindBlock) {id : BlockId}
      (hid : s'.Leaves id) : id ∉ lifted := fun hmem =>
    absurd (hlifted id hmem) (Nat.not_lt.2 (h'.leaves id hid).1)
  refine meets_read.2 (h.meets_liftLeaving (P := fun j => s.unwindBlock = some j)
    (fun id hid => ⟨.inl hid, hnew h.map (.inl hid)⟩) (fun hclean j a hmem => ?_) hfail ?_)
  · rcases ((h.tidy hclean).arrivals j a hmem).waiting with hj | hj | hj
    · exact .inl hj
    · cases hj
    · exact .inr hj
  intro s1 _ lifted1 h1 hways hlifted1 hwaits1
  refine meets_read.2 (h1.meets_liftLeaving (P := fun _ => False) (fun id hid => ⟨.inr hid, fun hmem => ?_⟩)
    (fun hclean j a hmem => ?_) hfail fun s2 _ _ h2 _ _ hwaits2 => ?_)
  · rcases hlifted1 id hmem with hmem | hr
    · exact hnew h1.map (.inr hid) hmem
    · obtain ⟨bci, hb⟩ := h1.map.unwinds id hid
      rw [h1.map.returns id (hways.returnBlock.trans hr)] at hb
      cases hb
  · rw [hways.unwindBlock, or_false]
    exact hwaits1 hclean j a hmem
  · exact hact s2 (h2.finished fun hclean j a hmem => (hwaits2 hclean j a hmem).resolve_right not_false)

end

section

variable (hq : q.Holds) (hfail : ∀ e, Foreseen e → fail e)
  (hact : ∀ s', Finished q s'.graph → Meets act s' post fail)

include hq hfail hact

/-- What is done once the graph has begun. -/
theorem Plan.Holds.meets_afterBegin (h : Inv (q.stage none false [] q.base.order) [] (s.withLast none)) :
    Meets (do
      for id in q.base.order do liftBlock id
      if let some id := (← get).returnBlock then liftBlock id
      if let some id := (← get).unwindBlock then liftBlock id
      act) s post fail := by
  refine meets_bind.2 ((hq.meets_blocks h).mono ?_ hfail)
  rintro _ s' ⟨current, lifted, hlifted, h'⟩
  exact h'.meets_leavingBlocks (fun j hj => hq.ordered.range j (hlifted j hj)) hfail hact

end

/-- Lifting all blocks of a method, and cleaning up what comes of it. -/
theorem Plan.Holds.meets_all (hq : q.Holds) (h : Inv (q.stage none false [] q.base.order) [] s)
    (hl : s.last = none) (hs : s.arrivals = []) (hmap : s.map = q.base)
    (hfail : ∀ e, Foreseen e → fail e)
    (hcleanUp : ∀ s', Finished q s'.graph → Meets (onGraph cleanUp) s' post fail) :
    Meets all s post fail := by
  unfold all
  refine meets_read.2 ?_
  dsimp only
  rw [hmap]
  split
  · rename_i id hid
    exact meets_bind.2 ((hq.meets_begin hid h hl hs).mono
      (fun _ s' h' => hq.meets_afterBegin hfail hcleanUp h') hfail)
  · exact hq.meets_afterBegin hfail hcleanUp (h.pause fun _ => hl)

end

end SeaOfNodes.Lift
