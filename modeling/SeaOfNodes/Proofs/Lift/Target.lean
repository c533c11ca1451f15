import SeaOfNodes.Lift.Target
import SeaOfNodes.Proofs.Flow.Block
import SeaOfNodes.Proofs.Lift.Invariant

/-!
# Entering blocks keeps the accounts

An edge leads onwards to a block that waits to be lifted, or back to the header of a loop around the
current block, or out of the method. The node at which it arrives comes into hand; all else that an
edge leaves unfinished is where it is expected.
-/

namespace SeaOfNodes.Lift

open Graph

variable {p : Stage} {s s' : State} {hand hand' : List (Note × NodeId)} {id : BlockId} {f : Frame}
  {a : Arrival}

/-- Control may go from the current block to another one: onwards, or back to the header of a loop
around the current block. -/
inductive Stage.Follows (p : Stage) (id : BlockId) : Prop
  | onwards (range : id.index < p.base.blocks.size) (rest : id ∈ p.rest) (lifted : id ∉ p.lifted)
    (loops : ∀ l ∈ LoopMask.toList (p.base.block id).loops, p.base.header? l = some id ∨
      ∃ c, p.current = some c ∧ l ∈ LoopMask.toList (p.base.block c).loops)
  | back (c : BlockId) (current : p.current = some c)
    (range : id.index < p.base.blocks.size)
    (header : (p.base.block id).isLoopHeader = true)
    (loop : (p.base.block id).loop ∈ LoopMask.toList (p.base.block c).loops)
    (self : p.base.header? (p.base.block id).loop = some id)

/-- The current block is being lifted, and its loop is open if it has one. -/
structure Stage.Under (p : Stage) : Prop where
  opening : p.opening = false
  lifted : ∀ id ∈ p.lifted, id.index < p.base.blocks.size
  current : ∀ c, p.current = some c → c ∈ p.lifted
  headers : ∀ l h, p.base.header? l = some h →
    h.index < p.base.blocks.size ∧ (p.base.block h).isLoopHeader = true

/-- Edges may be made from the current block. -/
structure Stage.Ready (p : Stage) : Prop extends p.Under where
  merging : p.merging = none
  successors : ∀ c, p.current = some c → ∀ t ∈ (p.base.block c).successors, p.Follows t
  callee : ∀ c, p.current = some c → ∀ t, (p.base.block c).callee = some t →
    t ∈ (p.base.block c).successors
  continuation : ∀ c, p.current = some c → ∀ t, (p.base.block c).continuation = some t →
    t ∈ (p.base.block c).successors

/-- The stage at which a frame is merged into that of a block. -/
def Stage.merge (p : Stage) (id : BlockId) : Stage := { p with merging := some id }

theorem Stage.Under.merge (h : p.Under) : (p.merge id).Under :=
  ⟨h.opening, h.lifted, h.current, h.headers⟩

theorem Stage.Follows.merge {t : BlockId} (h : p.Follows t) : (p.merge id).Follows t := by
  cases h with
  | onwards range rest lifted loops => exact .onwards range rest lifted loops
  | back c current range header loop self => exact .back c current range header loop self

/-- Control may go from the current block to another one, or out of the method. -/
def LeadsTo (p : Stage) (s : State) (id : BlockId) : Prop := s.Leaves id ∨ p.Follows id

theorem LeadsTo.later (h : LeadsTo p s id) (hs : Later s s') : LeadsTo p s' id :=
  h.imp_left (hs.leaves id)

theorem LeadsTo.merge {t : BlockId} (h : LeadsTo p s t) : LeadsTo (p.merge id) s t :=
  h.imp_right Stage.Follows.merge

theorem Tidy.withMerging (merging : Option BlockId) (h : Tidy p s) : Tidy { p with merging } s where
  arrivals id a hmem :=
    ⟨(h.arrivals id a hmem).opened, (h.arrivals id a hmem).inside, (h.arrivals id a hmem).waiting⟩
  entered := h.entered
  vacant := h.vacant

theorem mem_exitedHeaders {map : BlockMap} {source target i : BlockId}
    (h : i ∈ exitedHeaders map source target) :
    ∃ l ∈ LoopMask.toList (map.block source).loops, map.header? l = some i := by
  unfold exitedHeaders at h
  obtain ⟨l, hl, hi⟩ := List.mem_filterMap.1 (List.mem_mergeSort.1 h)
  exact ⟨l, (LoopMask.mem_toList_andNot.1 hl).1, hi⟩

/-- The state with another way to enter a block. -/
def State.arrive (s : State) (id : BlockId) (a : Arrival) : State :=
  { s with arrivals := (id, a) :: s.arrivals.filter (·.1 ≠ id) }

theorem mem_arrive {j : BlockId} {b : Arrival} :
    (j, b) ∈ (s.arrive id a).arrivals ↔ (j = id ∧ b = a) ∨ (j, b) ∈ s.arrivals ∧ j ≠ id := by
  simp [State.arrive]

theorem awaited_arrive_of_mem (hid : id ∈ p.lifted) (a : Arrival) :
    awaited p.lifted (s.arrive id a) = awaited p.lifted (s.without id) := by
  unfold awaited State.arrive
  rw [List.filter_cons_of_neg (by simpa using hid)]
  rfl

theorem without_eq_self (h : ∀ a, (id, a) ∉ s.arrivals) : s.without id = s := by
  have : s.arrivals.filter (·.1 ≠ id) = s.arrivals := by
    refine List.filter_eq_self.2 fun b hb => decide_eq_true ?_
    rintro rfl
    exact h b.2 hb
  rw [State.without, this]

/-- The head of a block is put into the accounts. -/
theorem putHead {g : Graph}
    (h : Accounts p.exact g ((.gap, a.first) :: (hand ++ awaited p.lifted (s.without id))))
    (hid : p.exact → id ∉ p.lifted) :
    Accounts p.exact g (hand ++ awaited p.lifted (s.arrive id a)) := by
  by_cases hl : id ∈ p.lifted
  · rw [awaited_arrive_of_mem hl]
    exact h.drop fun he => absurd hl (hid he)
  · exact h.perm (List.perm_middle.symm.trans
      ((awaited_cons (s := s.without id) hl a).symm.append_left _))

section

variable [Source] {c : NodeClass} {t : NodeId}

/-- The header of a loop around the current block is lifted, and its loop is open. -/
theorem Inv.header (h : Inv p hand s) (hp : p.Under) (hclean : p.clean) {c : BlockId}
    (hc : p.current = some c) {l : Nat} (hl : l ∈ LoopMask.toList (p.base.block c).loops) :
    ∃ i, p.base.header? l = some i ∧ i ∈ p.lifted ∧
      ∀ a, (i, a) ∈ s.arrivals → s.graph.cls? a.first = some .loopBegin := by
  have htidy := h.tidy hclean
  have hlifted := hp.current c hc
  obtain ⟨a, ha⟩ := htidy.entered c hlifted
  obtain ⟨i, hi, hmem⟩ := (htidy.arrivals c a ha).inside l (by rwa [h.map.block c (hp.lifted c hlifted)])
  replace hmem : i ∈ p.lifted := by
    rcases hmem with rfl | hmem
    · exact hlifted
    · exact hmem
  have hbase : p.base.header? l = some i := by
    rwa [BlockMap.header?, h.map.headers] at hi
  refine ⟨i, hbase, hmem, fun b hb => (htidy.arrivals i b hb).opened hmem ?_ ?_⟩
  · rw [h.map.block i (hp.lifted i hmem)]
    exact (hp.headers l i hbase).2
  · simp [hp.opening]

/-- There is one way to enter a block. -/
theorem Inv.arrival_unique (h : Inv p hand s) {b : Arrival} (ha : (id, a) ∈ s.arrivals)
    (hb : (id, b) ∈ s.arrivals) : a = b :=
  congrArg Prod.snd (List.inj_on_of_nodup_map h.keys ha hb rfl)

/-- Where an edge leads: to a block that waits, or back to an open loop. -/
theorem Inv.way (h : Inv p hand s) (hp : p.Under) (hclean : p.clean)
    (hid : LeadsTo p s id) :
    (id ∉ p.lifted ∧ (id ∈ p.rest ∨ s.Leaves id) ∧
      ∀ l ∈ LoopMask.toList (s.map.block id).loops,
        ∃ i, s.map.header? l = some i ∧ (i = id ∨ i ∈ p.lifted)) ∨
    id ∈ p.lifted ∧ ∀ a, (id, a) ∈ s.arrivals → s.graph.cls? a.first = some .loopBegin := by
  have hheaders : s.map.header? = p.base.header? := by
    funext l
    rw [BlockMap.header?, h.map.headers, BlockMap.header?]
  rcases hid with hid | hid
  · obtain ⟨hrange, hloops, -⟩ := h.map.leaves id hid
    refine .inl ⟨fun hl => ?_, .inr hid, fun l hl => ?_⟩
    · have := hp.lifted id hl
      omega
    · rw [hloops, LoopMask.toList_zero] at hl
      cases hl
  · cases hid with
    | onwards range rest lifted loops =>
      refine .inl ⟨lifted, .inl rest, fun l hl => ?_⟩
      rw [h.map.block id range] at hl
      rw [hheaders]
      rcases loops l hl with hself | ⟨c, hc, hlc⟩
      · exact ⟨id, hself, .inl rfl⟩
      · obtain ⟨i, hi, hmem, -⟩ := h.header hp hclean hc hlc
        exact ⟨i, hi, .inr hmem⟩
    | back c hc range header loop self =>
      obtain ⟨i, hi, hmem, hopen⟩ := h.header hp hclean hc loop
      obtain rfl : id = i := Option.mem_unique self hi
      exact .inr ⟨hmem, hopen⟩

/-! ### Loop exits -/

/-- A frame becomes the state after an exit, if it holds proxies of the exit only. -/
theorem Inv.meets_setExitState (h : Inv p hand s) {x : NodeId}
    (hx : s.graph.cls? x = some .loopExit) (hf : f.Fits s.graph)
    (hproxies : p.clean → ∀ v ∈ nodesIn f.slots, s.graph.isAlive v →
      IsProxy s.graph.joint? x v) (bci : Int) :
    Meets (setState x f bci) s (fun _ s' => Inv p hand s' ∧ Grows s s') Foreseen := by
  refine meets_onGraph.2 (meets_bind.2 ((Frame.meets_materialize h.growing hf _).mono
    (fun state g1 h1 => ?_) fun c hc => .inl (.inl hc)))
  obtain ⟨he1, -, hs, hq1, ⟨op, rest, hj1, hop⟩, halive⟩ := h1
  have hk1 := he1.2.keepsOps
  refine (meets_setStateAfter_growing he1.1 (hk1 x _ hx) rfl hs).mono (fun _ g2 h2 => ?_)
    fun _ => False.elim
  obtain ⟨hg2, -, hm2, -, hexit⟩ := h2
  obtain ⟨first, second, hjx, hj2⟩ := hexit rfl
  have hkeep {y : NodeId} {j : Joint} (hy : g1.joint? y = some j) (hc : j.op.cls ≠ .loopExit) :
      g2.joint? y = some j := by
    rw [hj2]
    refine update_of_joint hy fun hx => hc ?_
    rw [hjx] at hx
    cases hx
    rfl
  have hw1 := h.quiet hk1 hq1
  have hok1 (id : BlockId) (a : Arrival) (hmem : (id, a) ∈ s.arrivals) : ArrivalOk g1 a :=
    (h.arrivals id a hmem).mono hk1
  have hexit (hc : p.clean) : ExitOk g2.joint? x first [some state] := by
    obtain ⟨b, ends, hfirst, hb⟩ := (hw1.exits hc x first second hjx).loop
    refine ⟨⟨b, ends, hfirst, hkeep hb nofun⟩, fun st hst => ?_⟩
    obtain rfl : st = state := by simpa using hst
    refine ⟨op, _, rest, hkeep hj1 (by rw [hop]; decide), hop, fun v hv => ?_⟩
    -- what the state holds is alive, and was so before
    obtain ⟨slot, hmem, hslot⟩ := List.mem_map.1 hv
    obtain ⟨t, rfl, rfl⟩ := Option.map_eq_some_iff.1 hslot
    have hnode : t.node ∈ nodesIn f.slots := mem_nodesIn.2 ⟨t, hmem, rfl⟩
    obtain ⟨n, hn⟩ := hf.slots.node?_of_mem hnode
    obtain ⟨kind, value, hproxy⟩ := hproxies hc _ hnode
      (hk1.alive _ _ (op?_of_node? hn) (halive _ hnode))
    exact ⟨kind, value, hkeep (hq1.joint? hproxy) nofun⟩
  obtain ⟨hw, hgrafts⟩ := hw1.exit hok1 hm2.keepsOps (fun j hj => by rw [hjx] at hj; cases hj; rfl)
    hj2 hexit
  have hm := he1.2.trans hm2
  exact ⟨h.extend ⟨hg2, hm⟩ hw, grows_graph hm.keepsOps (hq1.grafts.trans hgrafts)⟩

/-- The exit of a loop that is entered where `header` is. -/
theorem Inv.meets_addExit (h : Inv p hand s) {header : BlockId}
    (hh : p.clean → ∀ a, (header, a) ∈ s.arrivals → s.graph.cls? a.first = some .loopBegin)
    (hf : f.Fits s.graph) (bci : Int) :
    Meets (addExit bci header f) s
      (fun r s' => Inv p ((.loose, r.1) :: (.gap, r.1) :: hand) s' ∧ Grows s s' ∧
        s'.graph.cls? r.1 = some .loopExit ∧ r.2.Fits s'.graph) Foreseen := by
  unfold addExit arrival?
  rw [meets_bind, meets_bind, meets_get, meets_pure]
  split
  · rename_i loopBegin entry harr
    have hmem := (lookup_eq_some_iff_mem h.keys).1 harr
    obtain ⟨⟨c, hc, hhead⟩, hentry⟩ := h.arrivals _ _ hmem
    have hsupplied : Supplied s.graph .loopExit [.one loopBegin, .one none] := by
      refine ⟨Node.fits_ofInputs (.cons (Node.linkFits_one (by decide) ?_)
        (.cons (Node.linkFits_one (by decide) nofun) .nil)), .cons nofun (.cons nofun .nil),
        Node.typed_plain nofun nofun fun _ => rfl⟩
      rintro _ ⟨⟩
      refine ⟨c, hc, ?_⟩
      revert hhead
      cases c <;> decide
    -- a new exit has no state yet
    have hexit {x : NodeId} {g' : Graph} (hx : Builds (fun _ => False) s.graph g' x (.loopExit loopBegin))
        (hk : KeepsOps s.graph g') : Woven p.clean g' s.arrivals ∧ Grafts s.graph g' := by
      have hnone := joint?_eq_none_of_fresh (hx.node?_eq_none)
      refine h.woven.exit h.arrivals hk (fun j hj => by rw [hnone] at hj; cases hj) hx.joints
        fun hclean => ?_
      have hb := hh hclean _ hmem
      obtain ⟨ends, hb⟩ := exists_joint?_of_loopBegin (h.growing.isAlive hb rfl) hb
      refine ⟨⟨loopBegin, ends, rfl, ?_⟩, fun st hst => ?_⟩
      · rw [hx.joints]
        exact update_of_joint hb (by simp [hnone])
      · cases List.mem_singleton.1 hst
    refine (h.meets_add rfl hsupplied nofun (fun hclean => ?_) fun x g' hx hk => (hexit hx hk).1).bind fun exit s1 h1 => ?_
    · simp [heldBy, Node.ofInputs, Node.targets, Node.links, Links.targets, Links.slots,
        Link.slots, hh hclean _ hmem]
    obtain ⟨h1, ha1, hb1⟩ := h1
    have hs1 : Grows s s1 := ⟨ha1, (hexit hb1 ha1.ops).2⟩
    have hexit1 : s1.graph.cls? exit = some .loopExit := cls?_of_node? hb1.node
    have hmem1 := hs1.mem_arrivals.2 hmem
    have hheader (hclean : p.clean) : entry.Fits s1.graph ∧ ∀ x ∈ nodesIn entry.slots,
        s1.graph.isAlive x → ∃ vs, IsPhi s1.graph.joint? loopBegin x vs :=
      ⟨(h1.arrivals _ _ hmem1).frame entry rfl,
        (h1.woven.heads _ _ _ hmem1).loop (hs1.ops _ _ (hh hclean _ hmem))⟩
    refine meets_bind.2 (meets_onGraph.2 ((Frame.meets_insertProxies h1.growing hexit1
      (hf.mono hs1.ops) hheader).mono
      (fun f2 g2 h2 => ?_) fun c hc => .inl (.inl hc)))
    obtain ⟨he2, hq2, hf2, hproxies⟩ := h2
    have hk2 := he2.2.keepsOps
    refine ((h1.extend he2 (h1.quiet hk2 hq2)).meets_setExitState (hk2 _ _ hexit1) hf2 hproxies
      bci).bind fun _ s3 h3 => ?_
    exact ⟨h3.1, (hs1.trans (grows_graph hk2 hq2.grafts)).trans h3.2,
      h3.2.ops _ _ (hk2 _ _ hexit1), hf2.mono h3.2.ops⟩
  · trivial

/-- Exits in front of a node in hand, each leading to the next. -/
theorem Inv.meets_addExits (headers : List BlockId) (h : Inv p ((.loose, t) :: hand) s)
    (hh : p.clean → ∀ i ∈ headers, ∀ a, (i, a) ∈ s.arrivals →
      s.graph.cls? a.first = some .loopBegin)
    (hf : f.Fits s.graph) (bci : Int) :
    Meets (addExits bci t headers f) s
      (fun r s' => Inv p ((.loose, r.1) :: hand) s' ∧ Grows s s' ∧ r.2.Fits s'.graph) Foreseen := by
  induction headers generalizing s hand f with
  | nil => exact ⟨h, .refl s, hf⟩
  | cons header rest ih =>
    unfold addExits
    refine (h.meets_addExit (fun hc => hh hc header (by simp)) hf bci).bind fun r1 s1 h1 => ?_
    obtain ⟨h1, hs1, hexit, hf1⟩ := h1
    -- the exit stays in hand while the others are put behind it
    have hperm : ((.loose, r1.1) :: (.gap, r1.1) :: (.loose, t) :: hand : List (Note × NodeId)).Perm
        ((.loose, t) :: (.gap, r1.1) :: (.loose, r1.1) :: hand) :=
      ((List.Perm.swap ..).cons _).trans ((List.Perm.swap ..).trans ((List.Perm.swap ..).cons _))
    refine (ih (h1.perm hperm) (fun hc i hi a ha => hs1.ops _ _ (hh hc i (by simp [hi]) a
      (hs1.mem_arrivals.1 ha))) hf1).bind fun r2 s2 h2 => ?_
    obtain ⟨h2, hs2, hf2⟩ := h2
    refine ((h2.perm (.swap ..)).meets_link (hs2.ops _ _ hexit) rfl).bind fun _ s3 h3 => ?_
    exact ⟨h3.1, (hs1.trans hs2).trans h3.2, hf2.mono h3.2.ops⟩

/-- The exits that an edge out of the current block needs. -/
theorem Inv.meets_throughExits (h : Inv p ((.loose, t) :: hand) s) (hp : p.Under) (hf : f.Fits s.graph) :
    Meets (throughExits t id f) s
      (fun r s' => Inv p ((.loose, r.1) :: hand) s' ∧ Grows s s' ∧ r.2.Fits s'.graph) Foreseen := by
  unfold throughExits
  rw [meets_bind, meets_get, h.current]
  cases hc : p.current with
  | none => exact ⟨h, .refl s, hf⟩
  | some c =>
    refine h.meets_addExits _ (fun hclean i hi a ha => ?_) hf _
    obtain ⟨l, hl, hheader⟩ := mem_exitedHeaders hi
    rw [h.map.block c (hp.lifted c (hp.current c hc))] at hl
    obtain ⟨j, hj, -, hopen⟩ := h.header hp hclean hc hl
    rw [BlockMap.header?, h.map.headers] at hheader
    obtain rfl : i = j := Option.mem_unique hheader hj
    exact hopen a ha

/-- A frame is merged into that of a merge, the phis of which have got one more value then. -/
theorem Inv.meets_mergeFrames (h : Inv p hand s) {merge : NodeId} {entry : Frame}
    {count : Nat} (hm : s.graph.cls? merge = some c) (hc : c = .merge ∨ c = .loopBegin)
    (hbusy : (id, ⟨merge, none⟩) ∈ s.arrivals) (he : entry.Fits s.graph) (hf : f.Fits s.graph)
    (hheads : Frame.Heads s.graph merge entry)
    (hcount : ∀ x vs, IsPhi s.graph.joint? merge x vs → vs.length = count)
    (hsides : s.graph.cls? merge = some .merge → Sides s.graph.joint? merge count) :
    Meets (mergeFrames entry merge f) s
      (fun f' s' => Inv p hand s' ∧ Alters s s' ∧ f'.Fits s'.graph ∧
        Anchored s.graph.joint? s'.graph.joint? ∧ Frame.Heads s'.graph merge f' ∧
        ∀ x vs, IsPhi s'.graph.joint? merge x vs → vs.length = count + 1) Foreseen := by
  unfold mergeFrames Frame.merge
  refine meets_bind.2 (meets_onGraph.2 ?_)
  split
  · trivial
  · rename_i hcompat
    refine meets_bind.2 ((Frame.meets_mergeWith h.growing hm hc he hf
      (Frame.length_stack_of_isCompatible (by simpa using hcompat)) hheads hcount hsides).mono
      (fun f' g' hg => ?_) fun c hc => .inl hc)
    obtain ⟨hmerges, hf', hheads', hcount'⟩ := hg
    have hw : Woven p.clean g' s.arrivals := h.woven.merges h.arrivals hmerges
      (fun id' f hmem => nomatch h.woven.eq_of_first hbusy hmem rfl)
      fun x vs _ hfree => absurd hbusy (hfree id)
    exact ⟨h.extend hmerges.grown hw, ⟨hmerges.grown.2.keepsOps, rfl⟩, hf',
      hmerges.splices.anchored, hheads', hcount'⟩

/-! ### Where a block is entered -/

/-- The invariant once a block is entered in another way. -/
theorem Inv.arrive (h : Inv p hand s) {g' : Graph} (hg : g'.Growing) (hst : Steady p.clean s.graph g')
    (hok : ArrivalOk g' a) (hs : p.merging ≠ some id → a.frame.isSome)
    (ha : Accounts p.exact g' (hand' ++ awaited p.lifted (s.arrive id a)))
    (ht : p.clean → TidyAt p s.map g' s.Leaves id a.first)
    (hw : Woven p.clean g' (s.arrive id a).arrivals) :
    Inv p hand' ({ s with graph := g' }.arrive id a) where
  method := h.method
  growing := hg
  frame := h.frame.mono hst.ops
  arrivals j b hb := by
    rcases mem_arrive.1 hb with ⟨rfl, rfl⟩ | ⟨hb, -⟩
    · exact hok
    · exact (h.arrivals j b hb).mono hst.ops
  keys := by
    refine List.nodup_cons.2 ⟨fun hmem => ?_, h.keys.sublist (List.filter_sublist.map _)⟩
    obtain ⟨b, hb, hid⟩ := List.mem_map.1 hmem
    simpa [hid] using (List.mem_filter.1 hb).2
  settled j b hb hj := by
    rcases mem_arrive.1 hb with ⟨rfl, rfl⟩ | ⟨hb, -⟩
    · exact hs hj
    · exact h.settled j b hb hj
  last := h.last_mono hst.ops
  map := h.map
  current := h.current
  code := h.code
  accounts := ha
  tidy hclean :=
    { arrivals := fun j b hb => by
        rcases mem_arrive.1 hb with ⟨rfl, rfl⟩ | ⟨hb, -⟩
        · exact ht hclean
        · exact ((h.tidy hclean).arrivals j b hb).mono hst.ops
      entered := fun j hj => by
        by_cases hji : j = id
        · exact ⟨a, mem_arrive.2 (.inl ⟨hji, rfl⟩)⟩
        · obtain ⟨b, hb⟩ := (h.tidy hclean).entered j hj
          exact ⟨b, mem_arrive.2 (.inr ⟨hb, hji⟩)⟩
      vacant := fun x hx => (h.tidy hclean).vacant x (hst.vacant hclean x hx) }
  woven := hw

/-- The invariant once a block is entered with another frame. -/
theorem Inv.withEntry (h : Inv p hand s) (hmem : (id, a) ∈ s.arrivals)
    {frame : Option Frame} (hs : p.merging ≠ some id → frame.isSome)
    (hf : ∀ f, frame = some f → f.Fits s.graph ∧ Awaits s.graph a.first f) :
    Inv p hand (s.arrive id ⟨a.first, frame⟩) := by
  refine h.arrive h.growing (.refl ..) ⟨(h.arrivals id a hmem).first, fun f hfr => (hf f hfr).1⟩ hs ?_
    (fun hclean => (h.tidy hclean).arrivals id a hmem) (h.woven.arrive (fun j b hb hne heq => ?_)
      (fun f hfr => (hf f hfr).2.heads) fun merge x vs hx hbusy hne => ?_)
  rotate_left
  · exact hne (congrArg Prod.fst (List.inj_on_of_nodup_map h.woven.firsts hb hmem heq))
  · -- the block had no frame, and has one now
    obtain rfl := h.arrival_unique hmem hbusy
    obtain ⟨f, rfl⟩ : ∃ f, frame = some f := Option.ne_none_iff_exists'.1 (by rintro rfl; exact hne rfl)
    exact (hf f rfl).2.sides x vs hx
  by_cases hl : id ∈ p.lifted
  · rw [awaited_arrive_of_mem hl, awaited_without hl]
    exact h.accounts
  · exact h.accounts.perm (((h.awaited_perm hmem hl).trans
      (awaited_cons (s := s.without id) hl ⟨a.first, frame⟩).symm).append_left _)

/-- A frame is about to be merged into that of a block. -/
theorem Inv.merge (h : Inv p hand s) (hm : p.merging = none) : Inv (p.merge id) hand s :=
  { h with
    settled := fun j a hmem _ => h.settled j a hmem (by simp [hm])
    tidy := fun hclean => (h.tidy hclean).withMerging _ }

/-- A frame has been merged into that of a block. -/
theorem Inv.unmerge (h : Inv (p.merge id) hand s)
    (hid : ∀ a, (id, a) ∈ s.arrivals → a.frame.isSome) : Inv p hand s :=
  { h with
    settled := fun j a hmem _ => by
      by_cases hj : j = id
      · exact hid a (hj ▸ hmem)
      · exact h.settled j a hmem fun hm => hj (Option.some.inj hm).symm
    tidy := fun hclean => by
      have := (h.tidy hclean).withMerging p.merging
      exact this }

/-- The head of a block is taken out of the accounts. -/
theorem Inv.takeHead (h : Inv p hand s) (hmem : (id, a) ∈ s.arrivals) (hid : p.exact → id ∉ p.lifted) :
    Accounts p.exact s.graph
      (Accounts.gapIf p.exact a.first ++ (hand ++ awaited p.lifted (s.without id))) := by
  cases he : p.exact with
  | true =>
    have ha := h.accounts.perm (((h.awaited_perm hmem (hid he)).append_left _).trans List.perm_middle)
    rwa [he] at ha
  | false =>
    by_cases hl : id ∈ p.lifted
    · have ha := h.accounts
      rwa [← awaited_without hl, he] at ha
    · have ha := h.accounts.perm (((h.awaited_perm hmem hl).append_left _).trans List.perm_middle)
      rw [he] at ha
      exact ha.drop nofun

/-! ### Merging -/

/-- A placeholder leads to an end, which becomes the first one of a new merge. -/
theorem meets_newMerge {exact : Bool} (clean : Bool) {g : Graph} {owed : List (Note × NodeId)}
    {first : NodeId} (hg : g.Growing) (hfirst : g.cls? first = some .placeholder)
    (ha : Accounts exact g (Accounts.gapIf exact first ++ owed)) :
    Meets (do
        let forwardEnd ← Graph.add .forwardEnd
        Graph.setNext first (some forwardEnd)
        let merge ← Graph.add .merge
        Graph.addForwardEnd merge forwardEnd
        return merge) g
      (fun merge g' => g'.Growing ∧ Steady clean g g' ∧ g'.cls? merge = some .merge ∧
        Accounts exact g' ((.gap, merge) :: owed) ∧ g.node? merge = none ∧
        ∃ ends, g'.joint? = Function.update g.joint? merge (some ⟨.merge, ends, []⟩)) IsStale := by
  have hend : Supplied g .forwardEnd [] := .ones [] rfl .nil
  refine (meets_addNoted clean hg hend rfl nofun (fun _ => rfl) ha).bind fun forwardEnd g1 h1 => ?_
  obtain ⟨h1, hst1, ha1⟩ := h1
  replace ha1 : Accounts exact g1
    ((.loose, forwardEnd) :: (.unlisted, forwardEnd) :: (Accounts.gapIf exact first ++ owed)) := ha1
  have hfirst1 := hst1.ops _ _ hfirst
  refine meets_bind.2 ((meets_setNext_growing h1.growing hfirst1 (h1.growing.isAlive hfirst1 rfl) rfl
    (ha1.holds _ _ (List.mem_cons_self ..) nofun)).mono (fun _ g2 h2 => ?_) fun _ => False.elim)
  obtain ⟨hg2, -, old, hm2, hold, hj2⟩ := h2
  -- the end is still to be listed
  have ha2 : Accounts exact g2 ((.unlisted, forwardEnd) :: owed) :=
    (ha1.perm (List.perm_middle.symm.cons _)).link_gapIf hm2 hold
  refine (meets_addNoted clean hg2 (supplied_merge (.inl rfl)) rfl (fun _ => rfl) (fun _ => rfl) ha2).bind
    fun merge g3 h3 => ?_
  obtain ⟨h3, hst3, ha3⟩ := h3
  have hmerge := cls?_of_node? h3.node
  refine meets_bind.2 ((meets_addForwardEnd_growing h3.growing hmerge (.inl rfl)
    (ha3.holds _ _ (by simp [notesOf]) nofun)).mono (fun _ g4 h4 => ?_) fun _ => False.elim)
  obtain ⟨hg4, -, hm4, op, ends, hself, -, hj4⟩ := h4
  have hst : Steady clean g g3 := (hst1.trans (steady_of_moves hm2 (by simp))).trans hst3
  refine ⟨hg4, hst.trans (steady_of_moves hm4 (by simp)), hm4.keepsOps _ _ hmerge,
    (ha3.perm (.swap ..)).settle [(.unlisted, forwardEnd)] hm4,
    (hst1.ops.trans hm2.keepsOps).node?_eq_none h3.node?_eq_none, ends ++ [some forwardEnd], ?_⟩
  rw [h3.joints, Function.update_self] at hself
  cases hself
  rw [hj4, h3.joints, Function.update_idem, hj2, h1.joints_eq rfl]
  rfl

/-- A block that is not entered through the head of a loop waits to be lifted. -/
theorem Inv.not_mem_lifted (h : Inv p hand s) (hp : p.Under) (hid : LeadsTo p s id)
    (hmem : (id, a) ∈ s.arrivals) (hne : s.graph.cls? a.first ≠ some .loopBegin)
    (hclean : p.clean) : id ∉ p.lifted := by
  rcases h.way hp hclean hid with ⟨hl, -⟩ | ⟨-, hopen⟩
  · exact hl
  · exact absurd (hopen a hmem) hne

section

variable {first : NodeId} {entry : Frame}

theorem Inv.meets_mergeAt (h : Inv p hand s) (hp : p.Under) (hm : p.merging = some id)
    (hid : LeadsTo p s id) (hmem : (id, ⟨first, none⟩) ∈ s.arrivals)
    (hc : s.graph.cls? first = some c) (hkind : c = .placeholder ∨ c = .merge)
    (hw : Awaits s.graph first entry) :
    Meets (mergeAt id first) s
      (fun merge s' => Inv p hand s' ∧ Later s s' ∧ s'.graph.cls? merge = some .merge ∧
        (id, ⟨merge, none⟩) ∈ s'.arrivals ∧ Awaits s'.graph merge entry) Foreseen := by
  unfold mergeAt
  refine meets_bind.2 ((meets_classOf hc).2 ?_)
  rcases hkind with rfl | rfl
  · rw [if_neg (by decide)]
    have hwaits := h.not_mem_lifted hp hid hmem (by simp [hc])
    refine meets_bind.2 (meets_onGraph.2 ((meets_newMerge p.clean h.growing hc
      (h.takeHead hmem fun he => hwaits (p.clean_of_exact he))).mono (fun merge g' h1 => ?_)
      fun c hc => .inl (.inl hc)))
    obtain ⟨hg, hst, hmerge, ha, hnew, ends, hj⟩ := h1
    -- a new merge has no phis
    have hfresh := joint?_eq_none_of_fresh hnew
    have hphi {m x : NodeId} {vs : List (Option NodeId)} (hx : IsPhi g'.joint? m x vs) :
        IsPhi s.graph.joint? m x vs := by
      rw [hj] at hx
      exact (isPhi_update_iff (by nofun) (by simp [hfresh])).1 hx
    have hnone (x : NodeId) (vs : List (Option NodeId)) (hx : IsPhi g'.joint? merge x vs) : False :=
      h.growing.sound.consistent.not_isPhi hnew (hphi hx)
    have hw' : Woven p.clean g' s.arrivals := h.woven.mergeEnds h.arrivals hst.ops
      (fun j hj => by rw [hfresh] at hj; cases hj) hj fun hs => by simp [hfresh] at hs
    have hw'' : Woven p.clean g' (s.arrive id ⟨merge, none⟩).arrivals := by
      refine hw'.arrive (fun j b hb _ => (h.arrivals j b hb).first_ne hnew) nofun fun m x vs hx hbusy _ => ?_
      -- a placeholder has no phis either
      cases h.arrival_unique hmem hbusy
      have := (hw.sides x vs (hphi hx)).cls?
      rw [show s.graph.cls? first = _ from hc] at this
      simp at this
    refine meets_change.2 ⟨?_, ⟨hst.ops, fun _ h => h, rfl⟩, hmerge,
      mem_arrive.2 (.inl ⟨rfl, rfl⟩), ⟨fun x vs hx => absurd hx (hnone x vs), fun hl => ?_⟩,
      fun x vs hx => absurd hx (hnone x vs)⟩
    · refine h.arrive hg hst ⟨⟨_, hmerge, rfl⟩, nofun⟩ (fun hne => absurd hm hne)
        (putHead (a := ⟨merge, none⟩) ha fun he => hwaits (p.clean_of_exact he)) (fun hclean => ?_) hw''
      have := (h.tidy hclean).arrivals id _ hmem
      exact ⟨fun hl => absurd hl (hwaits hclean), this.inside, this.waiting⟩
    · rw [show g'.cls? merge = _ from hmerge] at hl
      cases hl
  · rw [if_pos rfl]
    exact ⟨h, .refl s, hc, hmem, hw⟩

/-- What one more edge into a block gives: the node where it leads, and the frames merged. -/
def Joined (p : Stage) (hand : List (Note × NodeId)) (s : State) (id : BlockId) (r : NodeId × Frame)
    (s' : State) : Prop :=
  Inv p ((.loose, r.1) :: hand) s' ∧ Later s s' ∧ r.2.Fits s'.graph ∧
    ∃ first, (id, ⟨first, none⟩) ∈ s'.arrivals ∧ Awaits s'.graph first r.2

/-- An edge to a block that waits leads to an end of its merge. -/
theorem Inv.meets_forwardInto (h : Inv p hand s) (hp : p.Under) (hm : p.merging = some id)
    (hid : LeadsTo p s id) (hmem : (id, ⟨first, none⟩) ∈ s.arrivals)
    (hc : s.graph.cls? first = some c) (hkind : c = .placeholder ∨ c = .merge)
    (hw : Awaits s.graph first entry) (he : entry.Fits s.graph) (hf : f.Fits s.graph) :
    Meets (do
        let merge ← mergeAt id first
        let forwardEnd ← onGraph (Graph.add .forwardEnd)
        let (target, f) ← throughExits forwardEnd id f
        let entry ← mergeFrames entry merge f
        onGraph (Graph.addForwardEnd merge forwardEnd)
        return (target, entry)) s (Joined p hand s id) Foreseen := by
  refine (h.meets_mergeAt hp hm hid hmem hc hkind hw).bind fun merge s1 h1 => ?_
  obtain ⟨h1, hs1, hmerge, hmem1, hw1⟩ := h1
  refine (h1.meets_addStep rfl (.ones [] rfl .nil)).bind fun forwardEnd s2 h2 => ?_
  obtain ⟨h2, hs2, -⟩ := h2
  refine (Inv.meets_throughExits h2 hp (hf.mono (hs1.ops.trans hs2.ops))).bind fun r s3 h3 => ?_
  obtain ⟨h3, hs3, hf3⟩ := h3
  have hs := hs2.trans hs3
  have hw3 := hw1.graft hs.ops hs.grafts ⟨_, hmerge⟩ (he.mono hs1.ops)
  have hmerge3 := hs.ops _ _ hmerge
  have hmem3 := hs.mem_arrivals.2 hmem1
  -- the phis have a value for each end that the merge has
  obtain ⟨ends, hj3⟩ := exists_joint?_of_merge (h3.growing.isAlive hmerge3 rfl) hmerge3
  have hcount (x : NodeId) (vs : List (Option NodeId)) (hx : IsPhi s3.graph.joint? merge x vs) :
      vs.length = ends.length := (hw3.sides x vs hx).unique (.merge ends hj3)
  refine (h3.meets_mergeFrames hmerge3 (.inl rfl) hmem3 (he.mono (hs1.ops.trans hs.ops)) hf3 hw3.heads
    hcount fun _ => .merge ends hj3).bind fun entry' s4 h4 => ?_
  obtain ⟨h4, hs4, hf4, hanchored, hheads, hcount'⟩ := h4
  have hmem4 := hs4.mem_arrivals.2 hmem3
  refine ((h4.perm (.swap ..)).meets_addForwardEnd (hs4.ops _ _ hmerge3) hmem4).bind
    fun _ s5 h5 => ?_
  obtain ⟨h5, hs5, ends', hj4, hj5⟩ := h5
  obtain rfl : ends' = ends := by
    have := (hanchored merge _ rfl).2 hj3
    rw [hj4] at this
    cases this
    rfl
  have hphi {x : NodeId} {vs : List (Option NodeId)} :
      IsPhi s5.graph.joint? merge x vs ↔ IsPhi s4.graph.joint? merge x vs := by
    rw [hj5]
    exact isPhi_update_iff nofun (by rw [hj4]; rintro _ ⟨⟩; nofun)
  refine ⟨h5, (hs1.trans hs.later).trans (hs4.trans hs5).later, hf4.mono hs5.ops, merge,
    hs5.mem_arrivals.2 hmem4, hheads.mono hs5.ops ⟨_, hs4.ops _ _ hmerge3⟩ hf4 (fun x vs hx => ⟨vs, hphi.1 hx⟩)
      fun x vs hx _ => ⟨vs, hphi.2 hx⟩, fun x vs hx => ?_⟩
  have hsides : Sides s5.graph.joint? merge (ends' ++ [some forwardEnd]).length :=
    .merge _ (by rw [hj5, Function.update_self])
  rw [hcount' x vs (hphi.1 hx)]
  simpa using hsides

/-- An edge back to an open loop leads to a new end of it. -/
theorem Inv.meets_backInto (h : Inv p hand s) (hp : p.Under)
    (hmem : (id, ⟨first, none⟩) ∈ s.arrivals) (hc : s.graph.cls? first = some .loopBegin)
    (hw : Awaits s.graph first entry) (he : entry.Fits s.graph) (hf : f.Fits s.graph) :
    Meets (do
        let loopEnd ← onGraph do
          let ends ← Graph.loopEnds first
          Graph.add (.loopEnd first (Int32.ofNat ends.length))
        let (target, f) ← throughExits loopEnd id f
        return (target, ← mergeFrames entry first f)) s (Joined p hand s id) Foreseen := by
  refine meets_bind.2 (meets_onGraph_bind.2 (meets_onGraph.2 ((meets_loopEnds
    h.growing.sound.consistent h.growing.sound.fits (registered_of_cls? hc)).imp ?_)))
  rintro found _ ⟨rfl, hnodup, hfound⟩
  obtain ⟨ends, hj⟩ := exists_joint?_of_loopBegin (h.growing.isAlive hc rfl) hc
  obtain ⟨back, hback⟩ := h.woven.loops.counted first
  rw [(hback.perm hnodup hfound).length_eq]
  have hend (i : Int32) : Supplied s.graph (.loopEnd i) [.one first] := by
    refine ⟨Node.fits_ofInputs (.cons (Node.linkFits_one (by decide) ?_) .nil), .cons nofun .nil,
      Node.typed_plain nofun nofun fun _ => rfl⟩
    rintro _ ⟨⟩
    exact ⟨_, hc, rfl⟩
  -- the new end is counted
  have hwoven {x : NodeId} {g' : Graph} (hx : Builds (fun _ => False) s.graph g' x
      (.loopEnd first (Int32.ofNat back.length))) (hk : KeepsOps s.graph g') :
      Woven p.clean g' s.arrivals ∧ LoopEnds g'.joint? first (back ++ [x]) :=
    h.woven.newLoopEnd h.arrivals hk (joint?_eq_none_of_fresh (hx.node?_eq_none)) hj
      hback hx.joints hmem
  refine (h.meets_add rfl (hend _) nofun (fun _ => heldBy_eq_nil (hend _).fits nofun) fun x g' hx hk => (hwoven hx hk).1).imp
    fun loopEnd s1 h1 => ?_
  obtain ⟨h1, hs1, hb1⟩ := h1
  have hback1 := (hwoven hb1 hs1.ops).2
  have hfresh := joint?_eq_none_of_fresh (hb1.node?_eq_none)
  have hphi {x : NodeId} {vs : List (Option NodeId)} :
      IsPhi s1.graph.joint? first x vs ↔ IsPhi s.graph.joint? first x vs := by
    rw [hb1.joints]
    exact isPhi_update_iff nofun (by simp [hfresh])
  have hheads1 : Frame.Heads s1.graph first entry := hw.heads.mono hs1.ops ⟨_, hc⟩ he
    (fun x vs hx => ⟨vs, hphi.1 hx⟩) fun x vs hx _ => ⟨vs, hphi.2 hx⟩
  refine (Inv.meets_throughExits h1 hp (hf.mono hs1.ops)).bind fun r s2 h2 => ?_
  obtain ⟨h2, hs2, hf2⟩ := h2
  have hs := hs1.trans hs2.toAlters
  have hmem2 := hs.mem_arrivals.2 hmem
  have hheads2 : Frame.Heads s2.graph first entry := hheads1.mono hs2.ops ⟨_, hs1.ops _ _ hc⟩
    (he.mono hs1.ops) (fun x vs hx => ⟨vs, hs2.grafts.symm.isPhi hx⟩)
    fun x vs hx _ => ⟨vs, hs2.grafts.isPhi hx⟩
  -- the phis have no value for the new end yet
  have hcount (x : NodeId) (vs : List (Option NodeId)) (hx : IsPhi s2.graph.joint? first x vs) :
      vs.length = ends.length + back.length :=
    (hw.sides x vs (hphi.1 (hs2.grafts.symm.isPhi hx))).unique (.loop ends back hj hback)
  refine (h2.meets_mergeFrames (hs.ops _ _ hc) (.inr rfl) hmem2 (he.mono hs.ops) hf2 hheads2 hcount
    fun hm => ?_).bind fun entry' s3 h3 => ?_
  · rw [hs.ops _ _ hc] at hm
    cases hm
  obtain ⟨h3, hs3, hf3, hanchored, hheads3, hcount3⟩ := h3
  have hj1 : s1.graph.joint? first = some ⟨.loopBegin, ends, []⟩ := by
    rw [hb1.joints]
    exact update_of_joint hj (by simp [hfresh])
  have hsides : Sides s3.graph.joint? first (ends.length + (back ++ [loopEnd]).length) :=
    (Sides.loop ends _ hj1 hback1).anchored
      (fun x j ha => (hanchored x j ha).trans (hs2.grafts.anchored x j ha))
  refine ⟨h3, (hs.trans hs3).later, hf3, first, hs3.mem_arrivals.2 hmem2, hheads3, fun x vs hx => ?_⟩
  rw [hcount3 x vs hx]
  simpa [Nat.add_assoc] using hsides

/-- One more edge into a block. -/
theorem Inv.meets_mergeInto (h : Inv p hand s) (hp : p.Under) (hm : p.merging = some id)
    (hid : LeadsTo p s id) (hmem : (id, ⟨first, none⟩) ∈ s.arrivals) (hw : Awaits s.graph first entry)
    (he : entry.Fits s.graph) (hf : f.Fits s.graph) :
    Meets (mergeInto id first entry f) s (Joined p hand s id) Foreseen := by
  unfold mergeInto
  split
  · trivial
  obtain ⟨⟨c, hc, -⟩, -⟩ := h.arrivals _ _ hmem
  refine meets_bind.2 ((meets_classOf hc).2 ?_)
  split
  · exact h.meets_backInto hp hmem hc hw he hf
  · exact h.meets_forwardInto hp hm hid hmem hc (.inl rfl) hw he hf
  · exact h.meets_forwardInto hp hm hid hmem hc (.inr rfl) hw he hf
  · trivial

end

theorem meets_clearedFor (hf : f.Fits s.graph) {fail : Failure → Prop} :
    Meets (clearedFor id f) s (fun f' s' => s' = s ∧ f'.Fits s.graph) fail := by
  unfold clearedFor
  refine meets_read.2 ?_
  split
  · exact ⟨rfl, hf.clearDead _⟩
  · exact ⟨rfl, hf⟩

/-- A block is entered for the first time, through a node in hand that has no phis. -/
theorem Inv.arrive_new {x : NodeId} (h : Inv p ((.loose, t) :: (.gap, x) :: hand) s) (hp : p.Ready)
    (hid : LeadsTo p s id) (hnew : ∀ a, (id, a) ∉ s.arrivals)
    (hx : s.graph.cls? x = some .placeholder) (hf : f.Fits s.graph)
    (hfirst : ∀ j b, (j, b) ∈ s.arrivals → b.first ≠ x)
    (hnone : ∀ y vs, ¬ IsPhi s.graph.joint? x y vs) :
    Inv p ((.loose, t) :: hand) (s.arrive id ⟨x, some f⟩) := by
  have hway (hclean : p.clean) := (h.way hp.toUnder hclean hid).resolve_right fun hl => by
    obtain ⟨a, ha⟩ := (h.tidy hclean).entered id hl.1
    exact hnew a ha
  refine h.arrive h.growing (.refl ..) ⟨⟨_, hx, rfl⟩, by rintro _ ⟨⟩; exact hf⟩ (fun _ => rfl)
    (putHead ?_ fun he => (hway (p.clean_of_exact he)).1) (fun hclean => ?_)
    (h.woven.arrive (fun j b hb _ => hfirst j b hb) ?_ fun m y vs _ hbusy => absurd hbusy (hnew _))
  · rw [without_eq_self hnew]
    exact h.accounts.perm (.swap ..)
  · obtain ⟨hl, hrest, hinside⟩ := hway hclean
    exact ⟨fun hl' => absurd hl' hl, hinside, .inr hrest⟩
  · rintro _ ⟨⟩
    refine ⟨fun y vs hy => absurd hy (hnone y vs), fun hl => ?_⟩
    rw [hx] at hl
    cases hl

/-- Where control must go to enter a block. -/
theorem Inv.meets_target (h : Inv p hand s) (hp : p.Ready) (hid : LeadsTo p s id)
    (hf : f.Fits s.graph) :
    Meets (target id f) s (fun t s' => Inv p ((.loose, t) :: hand) s' ∧ Later s s') Foreseen := by
  unfold target
  refine meets_observe.2 ?_
  split
  · rename_i harr
    refine (h.meets_addStep rfl (.ones [] rfl .nil)).bind fun x s1 h1 => ?_
    obtain ⟨h1, hs1, hfresh, hx⟩ := h1
    have hcls : s1.graph.cls? x = some .placeholder := by
      rw [cls?_eq_map_op?, hx]
      rfl
    refine (Inv.meets_throughExits h1 hp.toUnder (hf.mono hs1.ops)).bind fun r s2 h2 => ?_
    obtain ⟨h2, hs2, hf2⟩ := h2
    refine (meets_clearedFor hf2).bind ?_
    rintro entry _ ⟨rfl, hentry⟩
    have hs := hs1.trans hs2
    refine meets_change.2 (meets_pure.2 ⟨?_, hs.ops, hs.later.leaves, hs.later.last⟩)
    refine Inv.arrive_new h2 hp (hid.later hs.later) (fun a ha => ?_) (hs2.ops _ _ hcls) hentry
      (fun j b hb => (h.arrivals j b (hs.mem_arrivals.1 hb)).first_ne hfresh) fun y vs hy =>
        h.growing.sound.consistent.not_isPhi hfresh (hs.grafts.symm.isPhi hy)
    simp [(lookup_eq_some_iff_mem h.keys).2 (hs.mem_arrivals.1 ha)] at harr
  · trivial
  · rename_i first entry harr
    have hmem := (lookup_eq_some_iff_mem h.keys).1 harr
    refine meets_change.2 ?_
    have h1 : Inv (p.merge id) hand (s.arrive id ⟨first, none⟩) :=
      (h.merge hp.merging).withEntry hmem (fun hne => absurd rfl hne) (by rintro _ ⟨⟩)
    refine (h1.meets_mergeInto hp.toUnder.merge rfl hid.merge (mem_arrive.2 (.inl ⟨rfl, rfl⟩))
      (h.woven.awaits hmem) ((h.arrivals _ _ hmem).frame entry rfl) hf).bind ?_
    rintro ⟨t, entry'⟩ s2 ⟨h2, hs2, hf2, first', hmem2, hw2⟩
    refine meets_observe.2 ?_
    rw [(lookup_eq_some_iff_mem h2.keys).2 hmem2]
    have h3 : Inv (p.merge id) ((.loose, t) :: hand) (s2.arrive id ⟨first', some entry'⟩) :=
      h2.withEntry hmem2 (fun _ => rfl) (by rintro _ ⟨⟩; exact ⟨hf2, hw2⟩)
    refine meets_change.2 (meets_pure.2 ⟨h3.unmerge fun a ha => ?_, hs2.ops,
      hs2.leaves, hs2.last⟩)
    rcases mem_arrive.1 ha with ⟨-, rfl⟩ | ⟨-, hne⟩
    · rfl
    · exact absurd rfl hne

/-- The class of a node in hand. -/
theorem Inv.exists_cls (h : Inv p hand s) {q : Note × NodeId} (hq : q ∈ hand) :
    ∃ c, s.graph.cls? q.2 = some c := by
  obtain ⟨n, hn⟩ := Option.isSome_iff_exists.1 (h.accounts.registered q (List.mem_append_left _ hq))
  exact ⟨n.cls, cls?_of_node? hn⟩

theorem Inv.meets_branchTarget (h : Inv p hand s) (hp : p.Ready) (hid : LeadsTo p s id)
    (hf : f.Fits s.graph) :
    Meets (branchTarget id f) s (fun t s' => Inv p ((.loose, t) :: hand) s' ∧ Later s s') Foreseen := by
  unfold branchTarget
  refine (h.meets_target hp hid hf).bind fun t s1 h1 => ?_
  obtain ⟨h1, hs1⟩ := h1
  obtain ⟨c, hc⟩ := h1.exists_cls (List.mem_cons_self ..)
  refine meets_bind.2 ((meets_classOf hc).2 ?_)
  split
  · exact ⟨h1, hs1⟩
  · exact h1.meets_addBegin.imp fun x s2 h2 => ⟨h2.1, hs1.trans h2.2.1.later⟩

theorem Inv.meets_jumpTo (h : Inv p hand s) (hp : p.Ready) (hid : LeadsTo p s id)
    (hl : s.last.isSome) :
    Meets (jumpTo id) s (fun _ s' => Inv p hand s' ∧ s'.last = none) Foreseen := by
  unfold jumpTo
  refine meets_read.2 ((h.meets_target hp hid h.frame).bind fun t s1 h1 => ?_)
  obtain ⟨h1, hs1⟩ := h1
  exact h1.meets_appendJump (by rw [hs1.last]; exact hl)

end

end SeaOfNodes.Lift
