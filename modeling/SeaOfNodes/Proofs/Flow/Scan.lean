import SeaOfNodes.Proofs.Flow.Layout

/-!
# Reading the instructions of a method

Each step of the search for blocks keeps the blocks found so far in order, so that at the end every
instruction lies in one block, and every block leads where its last instruction leads.
-/

namespace SeaOfNodes

open Bytecode

theorem Arena.modify_modify {τ α : Type} (a : Arena τ α) (id : Handle τ) (f g : α → α) :
    (a.modify id f).modify id g = a.modify id (g ∘ f) := by
  unfold Arena.modify
  refine congrArg Arena.mk (Array.ext_getElem? fun i => ?_)
  simp only [Array.getElem?_modify]
  split <;> simp [Option.map_map]

namespace Flow.Discovery

variable {m : Method} {options : Options} {n bci : Nat} {opened : Option (List BlockId)}
  {d d' : Discovery} {id : BlockId} {c : Cursor} {l : List BlockId} {rows : List (Handler × Nat)}
  {current rest : Option BlockId} {starts : BitSet} {row : Handler} {ks : List Nat}

/-- A step keeps the blocks in order. -/
abbrev Carries (m : Method) (options : Options) (n : Nat) (opened : Option (List BlockId)) {α : Type}
    (act : DiscoverM α) (d : Discovery) (post : α → Discovery → Prop) : Prop :=
  Meets act d (fun r d' => Mapped m options n opened d' ∧ Refined d d' ∧ post r d') (· ≠ .nonReducibleLoop)

theorem Refined.trans {d'' : Discovery} (h : Refined d d') (h' : Refined d' d'') : Refined d d'' :=
  Refines.trans h h'

theorem meets_block (id : BlockId) : Meets (block id) d
    (fun b d' => d = d' ∧ b = d.blocks.block id) (· ≠ .nonReducibleLoop) :=
  meets_read.2 (meets_pure.2 ⟨rfl, rfl⟩)

theorem meets_targetBci (target : Int) :
    Meets (targetBci target) d (fun r d' => d = d' ∧ r = target.toNat) (· ≠ .nonReducibleLoop) := by
  unfold targetBci
  split
  · nofun
  · exact meets_pure.2 ⟨rfl, rfl⟩

/-! ### Blocks for bcis -/

theorem meets_assignAll (tail : BlockId) (count : Nat) :
    Meets (forIn (List.range count) PUnit.unit fun offset _ => do
        assign (bci + offset) tail
        pure (.yield PUnit.unit)) d
      (fun _ d' => Assigned bci tail count d d') (· ≠ .nonReducibleLoop) := by
  refine Meets.forIn_range (fun k d' => Assigned bci tail k d d')
    ⟨rfl, rfl, rfl, rfl, fun i => by rw [if_neg (by omega)]⟩ ?_
  rintro offset - d1 ⟨hblocks, hchains, hplain, hsize, hat⟩
  refine meets_change.2 (meets_pure.2 ⟨rfl, hblocks, hchains, hplain, ?_, fun i => ?_⟩)
  · rw [← hsize]
    exact Array.size_setIfInBounds
  · show (d1.blockAt.setIfInBounds (bci + offset) (some tail))[i]? = _
    rw [Array.getElem?_setIfInBounds, hat, hsize]
    by_cases hi : bci + offset = i
    · subst hi
      rw [if_pos rfl]
      by_cases hin : bci + offset < d.blockAt.size
      · rw [if_pos hin, if_pos (by omega)]
      · rw [if_neg hin, if_neg (by omega), Array.getElem?_eq_none (by omega)]
    · rw [if_neg hi]
      by_cases hin : bci ≤ i ∧ i < bci + offset ∧ i < d.blockAt.size
      · rw [if_pos hin, if_pos (by omega)]
      · rw [if_neg hin, if_neg (by omega)]

theorem Mapped.meets_split (h : Mapped m options n opened d) (hbci : Site m.code bci)
    (hid : d.blockAt[bci]? = some (some id)) (hstart : (d.blocks.block id).start ≠ bci) :
    Carries m options n opened (Discovery.split id bci) d
      fun tail d' => Starts d'.blocks d'.blockAt bci tail := by
  unfold Discovery.split
  refine (meets_block id).bind ?_
  rintro head _ ⟨rfl, rfl⟩
  refine meets_bind.2 (meets_modifyGet.2 (meets_change.2 ?_))
  exact (meets_assignAll _ _).bind fun _ d1 h1 => meets_pure.2 (h.split hbci hid hstart h1)

theorem Mapped.meets_blockFrom (h : Mapped m options n opened d) (hbci : Site m.code bci) :
    Carries m options n opened (blockFrom bci) d
      fun id d' => Starts d'.blocks d'.blockAt bci id := by
  unfold blockFrom
  refine meets_observe.2 ?_
  split
  · rename_i hnone
    refine meets_bind.2 (meets_modifyGet.2 (meets_change.2 (meets_pure.2 ?_)))
    exact h.add hbci hnone
  · rename_i id hid
    replace hid := Option.join_eq_some_iff.1 hid
    refine (meets_block id).bind ?_
    rintro b _ ⟨rfl, rfl⟩
    split
    · rename_i hstart
      obtain ⟨hcode, -⟩ := h.within bci id hid
      exact meets_pure.2 ⟨h, .refl, hid, hcode.1, hcode.2, hstart⟩
    · rename_i hstart
      exact h.meets_split hbci hid hstart

/-- Starting a block is no call. -/
theorem meets_blockFrom_called (bci : Nat) (d : Discovery) :
    Ensures (blockFrom bci) d (fun _ d' => d'.hasSubroutines = d.hasSubroutines) := by
  unfold blockFrom
  refine meets_observe.2 ?_
  split
  · exact meets_bind.2 (meets_modifyGet.2 (meets_change.2 (meets_pure.2 rfl)))
  · rename_i id _
    refine meets_observe.2 ?_
    split
    · exact meets_pure.2 rfl
    unfold Discovery.split
    refine meets_observe.2 ?_
    refine meets_bind.2 (meets_modifyGet.2 (meets_change.2 ?_))
    exact ((meets_assignAll _ _).ensures fun _ _ h => h).bind fun _ _ h => meets_pure.2 h.called

/-- A start that is known is found. -/
theorem meets_blockFrom_of_starts (hid : Starts d.blocks d.blockAt bci id) :
    Meets (blockFrom bci) d (fun r d' => r = id ∧ d' = d) (· ≠ .nonReducibleLoop) := by
  unfold blockFrom
  refine meets_observe.2 ?_
  rw [hid.place]
  refine (meets_block id).bind ?_
  rintro b _ ⟨rfl, rfl⟩
  rw [if_pos hid.start]
  exact meets_pure.2 ⟨rfl, rfl⟩

/-- That a block is entered by exceptions is no matter of its range. -/
theorem Mapped.markHandler (h : Mapped m options n opened d) (id : BlockId) :
    let d' := { d with blocks := d.blocks.modify id fun b => { b with isHandler := true } }
    Mapped m options n opened d' ∧ Refined d d' := by
  intro d'
  have hblock (j : BlockId) : d'.blocks.block j = if j = id ∧ id.index < d.blocks.size then
      { d.blocks.block j with isHandler := true } else d.blocks.block j := Blocks.block_modify
  have hsame (j : BlockId) : (d'.blocks.block j).reading = (d.blocks.block j).reading := by
    rw [hblock]
    split <;> rfl
  obtain ⟨hrefined, hkinds, hiff⟩ := refined_modify d id
    (fun b => { b with isHandler := true }) d.blockAt
    (fun _ => ⟨rfl, rfl⟩) (fun _ => rfl) fun _ _ hk => hk
  refine ⟨⟨h.size, fun i j hi => ?_, h.read, h.seen, fun {j} hj => ?_, h.chains.mono hrefined rfl hkinds,
    fun j => ?_, h.plain, h.called⟩, hrefined⟩
  · rw [hiff, hblock]
    split <;> exact h.within i j hi
  · exact (h.lies ((hiff j).1 hj)).keep hrefined (hsame j) fun _ _ => Iff.rfl
  · rw [hblock]
    split
    · exact { h.fresh j with }
    · exact h.fresh j

/-! ### Edges -/

theorem Mapped.meets_connect (h : Mapped m options n (some l) d) (hc : c ∈ instructions m.code)
    (hnext : c.next = n) (t : BlockId) :
    Carries m options n (some (l ++ [t])) (Discovery.connect c.bci t) d fun _ _ => True := by
  obtain ⟨id, hid⟩ := h.seen c hc (hnext ▸ lt_next hc)
  unfold Discovery.connect
  refine (meets_block t).bind ?_
  rintro b _ ⟨rfl, rfl⟩
  split
  · nofun
  refine meets_observe.2 ?_
  rw [hid]
  obtain ⟨hmapped, hrefined⟩ := h.connect hc hnext hid t
  exact meets_modify.2 ⟨hmapped, hrefined, trivial⟩

theorem Mapped.meets_connectTo (h : Mapped m options n (some l) d) (hc : c ∈ instructions m.code)
    (hnext : c.next = n) (hbci : Site m.code bci) :
    Meets (connectTo c.bci bci) d (fun _ d' => ∃ t, Starts d'.blocks d'.blockAt bci t ∧
      Mapped m options n (some (l ++ [t])) d' ∧ Refined d d') (· ≠ .nonReducibleLoop) := by
  refine (h.meets_blockFrom hbci).bind fun t d1 h1 => ?_
  obtain ⟨h1, hd1, ht⟩ := h1
  refine (h1.meets_connect hc hnext t).imp fun _ d2 h2 => ?_
  exact ⟨t, h2.2.1.starts bci t ht, h2.1, hd1.trans h2.2.1⟩

/-! ### Exception dispatch -/

/-- Each row of the exception table has a block for its entry. -/
def Entered (m : Method) (d : Discovery) : Prop :=
  ∀ row ∈ m.handlers, ∃ entry, Starts d.blocks d.blockAt row.entry entry

theorem Entered.mono (h : Entered m d) (hd : Refined d d') : Entered m d' := fun row hrow => by
  obtain ⟨entry, hentry⟩ := h row hrow
  exact ⟨entry, hd.starts _ _ hentry⟩

/-- A dispatch block is added. -/
theorem Mapped.addDispatch (h : Mapped m options n opened d) {index : Nat}
    {entry : BlockId} (hrow : (row, index) ∈ m.handlers.zipIdx)
    (hentry : Starts d.blocks d.blockAt row.entry entry)
    (hrest : ∀ t ∈ rest, t.index < d.blocks.size) (hnone : d.chains.lookup (rest, index) = none)
    (at_ : Int) :
    let d' := { d with
      blocks := d.blocks.push { Block.startingAt (-1) (.dispatch index at_) with
        successors := entry :: rest.toList }
      chains := ((rest, index), d.blocks.next) :: d.chains }
    Mapped m options n opened d' ∧ Refined d d' ∧ d.blocks.next.index < d'.blocks.size ∧
      (d'.blocks.block d.blocks.next).kind = .dispatch index at_ ∧
      (d'.blocks.block d.blocks.next).successors = entry :: rest.toList := by
  intro d'
  have hsize : d'.blocks.size = d.blocks.size + 1 := Blocks.size_push
  have hblock (j : BlockId) : d'.blocks.block j = if j = d.blocks.next then
      { Block.startingAt (-1) (.dispatch index at_) with successors := entry :: rest.toList }
      else d.blocks.block j := Blocks.block_push
  have hnew := hblock d.blocks.next
  rw [if_pos rfl] at hnew
  have hkind : (d'.blocks.block d.blocks.next).kind = .dispatch index at_ := by
    rw [hnew]
    rfl
  have hsuccessors : (d'.blocks.block d.blocks.next).successors = entry :: rest.toList := by
    rw [hnew]
  have hsame (j : BlockId) (hj : j.index < d.blocks.size) : d'.blocks.block j = d.blocks.block j := by
    rw [hblock, if_neg (ne_next hj)]
  have hrefined : Refined d d' := by
    refine ⟨by omega, fun k j hj => ⟨hj.place, by have := hj.range; omega, ?_, ?_⟩,
      fun j hj _ => by simp [hsame j hj]⟩
    · rw [hsame j hj.range]
      exact hj.kind
    · rw [hsame j hj.range]
      exact hj.start
  have hlast : d.blocks.next.index < d'.blocks.size := by
    rw [hsize]
    exact Nat.lt_succ_self _
  refine ⟨⟨h.size, fun i j hi => ?_, h.read, h.seen, fun {j} hj => ?_, ?_, fun j => ?_, h.plain, h.called⟩,
    hrefined, hlast, hkind, hsuccessors⟩
  · obtain ⟨hj, hrange⟩ := h.within i j hi
    rw [hsame j hj.1]
    exact ⟨⟨by have := hj.1; omega, hsame j hj.1 ▸ hj.2⟩, hrange⟩
  · have hlt : j.index < d.blocks.size := by
      refine (eq_next_or_lt hsize hj.1).resolve_left ?_
      rintro rfl
      cases hkind.symm.trans hj.2
    exact (h.lies ⟨hlt, hsame j hlt ▸ hj.2⟩).keep hrefined (by rw [hsame j hlt]) fun _ _ => Iff.rfl
  · refine ⟨?_, ?_, fun j i at_' hj => ?_, List.nodup_cons.2 ⟨fun hmem => ?_, h.chains.nodup⟩⟩
    · rintro e (_ | ⟨_, he⟩)
      · exact ⟨row, entry, at_, hrow, hlast, hkind, hrefined.starts _ _ hentry, hsuccessors⟩
      · obtain ⟨row', entry', bci', hrow', hrange, hkind, hentry', hsuccessors⟩ := h.chains.link e he
        have heq := hsame e.2 hrange
        exact ⟨row', entry', bci', hrow', by omega, heq ▸ hkind, hrefined.starts _ _ hentry',
          heq ▸ hsuccessors⟩
    · rintro e (_ | ⟨_, he⟩) t ht
      · exact hsize ▸ Nat.lt_succ_of_lt (hrest t ht)
      · exact hsize ▸ Nat.lt_succ_of_lt (h.chains.rest e he t ht)
    · by_cases hnext : j = d.blocks.next
      · subst hnext
        cases hkind.symm.trans hj
        exact ⟨rest, List.mem_cons_self ..⟩
      · rw [hblock, if_neg hnext] at hj
        obtain ⟨rest', hmem⟩ := h.chains.listed j i at_' hj
        exact ⟨rest', List.mem_cons_of_mem _ hmem⟩
    · obtain ⟨e, he, hkey⟩ := List.mem_map.1 hmem
      simpa [hkey] using List.lookup_eq_none_iff.1 hnone e he
  · rw [hblock]
    split
    · exact ⟨rfl, rfl, rfl, .inr ⟨_, _, rfl⟩, fun _ => rfl⟩
    · exact h.fresh j

/-- The head of a chain exists. -/
theorem range_of_chain {r : Option BlockId}
    (h : Chain d.blocks d.blockAt rows r) : ∀ t ∈ r, t.index < d.blocks.size := by
  rintro t ht
  cases h with
  | nil => cases ht
  | cons range =>
    cases ht
    exact range

theorem Mapped.meets_link (h : Mapped m options n opened d) (hentered : Entered m d) {index : Nat}
    (hrow : (row, index) ∈ m.handlers.zipIdx) (hrest : Chain d.blocks d.blockAt rows rest) :
    Meets (link index row bci rest) d (fun id d' => Mapped m options n opened d' ∧ Refined d d' ∧
      d'.blockAt = d.blockAt ∧ Chain d'.blocks d'.blockAt ((row, index) :: rows) (some id))
      fun _ => False := by
  unfold link
  refine meets_read.2 ?_
  cases hlookup : d.chains.lookup (rest, index) with
  | some id =>
    obtain ⟨before, after, heq, -⟩ := List.lookup_eq_some_iff.1 hlookup
    obtain ⟨row', entry, at_, hrow', hrange, hkind, hentry, hsuccessors⟩ :=
      h.chains.link ((rest, index), id) (by rw [heq]; simp)
    -- a place of the table has one row
    obtain rfl : row' = row := by
      rw [List.mem_zipIdx_iff_getElem?] at hrow hrow'
      exact Option.mem_unique hrow' hrow
    exact meets_pure.2 ⟨h, .refl, rfl, .cons hrange hkind hentry hsuccessors hrest⟩
  | none =>
    obtain ⟨entry, hentry⟩ := hentered row (List.fst_mem_of_mem_zipIdx hrow)
    refine meets_observe.2 ?_
    rw [hentry.place]
    refine meets_bind.2 (meets_modifyGet.2 (meets_change.2 (meets_pure.2 ?_)))
    obtain ⟨hmapped, hrefined, hrange, hkind, hsuccessors⟩ :=
      h.addDispatch hrow hentry (range_of_chain hrest) hlookup bci
    exact ⟨hmapped, hrefined, rfl, .cons hrange hkind (hrefined.starts _ _ hentry) hsuccessors
      (hrest.mono hrefined)⟩

/-- Linking the rows of a table from the last one on leaves the chain of those that are tried. -/
theorem Mapped.meets_linkAll :
    ∀ {d : Discovery} {chain : Option BlockId} {done : List (Handler × Nat)},
      Mapped m options n opened d → Entered m d → (∀ row ∈ rows, row ∈ m.handlers.zipIdx) →
      Chain d.blocks d.blockAt (catchersIn bci done) chain →
      Meets (linkAll bci rows chain) d (fun r d' => Mapped m options n opened d' ∧ Refined d d' ∧
        d'.blockAt = d.blockAt ∧ Chain d'.blocks d'.blockAt (catchersIn bci (rows.reverse ++ done)) r)
        fun _ => False := by
  induction rows with
  | nil => exact fun h _ _ hchain => meets_pure.2 ⟨h, .refl, rfl, hchain⟩
  | cons row rows ih =>
    intro d chain done h hentered hrows hchain
    obtain ⟨row, index⟩ := row
    have hsplit : ((row, index) :: rows).reverse ++ done = rows.reverse ++ (row, index) :: done := by simp
    have hothers : ∀ row ∈ rows, row ∈ m.handlers.zipIdx := fun r hr => hrows r (List.mem_cons_of_mem _ hr)
    rw [linkAll, hsplit]
    split
    · rename_i hcovers
      have hrest : Chain d.blocks d.blockAt (if row.isCatchAll then [] else catchersIn bci done)
          (if row.isCatchAll then none else chain) := by
        split
        · exact .nil
        · exact hchain
      refine (h.meets_link hentered (hrows _ (List.mem_cons_self ..)) hrest).bind fun id d1 h1 => ?_
      obtain ⟨h1, hd1, hat1, hchain1⟩ := h1
      have hcatchers : catchersIn bci ((row, index) :: done) =
          (row, index) :: if row.isCatchAll then [] else catchersIn bci done := by
        rw [catchersIn, if_pos hcovers]
        split <;> rfl
      refine (ih h1 (hentered.mono hd1) hothers (hcatchers ▸ hchain1)).imp fun r d2 h2 => ?_
      exact ⟨h2.1, hd1.trans h2.2.1, h2.2.2.1.trans hat1, h2.2.2.2⟩
    · rename_i hcovers
      refine ih h hentered hothers ?_
      rw [catchersIn, if_neg hcovers]
      exact hchain

/-- The rows of the exception table that are tried for a bci, unless exceptions are left out. -/
def tried (m : Method) (options : Options) (bci : Nat) : List (Handler × Nat) :=
  if options.omitExceptionEdges then [] else catchersIn bci m.handlers.zipIdx

theorem Mapped.meets_dispatch (h : Mapped m options n opened d) (hentered : Entered m d) (bci : Nat) :
    Meets (dispatch options m.handlers bci) d (fun r d' => Mapped m options n opened d' ∧ Refined d d' ∧
      d'.blockAt = d.blockAt ∧ Chain d'.blocks d'.blockAt (tried m options bci) r) fun _ => False := by
  unfold dispatch tried
  split
  · exact meets_pure.2 ⟨h, .refl, rfl, .nil⟩
  · have hlink := @meets_linkAll m options n bci opened m.handlers.zipIdx.reverse d none [] h hentered
      (fun row hrow => List.mem_reverse.1 hrow) .nil
    simpa using hlink

theorem tried_eq_catchers (hraise : c.form?.any Form.mayRaise) :
    tried m options c.bci = m.catchers options c := by
  unfold tried Method.catchers
  cases options.omitExceptionEdges <;> simp [hraise]

theorem marks_eq_of_not_subroutine (h : c.form?.any Form.isSubroutine = false) (l : List BlockId) :
    c.marks l = (none, 0, false) := by
  unfold Cursor.marks
  cases hform : c.form? with
  | none => rfl
  | some form => cases form <;> first | rfl | simp [hform, Form.isSubroutine] at h

theorem marks_of_mayRaise (h : c.form?.any Form.mayRaise) (l : List BlockId) :
    c.marks l = (none, 0, false) := by
  refine marks_eq_of_not_subroutine ?_ l
  cases hform : c.form? with
  | none => rfl
  | some form =>
    rw [hform] at h
    cases form <;> first | rfl | exact Bool.noConfusion h

/-- An exception leads to its handlers after all that control leads to otherwise. -/
theorem Mapped.meets_connectDispatch (h : Mapped m options n (some l) d) (hentered : Entered m d)
    (hc : c ∈ instructions m.code) (hnext : c.next = n) (hraise : c.form?.any Form.mayRaise)
    (hways : List.Forall₂ (Starts d.blocks d.blockAt) c.ways l) :
    Carries m options n none (connectDispatch options m.handlers c.bci) d fun _ _ => True := by
  unfold connectDispatch
  refine ((h.meets_dispatch hentered c.bci).mono (fun _ _ h => h) nofun).bind fun r d1 h1 => ?_
  obtain ⟨h1, hd1, -, hchain⟩ := h1
  rw [tried_eq_catchers hraise] at hchain
  have hways1 := hways.imp fun bci id => hd1.starts bci id
  cases r with
  | none =>
    exact meets_pure.2 ⟨h1.close hc hnext ⟨l, none, hways1, hchain, by simp⟩ (marks_of_mayRaise hraise l),
      hd1, trivial⟩
  | some id =>
    refine (h1.meets_connect hc hnext id).imp fun _ d2 h2 => ?_
    obtain ⟨h2, hd2, -⟩ := h2
    refine ⟨h2.close hc hnext ⟨l, some id, ?_, hchain.mono hd2, rfl⟩ (marks_of_mayRaise hraise _),
      hd1.trans hd2, trivial⟩
    exact hways1.imp fun bci id => hd2.starts bci id

/-! ### Instructions -/

/-- Where an instruction starts and where it leads are among the bcis `Q`. -/
structure Admits (Q : Nat → Prop) (c : Cursor) : Prop where
  bci : Q c.bci
  targets : ∀ t ∈ c.targets, Q t.toNat
  next : ∀ form, c.form? = some form → form.endsControlFlow = false → Q c.next

theorem mem_insertAscending {k t : Nat} : t ∈ insertAscending k ks ↔ t = k ∨ t ∈ ks := by
  fun_induction insertAscending k ks <;> grind

theorem pairwise_insertAscending (h : ks.Pairwise (· < ·)) (k : Nat) :
    (insertAscending k ks).Pairwise (· < ·) := by
  fun_induction insertAscending k ks <;> grind [List.pairwise_cons, mem_insertAscending]

/-- Putting numbers in their places one by one lists the set of them. -/
theorem foldr_insertAscending (ks : List Nat) : ks.foldr insertAscending [] = ks.toFinset.sort (· ≤ ·) := by
  have hset : (ks.foldr insertAscending []).Pairwise (· < ·) ∧
      ∀ t, t ∈ ks.foldr insertAscending [] ↔ t ∈ ks := by
    induction ks with
    | nil => exact ⟨.nil, fun _ => Iff.rfl⟩
    | cons k ks ih =>
      refine ⟨pairwise_insertAscending ih.1 k, fun t => ?_⟩
      rw [List.foldr_cons, mem_insertAscending, ih.2, List.mem_cons]
  have heq : ks.toFinset = (ks.foldr insertAscending []).toFinset := by
    ext t
    rw [List.mem_toFinset, List.mem_toFinset, hset.2]
  rw [heq]
  exact ((List.toFinset_sort (· ≤ ·) (hset.1.imp Nat.ne_of_lt)).2 (hset.1.imp Nat.le_of_lt)).symm

theorem meets_switchTargets_ways (s : SwitchTable) :
    Meets (switchTargets s) d (fun r d' => d = d' ∧ r = s.ways) (· ≠ .nonReducibleLoop) := by
  unfold switchTargets
  refine (Meets.mapM (fun left done d' => d = d' ∧
    done ++ left.map (fun row => row.2.toNat) = s.cases.map fun row => row.2.toNat) ⟨rfl, rfl⟩ ?_).bind ?_
  · rintro row left done _ ⟨rfl, hdone⟩
    refine (meets_targetBci row.2).imp ?_
    rintro t _ ⟨rfl, rfl⟩
    exact ⟨rfl, by simpa using hdone⟩
  · rintro targets _ ⟨rfl, htargets⟩
    refine (meets_targetBci s.default).bind ?_
    rintro default _ ⟨rfl, rfl⟩
    refine meets_pure.2 ⟨rfl, ?_⟩
    rw [List.map_nil, List.append_nil] at htargets
    rw [foldr_insertAscending, htargets]
    unfold SwitchTable.ways
    dsimp only
    split
    · rename_i hmem
      rw [if_pos (by simpa using hmem)]
    · rename_i hmem
      rw [if_neg (by simpa using hmem)]

/-- What holds when an instruction has been dealt with: its block is closed, or it is to go on. -/
structure Left (m : Method) (options : Options) (c : Cursor) (d : Discovery) (closed : Bool)
    (d' : Discovery) : Prop where
  refined : Refined d d'
  closes : closed = true → Mapped m options c.next none d'
  goesOn : closed = false → Mapped m options c.next (some []) d' ∧ ¬m.ClosesBlock options c ∧
    d'.blockAt = d.blockAt

theorem Left.of_closed (hd : Refined d d') (h : Mapped m options c.next none d') :
    Left m options c d true d' := ⟨hd, fun _ => h, nofun⟩

theorem catchers_eq_nil (h : c.form?.any Form.mayRaise = false) : m.catchers options c = [] := by
  unfold Method.catchers
  rw [h, Bool.and_false]
  rfl

/-- An instruction that raises no exception leads where control goes otherwise. -/
theorem Mapped.closeWays (h : Mapped m options n (some l) d) (hc : c ∈ instructions m.code)
    (hnext : c.next = n) (hraise : c.form?.any Form.mayRaise = false)
    (hsub : c.form?.any Form.isSubroutine = false)
    (hways : List.Forall₂ (Starts d.blocks d.blockAt) c.ways l) : Mapped m options n none d := by
  refine h.close hc hnext ⟨l, none, hways, ?_, by simp⟩ (marks_eq_of_not_subroutine hsub l)
  rw [catchers_eq_nil hraise]
  exact .nil

section

variable (h : Mapped m options c.next (some []) d) (hc : c ∈ instructions m.code)

include h hc

theorem Mapped.left_branch (hraise : c.form?.any Form.mayRaise = false) (hsub : c.form?.any Form.isSubroutine = false)
    (hways : c.ways = [c.target.toNat, c.next])
    (htarget : Site m.code c.target.toNat) (hnext : Site m.code c.next) :
    Meets (do
      let target ← blockFrom (← targetBci c.target)
      let next ← blockFrom c.next
      Discovery.connect c.bci target
      Discovery.connect c.bci next
      return true) d (Left m options c d) (· ≠ .nonReducibleLoop) := by
  refine (meets_targetBci c.target).bind ?_
  rintro _ _ ⟨rfl, rfl⟩
  refine (h.meets_blockFrom htarget).bind fun t d1 h1 => ?_
  obtain ⟨h1, hd1, ht⟩ := h1
  refine (h1.meets_blockFrom hnext).bind fun u d2 h2 => ?_
  obtain ⟨h2, hd2, hu⟩ := h2
  refine (h2.meets_connect hc rfl t).bind fun _ d3 h3 => ?_
  obtain ⟨h3, hd3, -⟩ := h3
  refine (h3.meets_connect hc rfl u).bind fun _ d4 h4 => meets_pure.2 ?_
  obtain ⟨h4, hd4, -⟩ := h4
  refine .of_closed (hd1.trans (hd2.trans (hd3.trans hd4))) (h4.closeWays hc rfl hraise hsub ?_)
  rw [hways]
  have hd34 := hd3.trans hd4
  exact .cons ((hd2.trans hd34).starts _ _ ht) (.cons (hd34.starts _ _ hu) .nil)

theorem Mapped.left_switch (hraise : c.form?.any Form.mayRaise = false) (hsub : c.form?.any Form.isSubroutine = false)
    (hways : c.ways = (c.switch?.map (·.ways)).getD [])
    (htargets : ∀ t ∈ c.ways, Site m.code t) :
    Meets (do
      if let some s := c.switch? then
        for target in ← switchTargets s do connectTo c.bci target
      return true) d (Left m options c d) (· ≠ .nonReducibleLoop) := by
  cases hs : c.switch? with
  | none =>
    rw [hs] at hways
    refine meets_pure.2 (.of_closed .refl (h.closeWays hc rfl hraise hsub ?_))
    rw [hways]
    exact .nil
  | some s =>
    rw [hs] at hways
    replace hways : c.ways = s.ways := hways
    refine (meets_switchTargets_ways s).bind ?_
    rintro targets _ ⟨rfl, rfl⟩
    rw [← hways]
    -- the blocks of the targets so far are the successors so far
    refine (Meets.forIn_passed (fun done d' => Refined d d' ∧ ∃ l,
      List.Forall₂ (Starts d'.blocks d'.blockAt) done l ∧ Mapped m options c.next (some l) d')
      ⟨.refl, [], .nil, h⟩ ?_).bind fun _ d1 h1 => meets_pure.2 ?_
    · rintro t done left d1 hdone ⟨hd1, l, hl, h1⟩
      refine (h1.meets_connectTo hc rfl (htargets t (by simp [hdone]))).bind fun _ d2 h2 => ?_
      obtain ⟨u, hu, h2, hd2⟩ := h2
      refine meets_pure.2 ⟨rfl, hd1.trans hd2, l ++ [u], ?_, h2⟩
      exact List.rel_append (hl.imp fun bci id => hd2.starts bci id) (.cons hu .nil)
    · obtain ⟨hd1, l, hl, h1⟩ := h1
      exact .of_closed hd1 (h1.closeWays hc rfl hraise hsub hl)

theorem Mapped.left_invoke (hentered : Entered m d) (hraise : c.form?.any Form.mayRaise)
    (hways : c.ways = [c.next]) (hnext : Site m.code c.next) :
    Meets (do
      connectTo c.bci c.next
      connectDispatch options m.handlers c.bci
      return true) d (Left m options c d) (· ≠ .nonReducibleLoop) := by
  refine (h.meets_connectTo hc rfl hnext).bind fun _ d1 h1 => ?_
  obtain ⟨t, ht, h1, hd1⟩ := h1
  refine (h1.meets_connectDispatch (hentered.mono hd1) hc rfl hraise ?_).bind fun _ d2 h2 => ?_
  · rw [hways]
    exact .cons ht .nil
  · exact meets_pure.2 (.of_closed (hd1.trans h2.2.1) h2.1)

/-- A call of a subroutine leads to it. -/
theorem Mapped.left_call {far : Bool} (hform : c.form? = some (.call far))
    (htarget : Site m.code c.target.toNat) :
    Meets (do
      modify fun d => { d with hasSubroutines := true }
      let target ← targetBci c.target
      if target = 0 then throw (.subroutine .targetZero)
      let callee ← blockFrom target
      if let some owner := ← blockAt? c.bci then
        modifyBlock owner fun b => { b with callee := some callee, returnBci := c.next }
      Discovery.connect c.bci callee
      return true) d (Left m options c d) (· ≠ .nonReducibleLoop) := by
  have hsub : c.form?.any Form.isSubroutine := by rw [hform]; rfl
  have h0 : Mapped m options c.next (some []) { d with hasSubroutines := true } :=
    { h with
      lies := fun hid => { h.lies hid with }, chains := { h.chains with }
      plain := fun hp => by simp [hp c hc] at hsub
      called := fun _ _ _ _ _ => rfl }
  refine meets_change.2 ((meets_targetBci c.target).bind ?_)
  rintro _ _ ⟨rfl, rfl⟩
  dsimp only
  split
  · nofun
  refine (((h0.meets_blockFrom htarget).and (meets_blockFrom_called _ _)).mono (fun _ _ h => h)
    fun _ h => h.1).bind fun callee d1 h1 => ?_
  obtain ⟨⟨h1, hd1, hcallee⟩, hflag⟩ := h1
  obtain ⟨owner, howner⟩ := h1.seen c hc (lt_next hc)
  refine meets_observe.2 ?_
  simp only [howner, Option.join_some]
  refine meets_change.2 ?_
  unfold Discovery.connect
  refine meets_bind.2 ((meets_block callee).bind ?_)
  rintro _ _ ⟨rfl, rfl⟩
  dsimp only
  split
  · nofun
  refine meets_observe.2 ?_
  simp only [howner, Option.join_some]
  -- both changes are to the block of the call
  refine meets_modify.2 (meets_pure.2 ?_)
  rw [Arena.modify_modify]
  have hcode := (h1.within c.bci owner howner).1
  obtain ⟨-, hsuccessors, hmarks⟩ := (h1.lies hcode).openAt [] rfl c hc howner rfl
  have hends : (d1.blocks.block owner).endsSubroutine = false := congrArg (·.2.2) hmarks
  obtain ⟨h2, hd2⟩ := h1.rework hc rfl none howner
    (f := (fun b => { b with successors := b.successors ++ [callee] }) ∘
      fun b => { b with callee := some callee, returnBci := c.next })
    (fun _ => ⟨rfl, rfl, rfl, rfl, rfl, rfl⟩) (fun _ => by
      refine ⟨⟨⟨[callee], none, ?_, ?_, ?_⟩, ?_⟩, fun _ => hflag⟩
      · simpa [Cursor.ways, hform] using hcallee
      · rw [catchers_eq_nil (by rw [hform]; rfl)]
        exact .nil
      · simp [hsuccessors]
      · simp [Block.marks, Cursor.marks, hform, hsuccessors, hends]) nofun
  exact .of_closed (hd1.trans hd2) h2

/-- A return from a subroutine leads nowhere yet. -/
theorem Mapped.left_ret (hform : c.form? = some .ret) (hid : d.blockAt[c.bci]? = some (some id)) :
    Meets (do
      modifyBlock id fun b => { b with endsSubroutine := true }
      return true) d (Left m options c d) (· ≠ .nonReducibleLoop) := by
  have hcode := (h.within c.bci id hid).1
  obtain ⟨-, hsuccessors, hmarks⟩ := (h.lies hcode).openAt [] rfl c hc hid rfl
  refine meets_change.2 (meets_pure.2 ?_)
  obtain ⟨h1, hd1⟩ := h.rework hc rfl none hid (f := fun b => { b with endsSubroutine := true })
    (fun _ => ⟨rfl, rfl, rfl, rfl, rfl, rfl⟩) (fun _ => by
      refine ⟨⟨⟨[], none, ?_, ?_, ?_⟩, ?_⟩, fun hcall => by simp [hform, Form.isCall] at hcall⟩
      · simp [Cursor.ways, hform]
      · rw [catchers_eq_nil (by rw [hform]; rfl)]
        exact .nil
      · simp [hsuccessors]
      · have hcallee : (d.blocks.block id).callee = none := congrArg (·.1) hmarks
        have hreturn : (d.blocks.block id).returnBci = 0 := congrArg (·.2.1) hmarks
        simp [Block.marks, Cursor.marks, hform, hcallee, hreturn]) nofun
  exact .of_closed hd1 h1

end

/-- The targets of a switch are among the targets that are checked. -/
theorem mem_targets_of_ways {s : SwitchTable} {t : Nat} (ht : t ∈ s.ways) :
    t = s.default.toNat ∨ ∃ row ∈ s.cases, t = row.2.toNat := by
  have hcase (h : t ∈ (s.cases.map fun row => row.2.toNat).toFinset.sort (· ≤ ·)) :
      ∃ row ∈ s.cases, t = row.2.toNat := by
    simp only [Finset.mem_sort, List.mem_toFinset, List.mem_map] at h
    obtain ⟨row, hrow, rfl⟩ := h
    exact ⟨row, hrow, rfl⟩
  unfold SwitchTable.ways at ht
  dsimp only at ht
  split at ht
  · exact .inr (hcase ht)
  · rcases List.mem_append.1 ht with ht | ht
    · exact .inr (hcase ht)
    · exact .inl (List.mem_singleton.1 ht)

/-- Instructions that neither branch nor call go on to the next one, and close their block only if some
handler is tried for them. -/
theorem Mapped.left_other (h : Mapped m options c.next (some []) d) (hentered : Entered m d)
    (hc : c ∈ instructions m.code) {form : Form} (hform : c.form? = some form)
    (hend : form.isBlockEnd = false) (hinvoke : form.isInvoke = false) (hnext : Site m.code c.next) :
    Meets (do
      if form.canTrap then
        if let some handler := ← dispatch options m.handlers c.bci then
          connectTo c.bci c.next
          Discovery.connect c.bci handler
          return true
      return false) d (Left m options c d) (· ≠ .nonReducibleLoop) := by
  have hways : c.ways = [c.next] := by
    unfold Cursor.ways
    rw [hform]
    cases form <;> first | rfl | exact Bool.noConfusion hend
  have hraise : c.form?.any Form.mayRaise = form.canTrap := by
    rw [hform]
    cases form <;> first | rfl | exact Bool.noConfusion hend | exact Bool.noConfusion hinvoke
  have hgoes (hcatchers : m.catchers options c = []) : ¬m.ClosesBlock options c := by
    rintro (hclose | hcatch)
    · simp [hform, hend, hinvoke] at hclose
    · exact hcatch hcatchers
  split
  · rename_i htrap
    refine ((h.meets_dispatch hentered c.bci).mono (fun _ _ h => h) nofun).bind fun r d1 h1 => ?_
    obtain ⟨h1, hd1, hat1, hchain⟩ := h1
    rw [tried_eq_catchers (hraise.trans htrap)] at hchain
    cases r with
    | none =>
      have hcatchers : m.catchers options c = [] := by
        cases hrows : m.catchers options c with
        | nil => rfl
        | cons row rows =>
          rw [hrows] at hchain
          cases hchain
      exact meets_pure.2 ⟨hd1, nofun, fun _ => ⟨h1, hgoes hcatchers, hat1⟩⟩
    | some handler =>
      refine (h1.meets_connectTo hc rfl hnext).bind fun _ d2 h2 => ?_
      obtain ⟨t, ht, h2, hd2⟩ := h2
      refine (h2.meets_connect hc rfl handler).bind fun _ d3 h3 => meets_pure.2 ?_
      obtain ⟨h3, hd3, -⟩ := h3
      have hfollows : Follows m options d3.blocks d3.blockAt c ([] ++ [t] ++ [handler]) := by
        refine ⟨[t], some handler, ?_, hchain.mono (hd2.trans hd3), rfl⟩
        rw [hways]
        exact .cons (hd3.starts _ _ ht) .nil
      exact .of_closed (hd1.trans (hd2.trans hd3))
        (h3.close hc rfl hfollows (marks_of_mayRaise (hraise.trans htrap) _))
  · rename_i htrap
    refine meets_pure.2 ⟨.refl, nofun, fun _ => ⟨h, hgoes (catchers_eq_nil ?_), rfl⟩⟩
    rw [hraise]
    simpa using htrap

theorem Mapped.meets_leave (h : Mapped m options c.next (some []) d) (hentered : Entered m d)
    (hc : c ∈ instructions m.code) (hadmits : Admits (Site m.code) c)
    (hid : d.blockAt[c.bci]? = some (some id)) :
    Meets (leave m options c id) d (Left m options c d) (· ≠ .nonReducibleLoop) := by
  unfold leave
  cases hform : c.form? with
  | none =>
    refine meets_pure.2 ⟨.refl, nofun, fun _ => ⟨h, ?_, rfl⟩⟩
    rintro (hend | hcatch)
    · rw [hform] at hend
      cases hend
    · exact hcatch (catchers_eq_nil (by rw [hform]; rfl))
  | some form =>
    have htarget (hone : c.targets = [c.target]) : Site m.code c.target.toNat :=
      hadmits.targets _ (by simp [hone])
    have hnext (hflow : form.endsControlFlow = false) : Site m.code c.next :=
      hadmits.next form hform hflow
    have hswitch (hform' : form = .tableSwitch ∨ form = .lookupSwitch) : ∀ t ∈ c.ways, Site m.code t := by
      intro t ht
      have hways : c.ways = (c.switch?.map (·.ways)).getD [] := by
        rcases hform' with rfl | rfl <;> simp [Cursor.ways, hform]
      cases hs : c.switch? with
      | none =>
        rw [hways, hs] at ht
        cases ht
      | some s =>
        have htargets : c.targets = s.default :: s.cases.map (·.2) := by
          rcases hform' with rfl | rfl <;> simp [Cursor.targets, hform, hs]
        rw [hways, hs] at ht
        rcases mem_targets_of_ways ht with rfl | ⟨row, hrow, rfl⟩
        · exact hadmits.targets _ (by simp [htargets])
        · exact hadmits.targets _ (by rw [htargets]; exact List.mem_cons_of_mem _ (List.mem_map_of_mem hrow))
    dsimp only
    split
    · refine meets_pure.2 (.of_closed .refl
        (h.closeWays hc rfl (by rw [hform]; rfl) (by rw [hform]; rfl) ?_))
      simp [Cursor.ways, hform]
    · refine (h.meets_connectDispatch hentered hc rfl (by rw [hform]; rfl) ?_).bind
        fun _ d1 h1 => meets_pure.2 (.of_closed h1.2.1 h1.1)
      simp [Cursor.ways, hform]
    · exact h.left_branch hc (by rw [hform]; rfl) (by rw [hform]; rfl) (by simp [Cursor.ways, hform])
        (htarget (by simp [Cursor.targets, hform])) (hnext rfl)
    · exact h.left_branch hc (by rw [hform]; rfl) (by rw [hform]; rfl) (by simp [Cursor.ways, hform])
        (htarget (by simp [Cursor.targets, hform])) (hnext rfl)
    · refine (meets_targetBci c.target).bind ?_
      rintro t _ ⟨rfl, rfl⟩
      refine (h.meets_connectTo hc rfl (htarget (by simp [Cursor.targets, hform]))).bind fun _ d1 h1 => ?_
      obtain ⟨t, ht, h1, hd1⟩ := h1
      refine meets_pure.2 (.of_closed hd1
        (h1.closeWays hc rfl (by rw [hform]; rfl) (by rw [hform]; rfl) ?_))
      simpa [Cursor.ways, hform] using ht
    · exact h.left_switch hc (by rw [hform]; rfl) (by rw [hform]; rfl) (by simp [Cursor.ways, hform])
        (hswitch (.inl rfl))
    · exact h.left_switch hc (by rw [hform]; rfl) (by rw [hform]; rfl) (by simp [Cursor.ways, hform])
        (hswitch (.inr rfl))
    · exact h.left_call hc hform (htarget (by simp [Cursor.targets, hform]))
    · exact h.left_ret hc hform hid
    · exact h.left_invoke hc hentered (by rw [hform]; rfl) (by simp [Cursor.ways, hform]) (hnext rfl)
    · exact h.left_invoke hc hentered (by rw [hform]; rfl) (by simp [Cursor.ways, hform]) (hnext rfl)
    · have hother : form.isBlockEnd = false ∧ form.isInvoke = false := by
        cases form <;> simp_all [Form.isBlockEnd, Form.isInvoke]
      refine h.left_other hentered hc hform hother.1 hother.2 (hnext ?_)
      cases form <;> first | rfl | exact Bool.noConfusion hother.1

/-- What holds before an instruction at `n` is read; `current` is the open block. -/
structure Ready (m : Method) (options : Options) (n : Nat) (current : Option BlockId) (d : Discovery) :
    Prop where
  mapped : Mapped m options n (current.map fun _ => []) d
  entered : Entered m d
  bound : n ≤ m.code.size
  reached : ∀ c ∈ instructions m.code, c.bci < n ∨ c ∈ Cursor.walkFrom m.code n
  last : ∀ id, current = some id → ∃ b ∈ instructions m.code, b.next = n ∧
    d.blockAt[b.bci]? = some (some id) ∧ ¬m.ClosesBlock options b

/-- The block of the next instruction starts with it, or is the open one. -/
theorem Ready.meets_blockOf (h : Ready m options c.bci current d) (hc : c ∈ instructions m.code) :
    Meets (blockOf current c.bci) d (fun id d' => Refined d d' ∧
      (Mapped m options c.bci none d' ∧ Starts d'.blocks d'.blockAt c.bci id ∨
        d' = d ∧ current = some id ∧ (d.blockAt[c.bci]?).join = none)) (· ≠ .nonReducibleLoop) := by
  have hmapped := h.mapped
  unfold blockOf
  refine meets_observe.2 ?_
  cases current with
  | none =>
    refine (hmapped.meets_blockFrom (IsStart.site ⟨c, hc, rfl⟩)).bind fun id d1 h1 => ?_
    exact meets_pure.2 ⟨h1.2.1, .inl ⟨h1.1, h1.2.2⟩⟩
  | some previous =>
    cases hat : (d.blockAt[c.bci]?).join with
    | none => exact meets_pure.2 ⟨.refl, .inr ⟨rfl, rfl, rfl⟩⟩
    | some id =>
      -- the open block ends before the instruction, and leads to it
      have hid := hmapped.starts_of_le (Nat.le_refl _) (Option.join_eq_some_iff.1 hat)
      obtain ⟨b, hb, hbn, hbid, hgoes⟩ := h.last previous rfl
      have hcode := (hmapped.within b.bci previous hbid).1
      have hstop := ((hmapped.lies hcode).openAt [] rfl b hb hbid hbn).1
      refine (meets_blockFrom_of_starts hid).bind ?_
      rintro _ _ ⟨rfl, rfl⟩
      refine (meets_block previous).bind ?_
      rintro _ _ ⟨rfl, rfl⟩
      rw [hstop]
      refine (hmapped.meets_connect hb hbn _).bind fun _ d1 h1 => meets_pure.2 ⟨h1.2.1, .inl ?_⟩
      have hid1 := h1.2.1.starts _ _ hid
      exact ⟨h1.1.close hb hbn (follows_next hgoes (hbn ▸ hid1)) (marks_of_not_closes hgoes _), hid1⟩

/-- Read one instruction; gives the block that is open then. -/
def readNext (m : Method) (options : Options) (current : Option BlockId) (c : Cursor) :
    DiscoverM (Option BlockId) := do
  let id ← blockOf current c.bci
  assign c.bci id
  modifyBlock id fun b => { b with stop := c.bci }
  let closed ← leave m options c id
  return if closed then none else some id

theorem scan_cons (rest : List Cursor) (current : Option BlockId) :
    scan m options (c :: rest) current = readNext m options current c >>= scan m options rest := by
  unfold readNext
  rw [scan]
  simp only [bind_assoc, pure_bind]

/-- An instruction is read. -/
theorem Ready.meets_readNext (h : Ready m options c.bci current d)
    (hc : c ∈ instructions m.code) (hbound : c.next ≤ m.code.size) (hadmits : Admits (Site m.code) c) :
    Meets (readNext m options current c) d
      (fun current' d' => Ready m options c.next current' d' ∧ Refined d d') (· ≠ .nonReducibleLoop) := by
  unfold readNext
  refine (h.meets_blockOf hc).bind fun id d1 h1 => ?_
  obtain ⟨hd1, hcases⟩ := h1
  refine meets_change.2 (meets_change.2 ?_)
  let d2 := { d1 with
    blockAt := d1.blockAt.setIfInBounds c.bci (some id)
    blocks := d1.blocks.modify id fun b => { b with stop := c.bci } }
  have hread : Mapped m options c.next (some []) d2 ∧ Refined d1 d2 := by
    rcases hcases with ⟨h1, hid⟩ | ⟨rfl, rfl, hnone⟩
    · exact h1.enter hc hid
    · obtain ⟨b, hb, hbn, hbid, hgoes⟩ := h.last id rfl
      exact h.mapped.extend hc hb hbn hbid hgoes hnone
  obtain ⟨h2, hd2⟩ := hread
  have hentered := h.entered.mono (hd1.trans hd2)
  have hid : d2.blockAt[c.bci]? = some (some id) := by
    have hsize : (d1.blockAt.setIfInBounds c.bci (some id)).size = _ := h2.size
    have hlt := lt_size_of_isStart ⟨c, hc, rfl⟩
    rw [Array.size_setIfInBounds] at hsize
    rw [Array.getElem?_setIfInBounds, if_pos rfl, if_pos (hsize ▸ hlt)]
  refine (h2.meets_leave hentered hc hadmits hid).bind fun closed d3 h3 => meets_pure.2 ⟨?_,
    hd1.trans (hd2.trans h3.refined)⟩
  have hentered3 := hentered.mono h3.refined
  have hreached (b : Cursor) (hb : b ∈ instructions m.code) :
      b.bci < c.next ∨ b ∈ Cursor.walkFrom m.code c.next := by
    have hlt := lt_next hc
    rcases h.reached b hb with hbefore | hmem
    · exact .inl (by omega)
    · rw [walkFrom_eq_cons_of_mem hc] at hmem
      refine (List.mem_cons.1 hmem).imp_left ?_
      rintro rfl
      exact hlt
  cases closed with
  | true => exact ⟨h3.closes rfl, hentered3, hbound, hreached, nofun⟩
  | false =>
    obtain ⟨hmapped, hgoes, hat⟩ := h3.goesOn rfl
    refine ⟨hmapped, hentered3, hbound, hreached, fun j hj => ⟨c, hc, rfl, ?_, hgoes⟩⟩
    cases hj
    rw [hat]
    exact hid

/-- Reading the instructions from `n` on leaves all of them in their blocks. -/
theorem Ready.meets_scan {cursors : List Cursor}
    (hwhole : ∀ c ∈ instructions m.code, c.next ≤ m.code.size)
    (hcursors : ∀ c ∈ cursors, c ∈ instructions m.code)
    (hadmits : ∀ c ∈ instructions m.code, Admits (Site m.code) c) :
    ∀ {n : Nat} {current : Option BlockId} {d : Discovery}, Ready m options n current d →
      Cursor.walkFrom m.code n = cursors →
      Meets (scan m options cursors current) d
        (fun _ d' => ∃ k current, Ready m options k current d' ∧ Cursor.walkFrom m.code k = [])
        (· ≠ .nonReducibleLoop) := by
  induction cursors with
  | nil => exact fun {n current d} h hwalk => meets_pure.2 ⟨n, current, h, hwalk⟩
  | cons c rest ih =>
    intro n current d h hwalk
    have hc := hcursors c (List.mem_cons_self ..)
    obtain ⟨rfl, hrest⟩ := Cursor.walkFrom_of_eq_cons hwalk
    rw [scan_cons]
    refine (h.meets_readNext hc (hwhole c hc) (hadmits c hc)).bind fun current' d1 h1 => ?_
    exact ih (fun b hb => hcursors b (List.mem_cons_of_mem _ hb)) h1.1 hrest.symm

/-! ### The whole search -/

/-- What the search comes to. -/
structure Laid (m : Method) (options : Options) (n : Nat) (d : Discovery) : Prop where
  mapped : Mapped m options n none d
  entered : Entered m d
  bound : n ≤ m.code.size
  all : ∀ c ∈ instructions m.code, c.bci < n

/-- At the end no block is open: control does not run off the end. -/
theorem Ready.laid (h : Ready m options n current d) (hcode : Decodes m.code)
    (hwalk : Cursor.walkFrom m.code n = [])
    (hadmits : ∀ c ∈ instructions m.code, Admits (Site m.code) c) : Laid m options n d := by
  have hcurrent : current = none := by
    cases current with
    | none => rfl
    | some id =>
      obtain ⟨b, hb, rfl, -, hgoes⟩ := h.last id rfl
      obtain ⟨form, hform⟩ := Option.isSome_iff_exists.1 (hcode.1 b hb).1
      have hflow : form.endsControlFlow = false := by
        by_contra hflow
        refine hgoes (.inl ?_)
        rw [hform]
        cases form <;> first | rfl | exact absurd rfl hflow
      obtain ⟨c, hc, hcb⟩ := hcode.isStart_of_site ((hadmits b hb).next form hform hflow)
      rw [← hcb, walkFrom_eq_cons_of_mem hc] at hwalk
      cases hwalk
  subst hcurrent
  refine ⟨h.mapped, h.entered, h.bound, fun c hc => (h.reached c hc).resolve_right fun hmem => ?_⟩
  rw [hwalk] at hmem
  cases hmem

/-- A block for each entry of the exception table. -/
theorem Mapped.meets_addHandlers (h : Mapped m options 0 none d)
    (hstarts : ∀ bci, starts.contains bci → IsStart m.code bci) :
    Carries m options 0 none (addHandlers m.handlers starts) d fun _ d' => Entered m d' := by
  unfold addHandlers
  refine meets_read.2 ?_
  refine (Meets.forIn_passed (fun (done : List Handler) d' => Mapped m options 0 none d' ∧ Refined d d' ∧
    ∀ row ∈ done, ∃ entry, Starts d'.blocks d'.blockAt row.entry entry) ⟨h, .refl, nofun⟩ ?_).bind
    fun _ d1 h1 => meets_pure.2 h1
  rintro row done left d1 - ⟨h1, hd1, hentered⟩
  dsimp only
  split
  · nofun
  rename_i hrow
  have hentry : IsStart m.code row.entry := hstarts _ (by simp at hrow; exact hrow.2)
  refine (h1.meets_blockFrom hentry.site).bind fun id d2 h2 => ?_
  obtain ⟨h2, hd2, hid⟩ := h2
  refine meets_change.2 (meets_pure.2 ⟨rfl, ?_⟩)
  obtain ⟨h3, hd3⟩ := h2.markHandler id
  refine ⟨h3, hd1.trans (hd2.trans hd3), fun r hr => ?_⟩
  rcases List.mem_append.1 hr with hr | hr
  · obtain ⟨entry, hentry⟩ := hentered r hr
    exact ⟨entry, (hd2.trans hd3).starts _ _ hentry⟩
  · rw [List.mem_singleton.1 hr]
    exact ⟨id, hd3.starts _ _ hid⟩

/-- What is found when all instructions are read; the last block is open if control runs off into what
is left of the code. -/
structure Read (m : Method) (options : Options) (d : Discovery) : Prop where
  ready : ∃ n current, Ready m options n current d ∧ Cursor.walkFrom m.code n = []
  admits : ∀ c ∈ instructions m.code, Admits (Site m.code) c
  nonneg : ∀ c ∈ instructions m.code, ∀ t ∈ c.targets, 0 ≤ t

theorem next_le_of_checked (h : Checked m.code starts) (hc : c ∈ instructions m.code) :
    c.next ≤ m.code.size := by
  rw [(mem_instructions hc).1]
  exact Cursor.next_seek_le (h.whole c hc).2

theorem admits_of_checked (h : Checked m.code starts) (hc : c ∈ instructions m.code) :
    Admits (Site m.code) c := by
  refine ⟨IsStart.site ⟨c, hc, rfl⟩, fun t ht => (h.targets c hc t ht).site,
    fun form hform hflow => site_next hc ?_⟩
  exact lt_of_le_of_ne (next_le_of_checked h hc) (h.next c hc form hform hflow)

/-- Before the first instruction is read, there are the entries of the exception table. -/
theorem meets_entries (options : Options) (h : Checked m.code starts) :
    Meets (addHandlers m.handlers starts) { blockAt := Array.replicate m.code.size none }
      (fun _ d => Ready m options 0 none d) (· ≠ .nonReducibleLoop) := by
  have hinit : Mapped m options 0 none { blockAt := Array.replicate m.code.size none } := by
    have hnot (i : Nat) (id : BlockId) :
        (Array.replicate m.code.size (none : Option BlockId))[i]? ≠ some (some id) := by
      rw [Array.getElem?_replicate]
      split <;> nofun
    have hempty (id : BlockId) : ¬IsCode { blockAt := Array.replicate m.code.size none } id :=
      fun hid => absurd hid.1 (Nat.not_lt_zero _)
    exact ⟨Array.size_replicate, fun i id hi => absurd hi (hnot i id), fun k _ => Nat.zero_le k,
      fun c _ hlt => absurd hlt (Nat.not_lt_zero _), fun {id} hid => absurd hid (hempty id),
      ⟨nofun, nofun, nofun, List.nodup_nil⟩, fun id => ⟨rfl, rfl, rfl, .inl rfl, fun _ => rfl⟩,
      fun _ => rfl, fun c _ hlt => absurd hlt (Nat.not_lt_zero _)⟩
  exact (hinit.meets_addHandlers h.starts).imp fun _ d h =>
    ⟨h.1, h.2.2, Nat.zero_le _, fun c hc => .inr hc, nofun⟩

theorem ends_discover_read (m : Method) (options : Options) :
    Ends (discover m options) (Read m options) (· ≠ .nonReducibleLoop) := by
  unfold discover
  refine ends_bind.2 ((ends_check m.code).mono (fun starts hstarts => ?_) fun _ he => he)
  have hadmits (c : Cursor) (hc : c ∈ instructions m.code) := admits_of_checked hstarts hc
  have hsearch : Meets (do
      addHandlers m.handlers starts
      scan m options (instructions m.code) none) { blockAt := Array.replicate m.code.size none }
      (fun _ d => ∃ k current, Ready m options k current d ∧ Cursor.walkFrom m.code k = [])
      (· ≠ .nonReducibleLoop) :=
    (meets_entries options hstarts).bind fun _ d h => Ready.meets_scan
      (fun c hc => next_le_of_checked hstarts hc) (fun c hc => hc) hadmits h rfl
  refine ends_bind.2 (Ends.mono hsearch (fun r h => ?_) fun _ he => he)
  exact ends_ok.2 ⟨h, hadmits, hstarts.nonneg⟩

/-- The blocks of code that decodes. -/
theorem Read.exists_laid (h : Read m options d) (hcode : Decodes m.code) : ∃ n, Laid m options n d := by
  obtain ⟨n, current, hready, hwalk⟩ := h.ready
  exact ⟨n, hready.laid hcode hwalk h.admits⟩

end Flow.Discovery

end SeaOfNodes
