import SeaOfNodes.Proofs.Bytecode.Walk
import SeaOfNodes.Proofs.Flow.Block
import SeaOfNodes.Proofs.Repetition

/-!
# The blocks of instructions

Which instructions close a block, and where control goes from there. While the instructions are read,
those read so far lie in one block each, and the blocks lead where their last instructions lead; the block
of the instruction that is being dealt with may still be open. Splitting a block keeps this.
-/

namespace SeaOfNodes

open Bytecode

namespace Bytecode

variable {code : Array UInt8} {bci k : Nat} {c c' : Cursor}

/-! ### Instructions in order -/

theorem pairwise_walk : ∀ {n bci : Nat}, (Cursor.walk code n bci).Pairwise (fun c c' => c.next ≤ c'.bci) ∧
    ∀ c ∈ Cursor.walk code n bci, bci ≤ c.bci ∧ c.bci < c.next := by
  intro n
  induction n with
  | zero => exact fun {_} => ⟨.nil, List.forall_mem_nil _⟩
  | succ n ih =>
    intro bci
    rw [Cursor.walk]
    have hnext := Cursor.lt_next_seek code bci
    have hrest := @ih (Cursor.seek code bci).next
    split
    · exact ⟨.nil, List.forall_mem_nil _⟩
    · obtain ⟨hpairs, hfrom⟩ := hrest
      refine ⟨List.pairwise_cons.2 ⟨fun c hc => (hfrom c hc).1, hpairs⟩, fun c hc => ?_⟩
      rcases List.mem_cons.1 hc with rfl | hc
      · exact ⟨Nat.le_refl _, hnext⟩
      · have := hfrom c hc
        omega

section

variable (hc : c ∈ instructions code)

include hc

theorem lt_next : c.bci < c.next := (pairwise_walk.2 c hc).2

/-- An instruction ends before a later one starts. -/
theorem next_le (hc' : c' ∈ instructions code) (h : c.bci < c'.bci) :
    c.next ≤ c'.bci := by
  have hnext := lt_next hc'
  have hpairs : (instructions code).Pairwise fun c c' => c.next ≤ c'.bci := pairwise_walk.1
  rw [List.pairwise_iff_getElem] at hpairs
  rcases List.mem_iff_getElem.1 hc with ⟨i, hi, rfl⟩
  rcases List.mem_iff_getElem.1 hc' with ⟨j, hj, rfl⟩
  rcases Nat.lt_trichotomy i j with hij | rfl | hij
  · exact hpairs i j hi hj hij
  · omega
  · have := hpairs j i hj hi hij
    omega

theorem eq_of_bci (hc' : c' ∈ instructions code) (h : c.bci = c'.bci) :
    c = c' := by
  rw [(mem_instructions hc).1, (mem_instructions hc').1, h]

/-- An instruction that starts before the end of another one is not after it. -/
theorem lt_or_eq_of_lt_next (hc' : c' ∈ instructions code)
    (h : c'.bci < c.next) : c'.bci < c.bci ∨ c' = c := by
  rcases Nat.lt_trichotomy c'.bci c.bci with hlt | heq | hlt
  · exact .inl hlt
  · exact .inr (eq_of_bci hc' hc heq)
  · have := next_le hc hc' hlt
    omega

theorem eq_of_next (hc' : c' ∈ instructions code) (h : c.next = c'.next) :
    c = c' := by
  refine eq_of_bci hc hc' ?_
  have hlt := lt_next hc
  have hlt' := lt_next hc'
  by_contra hne
  rcases Nat.lt_or_gt_of_ne hne with hbefore | hbefore
  · have := next_le hc hc' hbefore
    omega
  · have := next_le hc' hc hbefore
    omega

end

/-- A place where a block can start: an instruction, or what is left of the code after the last one. -/
def Site (code : Array UInt8) (k : Nat) : Prop :=
  k < code.size ∧ (IsStart code k ∨ ∀ c ∈ instructions code, c.next ≤ k)

theorem IsStart.site (h : IsStart code k) : Site code k := ⟨lt_size_of_isStart h, .inl h⟩

/-- An instruction that starts before a site ends there or earlier. -/
theorem Site.next_le (hk : Site code k) (hc : c ∈ instructions code) (h : c.bci < k) : c.next ≤ k := by
  rcases hk.2 with ⟨a, ha, rfl⟩ | hall
  · exact Bytecode.next_le hc ha h
  · exact hall c hc

/-- An instruction is followed by a site, unless the code ends. -/
theorem site_next (hc : c ∈ instructions code) (hlt : c.next < code.size) : Site code c.next := by
  refine ⟨hlt, ?_⟩
  obtain ⟨before, hbefore⟩ := (mem_instructions hc).2.2
  rw [walkFrom_eq_cons_of_mem hc] at hbefore
  cases hrest : Cursor.walkFrom code c.next with
  | cons a rest =>
    refine .inl ⟨a, ?_, (Cursor.walkFrom_of_eq_cons hrest).1⟩
    rw [← hbefore, hrest]
    simp
  | nil =>
    -- then the instruction is the last one
    refine .inr fun a ha => ?_
    have hpairs : (instructions code).Pairwise fun c c' => c.next ≤ c'.bci := pairwise_walk.1
    have hnext := lt_next hc
    rw [← hbefore, hrest] at ha hpairs
    rcases List.mem_append.1 ha with ha | ha
    · have := (List.pairwise_append.1 hpairs).2.2 a ha c (by simp)
      omega
    · obtain rfl := List.mem_singleton.1 ha
      exact le_rfl

/-- Where code decodes, every site is an instruction. -/
theorem Decodes.isStart_of_site (hcode : Decodes code) (hk : Site code k) : IsStart code k := by
  refine hk.2.resolve_right fun hall => ?_
  obtain ⟨last, hlast, hsize⟩ := Option.map_eq_some_iff.1 hcode.2
  have := hall last (List.mem_of_getLast? hlast)
  have := hk.1
  omega

/-! ### Where control goes -/

/-- Where a switch leads: the targets of its cases, ascending, and the default's unless it is one of
them. -/
def SwitchTable.ways (s : SwitchTable) : List Nat :=
  let targets := (s.cases.map fun row => row.2.toNat).toFinset.sort (· ≤ ·)
  if s.default.toNat ∈ targets then targets else targets ++ [s.default.toNat]

/-- Where control goes from an instruction if it raises no exception. -/
def Cursor.ways (c : Cursor) : List Nat :=
  match c.form? with
  | some (.methodReturn _) | some .throw | some .ret => []
  | some (.branch ..) | some (.branchNull _) => [c.target.toNat, c.next]
  | some (.jump _) | some (.call _) => [c.target.toNat]
  | some .tableSwitch | some .lookupSwitch => (c.switch?.map (·.ways)).getD []
  | _ => [c.next]

/-- What a block that ends with the instruction says of subroutines: the one that is called and where it
returns to, and whether control returns from one. -/
def Cursor.marks (c : Cursor) (successors : List BlockId) : Option BlockId × Nat × Bool :=
  match c.form? with
  | some (.call _) => (successors.head?, c.next, false)
  | some .ret => (none, 0, true)
  | _ => (none, 0, false)

/-- Calls of subroutines and returns from them. -/
def Form.isSubroutine : Form → Bool
  | .call _ | .ret => true
  | _ => false

/-- Calls of subroutines. -/
def Form.isCall : Form → Bool
  | .call _ => true
  | _ => false

/-- Instructions that may raise an exception. -/
def Form.mayRaise : Form → Bool
  | .throw | .invoke _ | .invokeDynamic => true
  | form => form.canTrap

end Bytecode

/-- The rows of an exception table that are tried for a bci, up to one that catches everything. -/
def catchersIn (bci : Nat) : List (Handler × Nat) → List (Handler × Nat)
  | [] => []
  | row :: others =>
    if row.1.covers bci then
      if row.1.isCatchAll then [row] else row :: catchersIn bci others
    else catchersIn bci others

/-- The rows of the exception table that are tried for an instruction. -/
def Method.catchers (m : Method) (options : Options) (c : Cursor) : List (Handler × Nat) :=
  if !options.omitExceptionEdges && c.form?.any Form.mayRaise then catchersIn c.bci m.handlers.zipIdx
  else []

/-- The instruction is the last one of its block. -/
def Method.ClosesBlock (m : Method) (options : Options) (c : Cursor) : Prop :=
  c.form?.any (fun form => form.isBlockEnd || form.isInvoke) = true ∨ m.catchers options c ≠ []

/-- What a block says of subroutines. -/
def Block.marks (b : Block) : Option BlockId × Nat × Bool := (b.callee, b.returnBci, b.endsSubroutine)

/-- What is known of a block while instructions are read. -/
def Block.reading (b : Block) : Int × Int × List BlockId × (Option BlockId × Nat × Bool) :=
  (b.start, b.stop, b.successors, b.marks)

/-- The part of a block before a split. -/
def Block.front (b : Block) (bci : Nat) (rear : BlockId) : Block :=
  { b with stop := bci - 1, successors := [rear], callee := none, returnBci := 0, endsSubroutine := false }

/-- The part of a block from a split on. -/
def Block.rear (b : Block) (bci : Nat) : Block :=
  { Block.startingAt bci .bytecodes with
    stop := b.stop
    successors := b.successors
    callee := b.callee
    returnBci := b.returnBci
    endsSubroutine := b.endsSubroutine }

/-- A block as it is found: subroutines are not inlined and loops not known, and only instructions call
subroutines or return from them. -/
structure Block.Fresh (b : Block) : Prop where
  scope : b.scope = .empty
  continuation : b.continuation = none
  plain : b.isLoopHeader = false
  kind : b.kind = .bytecodes ∨ ∃ i bci, b.kind = .dispatch i bci
  marks : b.kind ≠ .bytecodes → b.marks = (none, 0, false)

namespace Flow

variable {blocks blocks' : Blocks} {blockAt blockAt' : Array (Option BlockId)} {options : Options}
  {c : Cursor} {m : Method}

/-- The block of instructions that starts at a bci. -/
structure Starts (blocks : Blocks) (blockAt : Array (Option BlockId)) (bci : Nat) (id : BlockId) :
    Prop where
  place : blockAt[bci]? = some (some id)
  range : id.index < blocks.size
  kind : (blocks.block id).kind = .bytecodes
  start : (blocks.block id).start = bci

/-- The dispatch blocks through which an exception goes, one for each row. -/
inductive Chain (blocks : Blocks) (blockAt : Array (Option BlockId)) :
    List (Handler × Nat) → Option BlockId → Prop
  | nil : Chain blocks blockAt [] none
  | cons {row : Handler × Nat} {rows : List (Handler × Nat)} {id entry : BlockId} {rest : Option BlockId}
    {bci : Int} (range : id.index < blocks.size) (kind : (blocks.block id).kind = .dispatch row.2 bci)
    (target : Starts blocks blockAt row.1.entry entry)
    (successors : (blocks.block id).successors = entry :: rest.toList)
    (others : Chain blocks blockAt rows rest) : Chain blocks blockAt (row :: rows) (some id)

/-- The successors of a block whose last instruction is `c`. -/
def Follows (m : Method) (options : Options) (blocks : Blocks) (blockAt : Array (Option BlockId))
    (c : Cursor) (successors : List BlockId) : Prop :=
  ∃ ids chain, List.Forall₂ (Starts blocks blockAt) c.ways ids ∧
    Chain blocks blockAt (m.catchers options c) chain ∧ successors = ids ++ chain.toList

/-- Blocks keep their starts, and dispatch blocks their rows and successors. -/
structure Refines (blocks : Blocks) (blockAt : Array (Option BlockId)) (blocks' : Blocks)
    (blockAt' : Array (Option BlockId)) : Prop where
  size : blocks.size ≤ blocks'.size
  starts : ∀ bci id, Starts blocks blockAt bci id → Starts blocks' blockAt' bci id
  other : ∀ id : BlockId, id.index < blocks.size → (blocks.block id).kind ≠ .bytecodes →
    (blocks'.block id).kind = (blocks.block id).kind ∧
      (blocks'.block id).successors = (blocks.block id).successors

theorem Refines.refl : Refines blocks blockAt blocks blockAt :=
  ⟨Nat.le_refl _, fun _ _ h => h, fun _ _ _ => ⟨rfl, rfl⟩⟩

theorem Refines.trans {blocks'' : Blocks} {blockAt'' : Array (Option BlockId)}
    (h : Refines blocks blockAt blocks' blockAt') (h' : Refines blocks' blockAt' blocks'' blockAt'') :
    Refines blocks blockAt blocks'' blockAt'' := by
  refine ⟨h.size.trans h'.size, fun bci id hs => h'.starts bci id (h.starts bci id hs), fun id hid hk => ?_⟩
  obtain ⟨hkind, hsuccessors⟩ := h.other id hid hk
  obtain ⟨hkind', hsuccessors'⟩ := h'.other id (Nat.lt_of_lt_of_le hid h.size) (by rwa [hkind])
  exact ⟨hkind'.trans hkind, hsuccessors'.trans hsuccessors⟩

theorem Chain.mono {rows : List (Handler × Nat)} {chain : Option BlockId}
    (hc : Chain blocks blockAt rows chain) (h : Refines blocks blockAt blocks' blockAt') :
    Chain blocks' blockAt' rows chain := by
  induction hc with
  | nil => exact .nil
  | cons range kind target successors _ ih =>
    obtain ⟨hkind, hsuccessors⟩ := h.other _ range (by rw [kind]; nofun)
    exact .cons (Nat.lt_of_lt_of_le range h.size) (hkind.trans kind) (h.starts _ _ target)
      (hsuccessors.trans successors) ih

theorem Follows.mono {successors : List BlockId}
    (hf : Follows m options blocks blockAt c successors) (h : Refines blocks blockAt blocks' blockAt') :
    Follows m options blocks' blockAt' c successors := by
  obtain ⟨ids, chain, hids, hchain, heq⟩ := hf
  exact ⟨ids, chain, hids.imp fun bci id => h.starts bci id, hchain.mono h, heq⟩

/-- A block that ends with `c` leads where `c` leads, and says of subroutines what `c` does. -/
structure EndsWith (m : Method) (options : Options) (blocks : Blocks) (blockAt : Array (Option BlockId))
    (c : Cursor) (b : Block) : Prop where
  follows : Follows m options blocks blockAt c b.successors
  marks : b.marks = c.marks b.successors

theorem EndsWith.mono {b : Block}
    (hl : EndsWith m options blocks blockAt c b) (h : Refines blocks blockAt blocks' blockAt') :
    EndsWith m options blocks' blockAt' c b :=
  ⟨hl.follows.mono h, hl.marks⟩

theorem marks_of_not_closes
    (hc : ¬m.ClosesBlock options c) (successors : List BlockId) : c.marks successors = (none, 0, false) := by
  unfold Cursor.marks
  cases hform : c.form? with
  | none => rfl
  | some form => cases form <;> first | rfl | exact absurd (.inl (by rw [hform]; rfl)) hc

theorem marks_ne_of_call (hc : c.form?.any Form.isCall) (hnext : c.bci < c.next)
    (successors : List BlockId) : c.marks successors ≠ (none, 0, false) := by
  unfold Cursor.marks
  cases hform : c.form? with
  | none => simp [hform] at hc
  | some form =>
    cases form <;> simp [hform, Form.isCall] at hc
    intro h
    have : c.next = 0 := congrArg (·.2.1) h
    omega

/-- Control goes on to the next instruction where no block is closed. -/
theorem follows_next {id : BlockId} (hc : ¬m.ClosesBlock options c) (hid : Starts blocks blockAt c.next id) :
    Follows m options blocks blockAt c [id] := by
  have hcatchers : m.catchers options c = [] := by
    by_contra h
    exact hc (.inr h)
  have hways : c.ways = [c.next] := by
    unfold Cursor.ways
    cases hform : c.form? with
    | none => rfl
    | some form => cases form <;> first | rfl | exact absurd (.inl (by rw [hform]; rfl)) hc
  refine ⟨[id], none, ?_, ?_, rfl⟩
  · rw [hways]
    exact .cons hid .nil
  · rw [hcatchers]
    exact .nil

namespace Discovery

variable {m : Method} {options : Options} {n bci : Nat} {opened : Option (List BlockId)}
  {d d' : Discovery} {id : BlockId} {c : Cursor} {l : List BlockId} {f : Block → Block} {i : Nat}

/-- A block of instructions that exists. -/
def IsCode (d : Discovery) (id : BlockId) : Prop :=
  id.index < d.blocks.size ∧ (d.blocks.block id).kind = .bytecodes

/-- The dispatch blocks are those of the table of chains: each leads to the entry of its row, and to what
comes after it if there is more. -/
structure Chained (m : Method) (d : Discovery) : Prop where
  link : ∀ e ∈ d.chains, ∃ row entry bci, (row, e.1.2) ∈ m.handlers.zipIdx ∧ e.2.index < d.blocks.size ∧
    (d.blocks.block e.2).kind = .dispatch e.1.2 bci ∧ Starts d.blocks d.blockAt row.entry entry ∧
    (d.blocks.block e.2).successors = entry :: e.1.1.toList
  rest : ∀ e ∈ d.chains, ∀ t ∈ e.1.1, t.index < d.blocks.size
  listed : ∀ id i bci, (d.blocks.block id).kind = .dispatch i bci → ∃ rest, ((rest, i), id) ∈ d.chains
  nodup : (d.chains.map (·.1)).Nodup

/-- What holds of one block of instructions when those before `n` are read. The block of the last of them
may be open, with the successors that it has got so far. -/
structure Lies (m : Method) (options : Options) (n : Nat) (opened : Option (List BlockId)) (d : Discovery)
    (id : BlockId) : Prop where
  start : ∃ k, Site m.code k ∧ Starts d.blocks d.blockAt k id
  /-- The ranges of blocks are apart. -/
  range : ∀ c ∈ instructions m.code, (d.blocks.block id).start ≤ c.bci →
    c.bci ≤ (d.blocks.block id).stop → d.blockAt[c.bci]? = some (some id)
  behind : (d.blocks.block id).start < n → (d.blocks.block id).stop < n
  /-- A block that is not reached yet is known by its start only. -/
  ahead : n ≤ (d.blocks.block id).start → (d.blocks.block id).stop = (d.blocks.block id).start ∧
    (d.blocks.block id).successors = [] ∧ (d.blocks.block id).marks = (none, 0, false)
  /-- An instruction that closes a block is its last one, and the block stops with it. -/
  tip : ∀ c ∈ instructions m.code, d.blockAt[c.bci]? = some (some id) → m.ClosesBlock options c →
    (d.blocks.block id).stop = c.bci
  flow : ∀ c ∈ instructions m.code, d.blockAt[c.bci]? = some (some id) →
    (d.blocks.block id).stop < c.next → c.bci < n → opened = none ∨ c.next ≠ n →
    EndsWith m options d.blocks d.blockAt c (d.blocks.block id)
  openAt : ∀ l, opened = some l → ∀ c ∈ instructions m.code, d.blockAt[c.bci]? = some (some id) →
    c.next = n → (d.blocks.block id).stop = c.bci ∧ (d.blocks.block id).successors = l ∧
      (d.blocks.block id).marks = (none, 0, false)

/-- The blocks when the instructions before `n` are read. -/
structure Mapped (m : Method) (options : Options) (n : Nat) (opened : Option (List BlockId))
    (d : Discovery) : Prop where
  size : d.blockAt.size = m.code.size
  within : ∀ (i : Nat) id, d.blockAt[i]? = some (some id) →
    IsCode d id ∧ (d.blocks.block id).start ≤ i ∧ i ≤ (d.blocks.block id).stop
  read : ∀ k, (∀ c ∈ instructions m.code, c.next ≤ k) → n ≤ k
  seen : ∀ c ∈ instructions m.code, c.bci < n → ∃ id, d.blockAt[c.bci]? = some (some id)
  lies : ∀ {id}, IsCode d id → Lies m options n opened d id
  chains : Chained m d
  fresh : ∀ id, (d.blocks.block id).Fresh
  plain : (∀ c ∈ instructions m.code, c.form?.any Form.isSubroutine = false) → d.hasSubroutines = false
  called : ∀ c ∈ instructions m.code, c.bci < n → opened = none ∨ c.next ≠ n →
    c.form?.any Form.isCall = true → d.hasSubroutines = true

/-- A later state of the search. -/
abbrev Refined (d d' : Discovery) : Prop := Refines d.blocks d.blockAt d'.blocks d'.blockAt

theorem Starts.isCode (h : Starts d.blocks d.blockAt bci id) : IsCode d id := ⟨h.range, h.kind⟩

/-- Chains stay what they are. -/
theorem Chained.mono (h : Chained m d) (hd : Refined d d') (hchains : d'.chains = d.chains)
    (hkind : ∀ j, (d'.blocks.block j).kind = (d.blocks.block j).kind) : Chained m d' where
  link e he := by
    obtain ⟨row, entry, bci, hrow, hrange, hdispatch, hentry, hsuccessors⟩ := h.link e (hchains ▸ he)
    exact ⟨row, entry, bci, hrow, Nat.lt_of_lt_of_le hrange hd.size, (hkind e.2).trans hdispatch,
      hd.starts _ _ hentry, (hd.other e.2 hrange (by rw [hdispatch]; nofun)).2.trans hsuccessors⟩
  rest e he t ht := Nat.lt_of_lt_of_le (h.rest e (hchains ▸ he) t ht) hd.size
  listed id i bci hid := hchains ▸ h.listed id i bci (hkind id ▸ hid)
  nodup := hchains ▸ h.nodup

/-- Only the last instruction of a block closes it. -/
theorem Mapped.inner (h : Mapped m options n opened d) (hid : IsCode d id) (hc : c ∈ instructions m.code)
    (hstart : (d.blocks.block id).start ≤ c.bci) (hstop : c.next ≤ (d.blocks.block id).stop) :
    ¬m.ClosesBlock options c := by
  intro hclose
  have hnext := lt_next hc
  have := (h.lies hid).tip c hc ((h.lies hid).range c hc hstart (by omega)) hclose
  omega

/-- What is known at a bci that was not read yet is a start. -/
theorem Mapped.starts_of_le (h : Mapped m options n opened d) (hn : n ≤ bci)
    (hid : d.blockAt[bci]? = some (some id)) : Starts d.blocks d.blockAt bci id := by
  obtain ⟨hcode, hstart, hstop⟩ := h.within bci id hid
  refine ⟨hid, hcode.1, hcode.2, ?_⟩
  by_cases hlt : (d.blocks.block id).start < n
  · have := (h.lies hcode).behind hlt
    omega
  · have := ((h.lies hcode).ahead (by omega)).1
    omega

/-! ### One block -/

theorem Lies.exists_starts (h : Lies m options n opened d id) (hrefined : Refined d d') :
    ∃ k, Site m.code k ∧ Starts d'.blocks d'.blockAt k id := by
  obtain ⟨k, hk, hs⟩ := h.start
  exact ⟨k, hk, hrefined.starts k id hs⟩

/-- A block with the same range, edges and instructions. -/
theorem Lies.keep (h : Lies m options n opened d id) (hrefined : Refined d d')
    (hb : (d'.blocks.block id).reading = (d.blocks.block id).reading)
    (hat : ∀ c ∈ instructions m.code, d'.blockAt[c.bci]? = some (some id) ↔
      d.blockAt[c.bci]? = some (some id)) : Lies m options n opened d' id := by
  simp only [Block.reading, Prod.mk.injEq] at hb
  obtain ⟨hstart, hstop, hsuccessors, hmarks⟩ := hb
  refine ⟨h.exists_starts hrefined, fun c hc hfrom hto => ?_, ?_, ?_, fun c hc hin => ?_,
    fun c hc hin hlast hlt hopened => ?_, fun l hl c hc hin => ?_⟩
  · rw [hstart] at hfrom
    rw [hstop] at hto
    exact (hat c hc).2 (h.range c hc hfrom hto)
  · rw [hstart, hstop]
    exact h.behind
  · rw [hstart, hstop, hsuccessors, hmarks]
    exact h.ahead
  · rw [hstop]
    exact h.tip c hc ((hat c hc).1 hin)
  · rw [hstop] at hlast
    have hends := (h.flow c hc ((hat c hc).1 hin) hlast hlt hopened).mono hrefined
    exact ⟨hsuccessors ▸ hends.follows, by rw [hmarks, hsuccessors, hends.marks]⟩
  · rw [hstop, hsuccessors, hmarks]
    exact h.openAt l hl c hc ((hat c hc).1 hin)

/-- Whether the block of the last instruction is open is no matter of the others. -/
theorem Lies.reopen (h : Lies m options n opened d id)
    (hnot : ∀ c ∈ instructions m.code, d.blockAt[c.bci]? = some (some id) → c.next ≠ n)
    (opened' : Option (List BlockId)) : Lies m options n opened' d id :=
  { h with
    flow := fun c hc hin hlast hlt _ => h.flow c hc hin hlast hlt (.inr (hnot c hc hin))
    openAt := fun _ _ c hc hin hnext => absurd hnext (hnot c hc hin) }

/-- One more instruction is read, and it is in another block. -/
theorem Lies.advance (h : Lies m options c.bci none d id) (hc : c ∈ instructions m.code)
    (hnot : d.blockAt[c.bci]? ≠ some (some id)) : Lies m options c.next (some []) d id := by
  have hnext := lt_next hc
  refine ⟨h.start, h.range, fun hlt => ?_, fun hle => h.ahead (by omega), h.tip,
    fun a ha hin hlast hlt hopened => ?_, fun l hl a ha hin han => ?_⟩
  · obtain ⟨k, hk, hs⟩ := h.start
    have hstart := hs.start
    have hbefore : k < c.bci := by
      by_contra hle
      rcases Nat.eq_or_lt_of_le (Nat.le_of_not_lt hle) with rfl | hkc
      · exact hnot hs.place
      · have := hk.next_le hc hkc
        omega
    have := h.behind (by omega)
    omega
  · rcases lt_or_eq_of_lt_next hc ha hlt with hac | rfl
    · exact h.flow a ha hin hlast hac (.inl rfl)
    · exact absurd hin hnot
  · obtain rfl := eq_of_next ha hc han
    exact absurd hin hnot

theorem Mapped.index_lt (h : Mapped m options n opened d) (hi : d.blockAt[i]? = some (some id)) :
    id.index < d.blocks.size := (h.within i id hi).1.1

theorem ne_next (hid : id.index < d.blocks.size) : id ≠ d.blocks.next := by
  rintro rfl
  exact absurd hid (Nat.lt_irrefl _)

theorem kind_next (d : Discovery) : (d.blocks.block d.blocks.next).kind = .bytecodes := by
  rw [Blocks.block_of_le (show d.blocks.size ≤ d.blocks.next.index from Nat.le_refl _)]
  rfl

theorem eq_next_or_lt (hsize : d'.blocks.size = d.blocks.size + 1) (hid : id.index < d'.blocks.size) :
    id = d.blocks.next ∨ id.index < d.blocks.size := by
  rcases Nat.lt_or_eq_of_le (Nat.le_of_lt_succ (hsize ▸ hid)) with hlt | heq
  · exact .inr hlt
  · cases id
    exact .inl (congrArg Handle.mk heq)

theorem getElem?_assigned (hi : i < d.blockAt.size) (k : Nat) :
    (d.blockAt.setIfInBounds i (some id))[k]? = if k = i then some (some id) else d.blockAt[k]? := by
  rw [Array.getElem?_setIfInBounds]
  by_cases hk : i = k
  · simp [hk, hk ▸ hi]
  · simp [hk, Ne.symm hk]

theorem eq_of_at {j : BlockId} (hid : d.blockAt[i]? = some (some id))
    (hj : d.blockAt[i]? = some (some j)) : j = id :=
  Option.some.inj (Option.mem_unique hj hid)

/-! ### New blocks -/

/-- A block that is not reached yet is added. -/
theorem Mapped.add (h : Mapped m options n opened d) (hbci : Site m.code bci)
    (hnone : (d.blockAt[bci]?).join = none) :
    let d' := { d with
      blocks := d.blocks.push (.startingAt bci .bytecodes)
      blockAt := d.blockAt.setIfInBounds bci (some d.blocks.next) }
    Mapped m options n opened d' ∧ Refined d d' ∧ Starts d'.blocks d'.blockAt bci d.blocks.next := by
  intro d'
  have hbound : bci < d.blockAt.size := h.size ▸ hbci.1
  have hnot (id : BlockId) : d.blockAt[bci]? ≠ some (some id) := by
    intro hid
    rw [hid] at hnone
    cases hnone
  have hn : n ≤ bci := by
    rcases hbci.2 with ⟨c, hc, rfl⟩ | hall
    · by_contra hlt
      obtain ⟨id, hid⟩ := h.seen c hc (by omega)
      exact hnot id hid
    · exact h.read bci hall
  have hat (i : Nat) : d'.blockAt[i]? = if i = bci then some (some d.blocks.next) else d.blockAt[i]? :=
    getElem?_assigned hbound i
  have hblock (j : BlockId) : d'.blocks.block j =
      if j = d.blocks.next then .startingAt bci .bytecodes else d.blocks.block j := Blocks.block_push
  have hnew : d'.blocks.block d.blocks.next = .startingAt bci .bytecodes := by rw [hblock, if_pos rfl]
  have hsame (j : BlockId) (hj : j.index < d.blocks.size) : d'.blocks.block j = d.blocks.block j := by
    rw [hblock, if_neg (ne_next hj)]
  have hgrow : d'.blocks.size = d.blocks.size + 1 := Blocks.size_push
  have hold (i : Nat) (j : BlockId) (hj : j.index < d.blocks.size) :
      d'.blockAt[i]? = some (some j) ↔ d.blockAt[i]? = some (some j) := by
    rw [hat]
    split
    · rename_i hi
      exact ⟨fun hjn => absurd (Option.some.inj (Option.some.inj hjn)).symm (ne_next hj),
        fun hij => absurd (hi ▸ hij) (hnot j)⟩
    · exact Iff.rfl
  have hstarts : Starts d'.blocks d'.blockAt bci d.blocks.next := by
    refine ⟨by rw [hat, if_pos rfl], hgrow ▸ Nat.lt_succ_self _, ?_, ?_⟩ <;> rw [hnew] <;> rfl
  have hrefined : Refined d d' := by
    refine ⟨by omega, fun k j hj => ?_, fun j hj _ => by simp [hsame j hj]⟩
    refine ⟨(hold k j hj.range).2 hj.place, hgrow ▸ Nat.lt_succ_of_lt hj.range, ?_, ?_⟩
    · rw [hsame j hj.range]
      exact hj.kind
    · rw [hsame j hj.range]
      exact hj.start
  have hkind (j : BlockId) : (d'.blocks.block j).kind = (d.blocks.block j).kind := by
    rw [hblock]
    split
    · subst_vars
      exact (kind_next d).symm
    · rfl
  -- only the bci itself is in the new block
  have hin (i : Nat) (hi : d'.blockAt[i]? = some (some d.blocks.next)) : i = bci := by
    rw [hat] at hi
    split at hi
    · assumption
    · exact absurd (h.index_lt hi) (Nat.lt_irrefl _)
  refine ⟨⟨Array.size_setIfInBounds.trans h.size, fun i j hi => ?_, h.read, fun c hc hlt => ?_,
    fun {j} hj => ?_, h.chains.mono hrefined rfl hkind, fun j => ?_, h.plain, h.called⟩, hrefined, hstarts⟩
  · rw [hat] at hi
    split at hi
    · rename_i hibci
      cases hi
      rw [hnew, hibci]
      exact ⟨⟨hstarts.range, hstarts.kind⟩, le_rfl, le_rfl⟩
    · obtain ⟨hj, hrange⟩ := h.within i j hi
      rw [hsame j hj.1]
      exact ⟨⟨hgrow ▸ Nat.lt_succ_of_lt hj.1, hsame j hj.1 ▸ hj.2⟩, hrange⟩
  · obtain ⟨j, hj⟩ := h.seen c hc hlt
    exact ⟨j, (hold _ j (h.index_lt hj)).2 hj⟩
  · rcases eq_next_or_lt hgrow hj.1 with rfl | hlt
    · refine ⟨⟨bci, hbci, hstarts⟩, fun c _ hfrom hto => ?_, fun hlt => ?_, fun _ => ?_,
        fun c _ hc _ => ?_, fun c _ hc _ hlt _ => ?_, fun l _ c hmem hc hnext => ?_⟩
      · rw [hnew] at hfrom hto
        rw [hat, if_pos (by simp only [Block.startingAt] at hfrom hto; omega)]
      · rw [hnew] at hlt
        simp only [Block.startingAt] at hlt
        omega
      · rw [hnew]
        exact ⟨rfl, rfl, rfl⟩
      · rw [hnew, hin _ hc]
        rfl
      · have := hin _ hc
        omega
      · have := hin _ hc
        have := lt_next hmem
        omega
    · exact (h.lies ⟨hlt, hsame j hlt ▸ hj.2⟩).keep hrefined (by rw [hsame j hlt]) fun c _ => hold c.bci j hlt
  · rw [hblock]
    split
    · exact ⟨rfl, rfl, rfl, .inl rfl, fun _ => rfl⟩
    · exact h.fresh j

/-! ### Changes of a block -/

theorem block_modify_of_isCode (hcode : IsCode d id) (f : Block → Block) (j : BlockId) :
    Blocks.block (d.blocks.modify id f) j = if j = id then f (d.blocks.block id) else d.blocks.block j := by
  rw [Blocks.block_modify]
  by_cases hj : j = id <;> simp [hj, hcode.1]

/-- A change of a block that keeps its kind and start. -/
theorem refined_modify (d : Discovery) (id : BlockId) (f : Block → Block)
    (places : Array (Option BlockId)) (hf : ∀ b, (f b).kind = b.kind ∧ (f b).start = b.start)
    (hsuccessors : (d.blocks.block id).kind ≠ .bytecodes →
      (f (d.blocks.block id)).successors = (d.blocks.block id).successors)
    (hat : ∀ (k : Nat) j, d.blockAt[k]? = some (some j) → places[k]? = some (some j)) :
    let d' := { d with blockAt := places, blocks := d.blocks.modify id f }
    Refined d d' ∧ (∀ j, (d'.blocks.block j).kind = (d.blocks.block j).kind) ∧
      ∀ j, IsCode d' j ↔ IsCode d j := by
  intro d'
  have hsize : d'.blocks.size = d.blocks.size := Blocks.size_modify
  have hblock (j : BlockId) : d'.blocks.block j =
      if j = id ∧ id.index < d.blocks.size then f (d.blocks.block j) else d.blocks.block j :=
    Blocks.block_modify
  have hsame (j : BlockId) : (d'.blocks.block j).kind = (d.blocks.block j).kind ∧
      (d'.blocks.block j).start = (d.blocks.block j).start := by
    rw [hblock]
    split
    · exact hf _
    · exact ⟨rfl, rfl⟩
  refine ⟨⟨hsize.ge, fun k j hj => ⟨hat k j hj.place, hsize ▸ hj.range, (hsame j).1.trans hj.kind,
    (hsame j).2.trans hj.start⟩, fun j _ hj => ⟨(hsame j).1, ?_⟩⟩, fun j => (hsame j).1, fun j => ?_⟩
  · rw [hblock]
    split
    · rename_i hid
      obtain rfl := hid.1
      exact hsuccessors hj
    · rfl
  · unfold IsCode
    rw [hsize, (hsame j).1]

section

variable (h : Mapped m options n (some l) d) (hc : c ∈ instructions m.code) (hnext : c.next = n)

include h hc hnext

/-- The open block ends with the last instruction. -/
theorem Mapped.eq_last (hid : d.blockAt[c.bci]? = some (some id))
    {b : Cursor} (hb : b ∈ instructions m.code) (hbid : d.blockAt[b.bci]? = some (some id))
    (hlast : (d.blocks.block id).stop < b.next) : b = c := by
  obtain ⟨hcode, -, hto⟩ := h.within b.bci id hbid
  have hend := ((h.lies hcode).openAt l rfl c hc hid hnext).1
  refine eq_of_bci hb hc ?_
  by_contra hne
  rcases Nat.lt_or_gt_of_ne hne with hlt | hlt
  · have := next_le hb hc hlt
    omega
  · omega

/-- The open block is changed, and it may be closed with that. -/
theorem Mapped.rework (opened' : Option (List BlockId)) (hid : d.blockAt[c.bci]? = some (some id))
    (hf : ∀ b, (f b).kind = b.kind ∧ (f b).start = b.start ∧ (f b).stop = b.stop ∧
      (f b).scope = b.scope ∧ (f b).continuation = b.continuation ∧ (f b).isLoopHeader = b.isLoopHeader)
    (hclosed : opened' = none → EndsWith m options d.blocks d.blockAt c (f (d.blocks.block id)) ∧
      (c.form?.any Form.isCall → d.hasSubroutines))
    (hopened : ∀ l', opened' = some l' → (f (d.blocks.block id)).successors = l' ∧
      (f (d.blocks.block id)).marks = (none, 0, false)) :
    let d' := { d with blocks := d.blocks.modify id f }
    Mapped m options n opened' d' ∧ Refined d d' := by
  intro d'
  obtain ⟨hcode, hfrom, hto⟩ := h.within c.bci id hid
  have hlies := h.lies hcode
  have hblock (j : BlockId) : d'.blocks.block j =
      if j = id then f (d.blocks.block id) else d.blocks.block j := block_modify_of_isCode hcode f j
  have hself := hblock id
  rw [if_pos rfl] at hself
  obtain ⟨hkind, hstart, hstop, hscope, hcontinuation, hplain⟩ := hf (d.blocks.block id)
  rw [← hself] at hstart hstop
  obtain ⟨hrefined, hkinds, hiff⟩ := refined_modify d id f d.blockAt
    (fun b => ⟨(hf b).1, (hf b).2.1⟩) (fun hk => absurd hcode.2 hk) fun _ _ hk => hk
  refine ⟨⟨h.size, fun i j hi => ?_, h.read, h.seen, fun {j} hj => ?_, h.chains.mono hrefined rfl hkinds,
    fun j => ?_, h.plain, fun b hb hlt hop hcall => ?_⟩, hrefined⟩
  · obtain ⟨hj, hrange⟩ := h.within i j hi
    refine ⟨(hiff j).2 hj, ?_⟩
    by_cases hjid : j = id
    · rw [hjid] at hrange ⊢
      rwa [hstart, hstop]
    · rwa [hblock, if_neg hjid]
  · by_cases hjid : j = id
    · subst hjid
      have hlast := lt_next hc
      refine ⟨hlies.exists_starts hrefined, ?_, ?_, fun hle => ?_, ?_, fun b hb hin hend _ hop => ?_,
        fun l' hl' b hb hin hbn => ?_⟩
      · rw [hstart, hstop]
        exact hlies.range
      · rw [hstart, hstop]
        exact hlies.behind
      · omega
      · rw [hstop]
        exact hlies.tip
      · rw [hstop] at hend
        obtain rfl := h.eq_last hc hnext hid hb hin hend
        rw [hself]
        exact (hclosed (hop.resolve_right (absurd hnext))).1.mono hrefined
      · obtain rfl := eq_of_next hb hc (hbn.trans hnext.symm)
        rw [hstop, hself]
        exact ⟨(hlies.openAt l rfl b hb hin hbn).1, hopened l' hl'⟩
    · refine ((h.lies ((hiff j).1 hj)).reopen (fun b hb hin hbn => hjid ?_) opened').keep hrefined ?_
        fun _ _ => Iff.rfl
      · obtain rfl := eq_of_next hb hc (hbn.trans hnext.symm)
        exact eq_of_at hid hin
      · rw [hblock, if_neg hjid]
  · rw [hblock]
    split
    · exact ⟨hscope.trans (h.fresh id).scope, hcontinuation.trans (h.fresh id).continuation,
        hplain.trans (h.fresh id).plain, .inl (hkind.trans hcode.2),
        fun hk => absurd (hkind.trans hcode.2) hk⟩
    · exact h.fresh j
  · by_cases hbn : b.next = n
    · obtain rfl := eq_of_next hb hc (hbn.trans hnext.symm)
      exact (hclosed (hop.resolve_right (absurd hbn))).2 hcall
    · exact h.called b hb hlt (.inr hbn) hcall

/-- The open block gets one more successor. -/
theorem Mapped.connect (hid : d.blockAt[c.bci]? = some (some id)) (t : BlockId) :
    let d' := { d with
      blocks := d.blocks.modify id fun b => { b with successors := b.successors ++ [t] } }
    Mapped m options n (some (l ++ [t])) d' ∧ Refined d d' := by
  obtain ⟨-, hsuccessors, hmarks⟩ := (h.lies (h.within c.bci id hid).1).openAt l rfl c hc hid hnext
  refine h.rework hc hnext _ hid (fun _ => ⟨rfl, rfl, rfl, rfl, rfl, rfl⟩) nofun ?_
  rintro _ ⟨⟩
  exact ⟨by rw [hsuccessors], hmarks⟩

/-- The open block is closed when it leads where it is to lead. -/
theorem Mapped.close (hl : Follows m options d.blocks d.blockAt c l) (hmarks : c.marks l = (none, 0, false)) :
    Mapped m options n none d := by
  refine { h with
    lies := fun hj => { h.lies hj with flow := fun b hb hin hlast hlt _ => ?_, openAt := nofun }
    called := fun b hb hlt _ hcall => ?_ }
  · by_cases hbn : b.next = n
    · obtain rfl := eq_of_next hb hc (hbn.trans hnext.symm)
      obtain ⟨-, hsuccessors, hmarks'⟩ := (h.lies hj).openAt l rfl b hb hin hbn
      exact ⟨hsuccessors.symm ▸ hl, by rw [hmarks', hsuccessors, hmarks]⟩
    · exact (h.lies hj).flow b hb hin hlast hlt (.inr hbn)
  · refine h.called b hb hlt (.inr fun hbn => ?_) hcall
    obtain rfl := eq_of_next hb hc (hbn.trans hnext.symm)
    exact absurd hmarks (marks_ne_of_call hcall (lt_next hb) l)

end

/-- The bytes from `bci` on are said to belong to a block, `count` of them. -/
structure Assigned (bci : Nat) (id : BlockId) (count : Nat) (d d' : Discovery) : Prop where
  blocks : d'.blocks = d.blocks
  chains : d'.chains = d.chains
  called : d'.hasSubroutines = d.hasSubroutines
  size : d'.blockAt.size = d.blockAt.size
  blockAt : ∀ i : Nat, d'.blockAt[i]? =
    if bci ≤ i ∧ i < bci + count ∧ i < d.blockAt.size then some (some id) else d.blockAt[i]?

/-- A block splits at an instruction; both parts lead where they are to lead. -/
theorem Mapped.split (h : Mapped m options n opened d) (hbci : Site m.code bci)
    (hid : d.blockAt[bci]? = some (some id)) (hstart : (d.blocks.block id).start ≠ bci)
    (hd : Assigned bci d.blocks.next ((d.blocks.block id).stop - bci + 1).toNat
      { d with blocks := (d.blocks.push ((d.blocks.block id).rear bci)).modify id (·.front bci d.blocks.next) }
      d') :
    Mapped m options n opened d' ∧ Refined d d' ∧ Starts d'.blocks d'.blockAt bci d.blocks.next := by
  obtain ⟨hcodeid, hfrom, hto⟩ := h.within bci id hid
  have hlies := h.lies hcodeid
  obtain ⟨hblocks, hchains, hplain, hplaces, hat⟩ := hd
  have hsize : d'.blocks.size = d.blocks.size + 1 := by
    rw [hblocks]
    exact Blocks.size_modify.trans Blocks.size_push
  replace hat (i : Nat) : d'.blockAt[i]? =
      if bci ≤ i ∧ i ≤ (d.blocks.block id).stop ∧ i < d.blockAt.size then some (some d.blocks.next)
      else d.blockAt[i]? := by
    rw [hat]
    refine if_congr ?_ rfl rfl
    dsimp only
    omega
  have hblock (j : BlockId) : d'.blocks.block j =
      if j = id then (d.blocks.block id).front bci d.blocks.next
      else if j = d.blocks.next then (d.blocks.block id).rear bci else d.blocks.block j := by
    rw [hblocks, Blocks.block_modify, Blocks.block_push, Blocks.size_push]
    by_cases hj : j = id
    · subst hj
      rw [if_pos ⟨rfl, Nat.lt_succ_of_lt hcodeid.1⟩, if_pos rfl, if_neg (ne_next hcodeid.1)]
    · rw [if_neg fun hh => hj hh.1, if_neg hj]
  have hsame (j : BlockId) (hj : j ≠ id) (hjn : j ≠ d.blocks.next) :
      d'.blocks.block j = d.blocks.block j := by rw [hblock, if_neg hj, if_neg hjn]
  have hhead := hblock id
  rw [if_pos rfl] at hhead
  have htail := hblock d.blocks.next
  rw [if_neg (ne_next hcodeid.1).symm, if_pos rfl] at htail
  have hhstart : (d'.blocks.block id).start = (d.blocks.block id).start := by rw [hhead]; rfl
  have hhstop : (d'.blocks.block id).stop = bci - 1 := by rw [hhead]; rfl
  have htstart : (d'.blocks.block d.blocks.next).start = bci := by rw [htail]; rfl
  have htstop : (d'.blocks.block d.blocks.next).stop = (d.blocks.block id).stop := by rw [htail]; rfl
  have hkind (j : BlockId) : (d'.blocks.block j).kind = (d.blocks.block j).kind := by
    rw [hblock]
    split
    · subst_vars
      rfl
    · split
      · subst_vars
        exact (kind_next d).symm
      · rfl
  have hlt : (d.blocks.block id).start < bci := lt_of_le_of_ne hfrom hstart
  have hstartn : (d.blocks.block id).start < n := by
    by_contra hle
    have := (hlies.ahead (by omega)).1
    omega
  have hstopn := hlies.behind hstartn
  have hbsize : bci < d.blockAt.size := h.size ▸ hbci.1
  -- an instruction after the split is one of the tail
  have hkept (b : Cursor) (hb : b ∈ instructions m.code) (j : BlockId) (hj : j ≠ id)
      (hjn : j ≠ d.blocks.next) :
      d'.blockAt[b.bci]? = some (some j) ↔ d.blockAt[b.bci]? = some (some j) := by
    rw [hat]
    split
    · rename_i hin
      have hbid := hlies.range b hb (by omega) hin.2.1
      exact ⟨fun hbj => absurd (Option.some.inj (Option.some.inj hbj)).symm hjn,
        fun hbj => absurd (eq_of_at hbid hbj) hj⟩
    · exact Iff.rfl
  have hstarts : Starts d'.blocks d'.blockAt bci d.blocks.next :=
    ⟨by rw [hat, if_pos ⟨le_rfl, hto, hbsize⟩], hsize ▸ Nat.lt_succ_self _, (hkind _).trans (kind_next d), htstart⟩
  have hrefined : Refined d d' := by
    refine ⟨by omega, fun k j hj => ?_, fun j hj hk => ?_⟩
    · by_cases hjid : j = id
      · subst hjid
        have := hj.start
        refine ⟨?_, by have := hj.range; omega, (hkind j).trans hj.kind, hhstart.trans hj.start⟩
        rw [hat, if_neg (by omega)]
        exact hj.place
      · have hjsame := hsame j hjid (ne_next hj.range)
        refine ⟨?_, by have := hj.range; omega, (hkind j).trans hj.kind, hjsame ▸ hj.start⟩
        obtain ⟨k', hsite, hk'⟩ := (h.lies (Starts.isCode hj)).start
        obtain rfl : k' = k := by
          have h1 := hj.start
          have h2 := hk'.start
          omega
        rcases hsite.2 with ⟨b, hb, rfl⟩ | hall
        · exact (hkept b hb j hjid (ne_next hj.range)).2 hj.place
        · have := h.read k' hall
          rw [hat, if_neg (by omega)]
          exact hj.place
    · have hjid : j ≠ id := by
        rintro rfl
        exact hk hcodeid.2
      rw [hsame j hjid (ne_next hj)]
      exact ⟨rfl, rfl⟩
  have hintail (b : Cursor) (hb : b ∈ instructions m.code)
      (hin : d'.blockAt[b.bci]? = some (some d.blocks.next)) : d.blockAt[b.bci]? = some (some id) := by
    rw [hat] at hin
    split at hin
    · rename_i hmoved
      exact hlies.range b hb (by omega) hmoved.2.1
    · exact absurd (h.index_lt hin) (Nat.lt_irrefl _)
  have hinhead (b : Cursor) (hin : d'.blockAt[b.bci]? = some (some id)) :
      b.bci < bci ∧ d.blockAt[b.bci]? = some (some id) := by
    rw [hat] at hin
    split at hin
    · exact absurd (Option.some.inj (Option.some.inj hin)).symm (ne_next hcodeid.1)
    · have := (h.within _ _ hin).2
      have := (Array.getElem?_eq_some_iff.1 hin).1
      exact ⟨by omega, hin⟩
  refine ⟨⟨hplaces.trans h.size, fun i j hi => ?_, h.read, fun b hb hbn => ?_, fun {j} hj => ?_,
    h.chains.mono hrefined hchains hkind, fun j => ?_, hplain ▸ h.plain, hplain ▸ h.called⟩, hrefined,
    hstarts⟩
  · rw [hat] at hi
    split at hi
    · rename_i hin
      cases hi
      rw [htstart, htstop]
      exact ⟨⟨hstarts.range, hstarts.kind⟩, by omega, hin.2.1⟩
    · obtain ⟨hj, hji, hij⟩ := h.within i j hi
      have hisize : i < d.blockAt.size := (Array.getElem?_eq_some_iff.1 hi).1
      by_cases hjid : j = id
      · subst hjid
        rw [hhstart, hhstop]
        exact ⟨⟨Nat.lt_of_lt_of_le hj.1 hrefined.size, (hkind j).trans hj.2⟩, hji, by omega⟩
      · rw [hsame j hjid (ne_next hj.1)]
        exact ⟨⟨Nat.lt_of_lt_of_le hj.1 hrefined.size, (hkind j).trans hj.2⟩, hji, hij⟩
  · rw [hat]
    split
    · exact ⟨_, rfl⟩
    · exact h.seen b hb hbn
  · by_cases hjn : j = d.blocks.next
    · subst hjn
      refine ⟨⟨bci, hbci, hstarts⟩, fun b hb hbfrom hbto => ?_, fun _ => htstop ▸ hstopn, fun hle => ?_,
        fun b hb hin => ?_, fun b hb hin hlast hbn hopened => ?_, fun l hl b hb hin => ?_⟩
      · rw [htstart] at hbfrom
        rw [htstop] at hbto
        rw [hat, if_pos ⟨by omega, hbto, h.size ▸ lt_size_of_isStart ⟨b, hb, rfl⟩⟩]
      · rw [htstart] at hle
        omega
      · rw [htstop]
        exact hlies.tip b hb (hintail b hb hin)
      · rw [htstop] at hlast
        have hends := (hlies.flow b hb (hintail b hb hin) hlast hbn hopened).mono hrefined
        rw [htail]
        exact ⟨hends.follows, hends.marks⟩
      · rw [htail]
        exact hlies.openAt l hl b hb (hintail b hb hin)
    by_cases hjid : j = id
    · subst hjid
      refine ⟨hlies.exists_starts hrefined, fun b hb hbfrom hbto => ?_, fun _ => by rw [hhstop]; omega,
        fun hle => ?_, fun b hb hin hclose => ?_, fun b hb hin hlast _ _ => ?_, fun l hl b hb hin hbn => ?_⟩
      · rw [hhstart] at hbfrom
        rw [hhstop] at hbto
        rw [hat, if_neg (by omega)]
        exact hlies.range b hb hbfrom (by omega)
      · rw [hhstart] at hle
        omega
      · have := hlies.tip b hb (hinhead b hin).2 hclose
        have := (hinhead b hin).1
        omega
      · -- the head ends with the instruction before the split, which closes no block
        rw [hhstop] at hlast
        have hnext : b.next = bci := by
          have := hbci.next_le hb (hinhead b hin).1
          omega
        have hinner := h.inner hcodeid hb (h.within _ _ (hinhead b hin).2).2.1 (by omega)
        rw [hhead]
        exact ⟨follows_next hinner (hnext ▸ hstarts), (marks_of_not_closes hinner _).symm⟩
      · have := hbci.next_le hb (hinhead b hin).1
        omega
    · have hj' : IsCode d j :=
        ⟨(eq_next_or_lt hsize hj.1).resolve_left hjn, (hkind j).symm.trans hj.2⟩
      exact (h.lies hj').keep hrefined (by rw [hsame j hjid hjn]) fun b hb => hkept b hb j hjid hjn
  · rw [hblock]
    split
    · exact { h.fresh id with marks := fun _ => rfl }
    · split
      · exact ⟨rfl, rfl, rfl, .inl rfl, fun hkind => absurd rfl hkind⟩
      · exact h.fresh j

/-! ### The next instruction -/

/-- The next instruction starts a block. -/
theorem Mapped.enter (h : Mapped m options c.bci none d) (hc : c ∈ instructions m.code)
    (hid : Starts d.blocks d.blockAt c.bci id) :
    let d' := { d with
      blockAt := d.blockAt.setIfInBounds c.bci (some id)
      blocks := d.blocks.modify id fun b => { b with stop := c.bci } }
    Mapped m options c.next (some []) d' ∧ Refined d d' := by
  have hcode := Starts.isCode hid
  have hlies := h.lies hcode
  have hstart := hid.start
  obtain ⟨hstop, hsuccessors, hmarks⟩ := hlies.ahead (by omega)
  -- all of this is there
  have hat : d.blockAt.setIfInBounds c.bci (some id) = d.blockAt := by
    refine Array.ext_getElem? fun i => ?_
    rw [Array.getElem?_setIfInBounds]
    split
    · rename_i hi
      subst hi
      rw [if_pos (Array.getElem?_eq_some_iff.1 hid.place).1, hid.place]
    · rfl
  have hblocks : (d.blocks.modify id fun b => { b with stop := c.bci }) = d.blocks :=
    Blocks.modify_eq_self (by rw [← hstop.trans hstart])
  rw [hat, hblocks]
  show Mapped m options c.next (some []) d ∧ Refined d d
  refine ⟨⟨h.size, h.within, fun k hall => hall c hc, fun b hb hbn => ?_, fun {j} hj => ?_, h.chains,
    h.fresh, h.plain, fun b hb hbn hopened => ?_⟩, .refl⟩
  · rcases lt_or_eq_of_lt_next hc hb hbn with hbc | rfl
    · exact h.seen b hb hbc
    · exact ⟨id, hid.place⟩
  · by_cases hjid : j = id
    · subst hjid
      have hnext := lt_next hc
      refine ⟨hlies.start, hlies.range, fun _ => by omega, fun hle => by omega, hlies.tip,
        fun b hb hin _ hbn hopened => ?_, fun l hl b hb hin hbn => ?_⟩
      · rcases lt_or_eq_of_lt_next hc hb hbn with hbc | rfl
        · have := (h.within _ _ hin).2.1
          omega
        · exact absurd rfl (hopened.resolve_left nofun)
      · obtain rfl := eq_of_next hb hc hbn
        cases hl
        exact ⟨by omega, hsuccessors, hmarks⟩
    · exact (h.lies hj).advance hc fun hin => hjid (eq_of_at hid.place hin)
  · rcases lt_or_eq_of_lt_next hc hb hbn with hbc | rfl
    · exact h.called b hb hbc (.inl rfl)
    · exact absurd rfl (hopened.resolve_left nofun)

/-- The next instruction goes on with the open block. -/
theorem Mapped.extend (h : Mapped m options c.bci (some []) d) (hc : c ∈ instructions m.code)
    {b : Cursor} (hb : b ∈ instructions m.code) (hbc : b.next = c.bci)
    (hid : d.blockAt[b.bci]? = some (some id)) (hclose : ¬m.ClosesBlock options b)
    (hnone : (d.blockAt[c.bci]?).join = none) :
    let d' := { d with
      blockAt := d.blockAt.setIfInBounds c.bci (some id)
      blocks := d.blocks.modify id fun b => { b with stop := c.bci } }
    Mapped m options c.next (some []) d' ∧ Refined d d' := by
  intro d'
  obtain ⟨hcode, hfrom, hto⟩ := h.within b.bci id hid
  have hlies := h.lies hcode
  obtain ⟨hstop, hsuccessors, hmarks⟩ := hlies.openAt [] rfl b hb hid hbc
  have hbnext := lt_next hb
  have hnext := lt_next hc
  have hnot (j : BlockId) : d.blockAt[c.bci]? ≠ some (some j) := by
    intro hj
    rw [hj] at hnone
    cases hnone
  have hcsize : c.bci < d.blockAt.size := h.size ▸ lt_size_of_isStart ⟨c, hc, rfl⟩
  have hat (i : Nat) : d'.blockAt[i]? = if i = c.bci then some (some id) else d.blockAt[i]? :=
    getElem?_assigned hcsize i
  have hblock (j : BlockId) : d'.blocks.block j =
      if j = id then { d.blocks.block id with stop := c.bci } else d.blocks.block j :=
    block_modify_of_isCode hcode _ j
  have hself := hblock id
  rw [if_pos rfl] at hself
  obtain ⟨hrefined, hkinds, hiff⟩ := refined_modify d id (fun b => { b with stop := c.bci })
    (d.blockAt.setIfInBounds c.bci (some id)) (fun _ => ⟨rfl, rfl⟩) (fun _ => rfl)
    fun k j hj => by
      rwa [hat, if_neg]
      rintro rfl
      exact hnot j hj
  -- the instructions of the block that are not new were there before
  have hold (a : Cursor) (ha : a ∈ instructions m.code) (hac : a.bci < c.bci) : a.bci ≤ b.bci := by
    by_contra hlt
    have := next_le hb ha (by omega)
    omega
  have hin (a : Cursor) (hain : d'.blockAt[a.bci]? = some (some id)) :
      a.bci = c.bci ∨ d.blockAt[a.bci]? = some (some id) := by
    rw [hat] at hain
    split at hain
    · exact .inl ‹_›
    · exact .inr hain
  refine ⟨⟨Array.size_setIfInBounds.trans h.size, fun i j hi => ?_, fun k hall => hall c hc,
    fun a ha han => ?_, fun {j} hj => ?_, h.chains.mono hrefined rfl hkinds, fun j => ?_, h.plain,
    fun a ha hlt hopened hcall => ?_⟩, hrefined⟩
  · rw [hat] at hi
    rw [hiff, hblock]
    split at hi
    · rename_i hic
      cases hi
      rw [if_pos rfl]
      exact ⟨hcode, by simp only; omega, by simp only; omega⟩
    · obtain ⟨hj, hji, hij⟩ := h.within i j hi
      refine ⟨hj, ?_⟩
      split
      · subst_vars
        exact ⟨hji, by simp only; omega⟩
      · exact ⟨hji, hij⟩
  · rw [hat]
    split
    · exact ⟨id, rfl⟩
    · rename_i hne
      rcases lt_or_eq_of_lt_next hc ha han with hac | rfl
      · exact h.seen a ha hac
      · exact absurd rfl hne
  · rw [hiff] at hj
    by_cases hjid : j = id
    · subst hjid
      refine ⟨hlies.exists_starts hrefined, fun a ha hafrom hato => ?_, fun _ => ?_, fun hle => ?_,
        fun a ha hain hcloses => ?_, fun a ha hain hlast han hopened => ?_, fun l hl a ha _ han => ?_⟩
      · rw [hself] at hafrom hato
        rw [hat]
        split
        · rfl
        · have := hold a ha (by simp only at hato; omega)
          exact hlies.range a ha hafrom (by omega)
      · rw [hself]
        simp only
        omega
      · rw [hself] at hle
        simp only at hle
        omega
      · rw [hself]
        rcases hin a hain with hac | haold
        · exact congrArg _ hac.symm
        · -- then it is the last instruction so far, which does not close the block
          have hend := hlies.tip a ha haold hcloses
          obtain rfl := eq_of_bci ha hb (by omega)
          exact absurd hcloses hclose
      · have hac : a.bci < c.bci := (lt_or_eq_of_lt_next hc ha han).resolve_right fun e =>
          hopened.resolve_left nofun (e ▸ rfl)
        rw [hself] at hlast
        have := next_le ha hc hac
        simp only at hlast
        omega
      · obtain rfl := eq_of_next ha hc han
        cases hl
        rw [hself]
        exact ⟨rfl, hsuccessors, hmarks⟩
    · refine (((h.lies hj).reopen (fun a ha hain han => hjid ?_) none).advance hc (hnot j)).keep hrefined ?_
        fun a ha => ?_
      · obtain rfl := eq_of_next ha hb (han.trans hbc.symm)
        exact eq_of_at hid hain
      · rw [hblock, if_neg hjid]
      · rw [hat]
        split
        · rename_i hac
          exact ⟨fun e => absurd (Option.some.inj (Option.some.inj e)).symm hjid,
            fun e => absurd (hac ▸ e) (hnot j)⟩
        · exact Iff.rfl
  · rw [hblock]
    split
    · exact { h.fresh id with }
    · exact h.fresh j
  · have hac : a.bci < c.bci := (lt_or_eq_of_lt_next hc ha hlt).resolve_right fun e =>
      hopened.resolve_left nofun (e ▸ rfl)
    refine h.called a ha hac (.inr fun hac => ?_) hcall
    obtain rfl := eq_of_next ha hb (hac.trans hbc.symm)
    exact absurd (marks_of_not_closes hclose []) (marks_ne_of_call hcall (lt_next ha) [])

end Discovery

end Flow

end SeaOfNodes
