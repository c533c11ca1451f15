import SeaOfNodes.Proofs.Flow.Map

/-!
# Which locals are live

A local is live before a block if there is a way on from there, along which it is read before anything
writes it. The passes over the blocks find exactly these: what they note is always live, each pass but
the last notes something new, and what a pass leaves as it was is closed under going back along edges.
-/

namespace SeaOfNodes

open Bytecode

/-! ### What an instruction does to the locals -/

namespace Bytecode.Cursor

/-- The instruction reads a local; a value of two words takes two. -/
def Reads (c : Cursor) (l : Nat) : Prop :=
  match c.form? with
  | some (.load kind slot) =>
    l = slot.getD c.localIndex ∨ kind.isTwoSlot = true ∧ l = slot.getD c.localIndex + 1
  | some .increment | some .ret => l = c.localIndex
  | _ => False

/-- The instruction writes a local without reading it. -/
def Writes (c : Cursor) (l : Nat) : Prop :=
  match c.form? with
  | some (.store kind slot) =>
    l = slot.getD c.localIndex ∨ kind.isTwoSlot = true ∧ l = slot.getD c.localIndex + 1
  | _ => False

theorem localIndex_lt (c : Cursor) : c.localIndex < 65536 := by
  unfold localIndex
  split
  · exact UInt16.toNat_lt _
  · exact (UInt8.toNat_lt _).trans (by decide)

/-- The short forms name the first locals. -/
theorem slot_lt_of_mem_opcodeTable : ∀ info ∈ opcodeTable.toList, (match info.form with
    | .load _ (some slot) => decide (slot < 4)
    | _ => true) = true := by
  decide +kernel

theorem slot_lt_of_load {c : Cursor} {kind : Kind} {slot : Nat}
    (h : c.form? = some (.load kind (some slot))) : slot < 4 := by
  obtain ⟨opcode, -, hform⟩ := Option.bind_eq_some_iff.1 h
  obtain ⟨info, hinfo, hload⟩ := Option.map_eq_some_iff.1 hform
  have := slot_lt_of_mem_opcodeTable info (Array.mem_toList_iff.2 (Array.mem_of_getElem? hinfo))
  rw [hload] at this
  exact of_decide_eq_true this

theorem Reads.lt {c : Cursor} {l : Nat} (h : c.Reads l) : l < Flow.Liveness.maxNamed := by
  have hlocal := c.localIndex_lt
  unfold Reads at h
  unfold Flow.Liveness.maxNamed
  split at h
  · rename_i kind slot hform
    cases slot with
    | none => simp only [Option.getD_none] at h; omega
    | some slot =>
      have := slot_lt_of_load hform
      simp only [Option.getD_some] at h
      omega
  · omega
  · omega
  · cases h

end Bytecode.Cursor

/-! ### What a block does to the locals -/

namespace Flow

/-- The instructions of a block. -/
def instructionsOf (code : Array UInt8) (b : Block) : List Cursor :=
  if b.kind = .bytecodes then (Cursor.walkFrom code b.start.toNat).takeWhile (·.bci ≤ b.stop.toNat) else []

/-- A local is read before it is written. -/
def ReadsFirst (l : Nat) : List Cursor → Prop
  | [] => False
  | c :: rest => c.Reads l ∨ ¬ c.Writes l ∧ ReadsFirst l rest

/-- A local is written before it is read. -/
def WritesFirst (l : Nat) : List Cursor → Prop
  | [] => False
  | c :: rest => c.Writes l ∨ ¬ c.Reads l ∧ WritesFirst l rest

theorem not_writes_of_reads {c : Cursor} {l l' : Nat} (h : c.Reads l) : ¬ c.Writes l' := by
  unfold Cursor.Reads at h
  unfold Cursor.Writes
  split at h <;> simp_all

variable {cs : List Cursor}

theorem readsFirst_iff {l : Nat} : ReadsFirst l cs ↔
    ∃ before c rest, cs = before ++ c :: rest ∧ c.Reads l ∧ ∀ w ∈ before, ¬ w.Writes l := by
  induction cs with
  | nil => simp [ReadsFirst]
  | cons c cs ih =>
    rw [ReadsFirst, ih]
    constructor
    · rintro (h | ⟨hw, before, c', rest, rfl, hr, hall⟩)
      · exact ⟨[], c, cs, rfl, h, nofun⟩
      · refine ⟨c :: before, c', rest, rfl, hr, fun w hw' => ?_⟩
        rcases List.mem_cons.1 hw' with rfl | hw'
        · exact hw
        · exact hall w hw'
    · rintro ⟨before, c', rest, heq, hr, hall⟩
      cases before with
      | nil =>
        cases heq
        exact .inl hr
      | cons b before =>
        cases heq
        exact .inr ⟨hall c (List.mem_cons_self ..), before, c', rest, rfl, hr, fun w hw =>
          hall w (List.mem_cons_of_mem _ hw)⟩

/-- Unless a local is written first, it is read first or not written at all. -/
theorem not_writesFirst_iff {l : Nat} :
    ¬ WritesFirst l cs ↔ ReadsFirst l cs ∨ ∀ c ∈ cs, ¬ c.Writes l := by
  induction cs with
  | nil => simp [WritesFirst]
  | cons c cs ih =>
    have hno : c.Reads l → ¬ c.Writes l := not_writes_of_reads
    have : ¬ WritesFirst l (c :: cs) ↔ ¬ c.Writes l ∧ (c.Reads l ∨ ¬ WritesFirst l cs) := by
      rw [WritesFirst]
      tauto
    rw [this, ih, ReadsFirst, List.forall_mem_cons]
    tauto

namespace Effects

variable {e : Effects} {l index : Nat} {c : Cursor} {code : Array UInt8}

theorem reads_read : (e.read index).reads.contains l ↔
    e.reads.contains l ∨ l = index ∧ ¬ e.writes.contains l := by
  unfold read
  split
  · rename_i h
    refine ⟨.inl, fun hl => hl.resolve_right fun ⟨heq, hno⟩ => hno (heq ▸ h)⟩
  · rename_i h
    rw [BitSet.contains_insert]
    constructor
    · rintro (rfl | hl)
      · exact .inr ⟨rfl, h⟩
      · exact .inl hl
    · rintro (hl | ⟨rfl, -⟩)
      · exact .inr hl
      · exact .inl rfl

@[simp] theorem writes_read : (e.read index).writes = e.writes := by
  unfold read
  split <;> rfl

theorem writes_write : (e.write index).writes.contains l ↔
    e.writes.contains l ∨ l = index ∧ ¬ e.reads.contains l := by
  unfold write
  split
  · rename_i h
    refine ⟨.inl, fun hl => hl.resolve_right fun ⟨heq, hno⟩ => hno (heq ▸ h)⟩
  · rename_i h
    rw [BitSet.contains_insert]
    constructor
    · rintro (rfl | hl)
      · exact .inr ⟨rfl, h⟩
      · exact .inl hl
    · rintro (hl | ⟨rfl, -⟩)
      · exact .inr hl
      · exact .inl rfl

@[simp] theorem reads_write : (e.write index).reads = e.reads := by
  unfold write
  split <;> rfl

theorem reads_step : (e.step c).reads.contains l ↔
    e.reads.contains l ∨ c.Reads l ∧ ¬ e.writes.contains l := by
  unfold step Cursor.Reads onSlots
  split <;> rename_i hform
  · rw [hform]
    dsimp only
    split <;> simp only [*, reads_read, writes_read, true_and, Bool.false_eq_true, false_and, or_false]
    tauto
  · rw [hform]
    dsimp only
    split <;> simp
  · rw [hform]
    exact reads_read
  · rw [hform]
    exact reads_read
  · split <;> simp_all

theorem writes_step : (e.step c).writes.contains l ↔
    e.writes.contains l ∨ c.Writes l ∧ ¬ e.reads.contains l := by
  unfold step Cursor.Writes onSlots
  split <;> rename_i hform
  · rw [hform]
    dsimp only
    split <;> simp
  · rw [hform]
    dsimp only
    split <;> simp only [*, writes_write, reads_write, true_and, Bool.false_eq_true, false_and, or_false]
    tauto
  · rw [hform]
    simp
  · rw [hform]
    simp
  · split <;> simp_all

theorem reads_foldl : (cs.foldl step e).reads.contains l ↔
    e.reads.contains l ∨ ¬ e.writes.contains l ∧ ReadsFirst l cs := by
  induction cs generalizing e with
  | nil => simp [ReadsFirst]
  | cons c cs ih =>
    have hno : c.Reads l → ¬ c.Writes l := not_writes_of_reads
    rw [List.foldl_cons, ih, reads_step, writes_step, ReadsFirst]
    tauto

theorem writes_foldl : (cs.foldl step e).writes.contains l ↔
    e.writes.contains l ∨ ¬ e.reads.contains l ∧ WritesFirst l cs := by
  induction cs generalizing e with
  | nil => simp [WritesFirst]
  | cons c cs ih =>
    have hno : c.Reads l → ¬ c.Writes l := not_writes_of_reads
    rw [List.foldl_cons, ih, reads_step, writes_step, WritesFirst]
    tauto

theorem reads_ofBlock {b : Block} :
    (ofBlock code b).reads.contains l ↔ ReadsFirst l (instructionsOf code b) := by
  unfold ofBlock instructionsOf ofRange
  split
  · simp [reads_foldl]
  · simp [ReadsFirst]

theorem writes_ofBlock {b : Block} :
    (ofBlock code b).writes.contains l ↔ WritesFirst l (instructionsOf code b) := by
  unfold ofBlock instructionsOf ofRange
  split
  · simp [writes_foldl]
  · simp [WritesFirst]

end Effects

/-! ### Passes over the blocks -/

namespace Liveness

variable {blocks : Blocks} {code : Array UInt8} {l l' : Liveness} {b t : BlockId} {i : Nat}
  {rows : List (BlockId × List BlockId × Effects)} {order successors : List BlockId}

/-- A local is noted as live before a block. -/
def In (l : Liveness) (b : BlockId) (i : Nat) : Prop := ((l.liveIn? b).getD .empty).contains i = true

instance : Decidable (l.In b i) := inferInstanceAs (Decidable (_ = true))

/-- A local is noted as live after a block. -/
def Out (l : Liveness) (b : BlockId) (i : Nat) : Prop := ((l.liveOut? b).getD .empty).contains i = true

/-- A local is live before a block, as far as reads and writes of whole blocks show. -/
inductive Live (blocks : Blocks) (code : Array UInt8) (i : Nat) : BlockId → Prop
  | here {b : BlockId} (reads : (Effects.ofBlock code (blocks.block b)).reads.contains i = true) :
    Live blocks code i b
  | later {b t : BlockId} (writes : ¬ (Effects.ofBlock code (blocks.block b)).writes.contains i = true)
    (edge : t ∈ (blocks.block b).successors) (live : Live blocks code i t) : Live blocks code i b

/-- What holds of the notes at all times. -/
structure Noted (blocks : Blocks) (code : Array UInt8) (l : Liveness) : Prop where
  sizeBefore : l.before.size = blocks.size
  sizeAfter : l.after.size = blocks.size
  /-- What is noted after a block is live before a successor. -/
  after : ∀ b i, l.Out b i → ∃ t ∈ (blocks.block b).successors, Live blocks code i t
  /-- What is noted before a block comes from the block or from what is noted after it. -/
  before : ∀ b i, l.In b i → (Effects.ofBlock code (blocks.block b)).reads.contains i = true ∨
    l.Out b i ∧ ¬ (Effects.ofBlock code (blocks.block b)).writes.contains i = true

theorem Noted.live (h : Noted blocks code l) (hi : l.In b i) : Live blocks code i b := by
  rcases h.before b i hi with hr | ⟨ho, hw⟩
  · exact .here hr
  · obtain ⟨t, ht, hl⟩ := h.after b i ho
    exact .later hw ht hl

/-- More is noted than before. -/
structure Grows (l l' : Liveness) : Prop where
  before : ∀ b i, l.In b i → l'.In b i
  after : ∀ b i, l.Out b i → l'.Out b i

theorem Grows.trans {l'' : Liveness} (h : Grows l l') (h' : Grows l' l'') : Grows l l'' :=
  ⟨fun b i hi => h'.before b i (h.before b i hi), fun b i hi => h'.after b i (h.after b i hi)⟩

theorem contains_foldl_union {s : BitSet} {f : BlockId → BitSet} {ts : List BlockId} :
    (ts.foldl (fun s t => s.union (f t)) s).contains i ↔
      s.contains i ∨ ∃ t ∈ ts, (f t).contains i := by
  induction ts generalizing s with
  | nil => simp
  | cons t ts ih => simp [ih, or_assoc]

/-- What is noted after one block is brought up to date. -/
theorem out_update {e : Effects} (hb : b.index < l.after.size) :
    (l.update b successors e).Out t i ↔
      l.Out t i ∨ t = b ∧ ∃ u ∈ successors, l.In u i := by
  unfold Out liveOut? update
  dsimp only
  rw [Array.getElem?_setIfInBounds]
  by_cases ht : t = b
  · subst ht
    rw [if_pos rfl, if_pos hb]
    simp only [Option.getD_some, contains_foldl_union, true_and]
    rfl
  · rw [if_neg fun heq => ht (by cases t; cases b; simp_all)]
    simp [ht]

theorem in_update {e : Effects} (hb : b.index < l.before.size) (hb' : b.index < l.after.size) :
    (l.update b successors e).In t i ↔ if t = b then
      e.reads.contains i = true ∨ (l.update b successors e).Out b i ∧ ¬ e.writes.contains i
      else l.In t i := by
  by_cases ht : t = b
  · subst ht
    rw [if_pos rfl, out_update hb']
    unfold In liveIn? update
    dsimp only
    rw [Array.getElem?_setIfInBounds, if_pos rfl, if_pos hb]
    simp only [Option.getD_some, BitSet.contains_union, BitSet.contains_diff, Bool.or_eq_true,
      Bool.and_eq_true, Bool.not_eq_true', contains_foldl_union, Bool.not_eq_true]
    simp only [Out, liveIn?, true_and]
    exact or_comm
  · rw [if_neg ht]
    unfold In liveIn? update
    dsimp only
    rw [Array.getElem?_setIfInBounds, if_neg fun heq => ht (by cases t; cases b; simp_all)]

/-- One block is brought up to date. -/
theorem Noted.update (h : Noted blocks code l) (hb : b.index < blocks.size) {l' : Liveness}
    (hl' : l' = l.update b (blocks.block b).successors (Effects.ofBlock code (blocks.block b))) :
    Noted blocks code l' ∧ Grows l l' ∧
      (∀ i, (Effects.ofBlock code (blocks.block b)).reads.contains i → l'.In b i) ∧
      ∀ t ∈ (blocks.block b).successors, ∀ i, l.In t i → l'.Out b i ∧
        (¬ (Effects.ofBlock code (blocks.block b)).writes.contains i → l'.In b i) := by
  subst hl'
  have hb1 : b.index < l.before.size := by rwa [h.sizeBefore]
  have hb2 : b.index < l.after.size := by rwa [h.sizeAfter]
  refine ⟨⟨?_, ?_, fun t i => ?_, fun t i => ?_⟩, ⟨fun t i => ?_, fun t i ht => ?_⟩, fun i hi => ?_,
    fun t ht i hi => ?_⟩
  · rw [← h.sizeBefore]
    exact Array.size_setIfInBounds
  · rw [← h.sizeAfter]
    exact Array.size_setIfInBounds
  · rw [out_update hb2]
    rintro (ho | ⟨rfl, u, hu, hi⟩)
    · exact h.after t i ho
    · exact ⟨u, hu, h.live hi⟩
  · rw [in_update hb1 hb2]
    split
    · rename_i heq
      rw [heq]
      exact fun hi => hi
    · rw [out_update hb2]
      exact fun hi => (h.before t i hi).imp_right fun ho => ⟨.inl ho.1, ho.2⟩
  · rw [in_update hb1 hb2]
    split
    · rename_i heq
      rw [heq, out_update hb2]
      exact fun hi => (h.before b i hi).imp_right fun ho => ⟨.inl ho.1, ho.2⟩
    · exact fun hi => hi
  · exact (out_update hb2).2 (.inl ht)
  · rw [in_update hb1 hb2, if_pos rfl]
    exact .inl hi
  · have hout : (l.update b (blocks.block b).successors (Effects.ofBlock code (blocks.block b))).Out b i :=
      (out_update hb2).2 (.inr ⟨rfl, t, ht, hi⟩)
    refine ⟨hout, fun hw => ?_⟩
    rw [in_update hb1 hb2, if_pos rfl]
    exact .inr ⟨hout, hw⟩

/-- The row of a block in a pass. -/
def rowOf (blocks : Blocks) (code : Array UInt8) (b : BlockId) : BlockId × List BlockId × Effects :=
  (b, (blocks.block b).successors, Effects.ofBlock code (blocks.block b))

/-- The notes take account of a block. -/
def Covers (blocks : Blocks) (code : Array UInt8) (l l' : Liveness) (b : BlockId) : Prop :=
  (∀ i, (Effects.ofBlock code (blocks.block b)).reads.contains i = true → l'.In b i) ∧
    ∀ t ∈ (blocks.block b).successors, ∀ i, l.In t i → l'.Out b i ∧
      (¬ (Effects.ofBlock code (blocks.block b)).writes.contains i = true → l'.In b i)

/-- A pass over blocks brings each of them up to date with what was noted before. -/
theorem Noted.pass (h : Noted blocks code l) (horder : ∀ b ∈ order, b.index < blocks.size) :
    Noted blocks code (pass (order.map (rowOf blocks code)) l) ∧
      Grows l (pass (order.map (rowOf blocks code)) l) ∧
      ∀ b ∈ order, Covers blocks code l (pass (order.map (rowOf blocks code)) l) b := by
  induction order generalizing l with
  | nil => exact ⟨h, ⟨fun _ _ hi => hi, fun _ _ hi => hi⟩, nofun⟩
  | cons b order ih =>
    obtain ⟨h1, hg1, hr1, hs1⟩ := h.update (horder b (List.mem_cons_self ..)) rfl
    obtain ⟨h2, hg2, hc2⟩ := ih h1 fun b hb => horder b (List.mem_cons_of_mem _ hb)
    refine ⟨h2, hg1.trans hg2, fun c hc => ?_⟩
    rcases List.mem_cons.1 hc with rfl | hc
    · exact ⟨fun i hi => hg2.before _ i (hr1 i hi), fun t ht i hi =>
        ⟨hg2.after _ i (hs1 t ht i hi).1, fun hw => hg2.before _ i ((hs1 t ht i hi).2 hw)⟩⟩
    · exact ⟨(hc2 c hc).1, fun t ht i hi => (hc2 c hc).2 t ht i (hg1.before t i hi)⟩

/-- Only locals that instructions can name are live. -/
theorem Live.lt (h : Live blocks code i b) : i < maxNamed := by
  induction h with
  | here reads =>
    rw [Effects.reads_ofBlock, readsFirst_iff] at reads
    obtain ⟨_, c, _, _, hr, _⟩ := reads
    exact hr.lt
  | later _ _ _ ih => exact ih

/-- What is noted before the blocks. -/
def noted (blocks : Blocks) (l : Liveness) : Finset (Nat × Nat) :=
  (Finset.range blocks.size ×ˢ Finset.range maxNamed).filter fun p => l.In ⟨p.1⟩ p.2

theorem card_noted_le (blocks : Blocks) (l : Liveness) :
    (noted blocks l).card ≤ blocks.size * maxNamed :=
  (Finset.card_filter_le ..).trans (by rw [Finset.card_product, Finset.card_range, Finset.card_range])

/-- Notes that are equal before all blocks are the same. -/
theorem beq_before_iff (hsize : l.before.size = l'.before.size) :
    (l'.before == l.before) = true ↔ ∀ b i, l'.In b i ↔ l.In b i := by
  rw [Array.beq_eq_decide, dif_pos hsize.symm, decide_eq_true_eq]
  constructor
  · intro h b i
    unfold In liveIn?
    by_cases hb : b.index < l'.before.size
    · rw [Array.getElem?_eq_getElem hb, Array.getElem?_eq_getElem (hsize ▸ hb)]
      have := BitSet.beq_iff.1 (h b.index hb) i
      simp only [Option.getD_some, this]
    · rw [Array.getElem?_eq_none (by omega), Array.getElem?_eq_none (by omega)]
  · intro h j hj
    refine BitSet.beq_iff.2 fun i => Bool.eq_iff_iff.2 ?_
    have := h ⟨j⟩ i
    unfold In liveIn? at this
    dsimp only at this
    rwa [Array.getElem?_eq_getElem hj, Array.getElem?_eq_getElem (hsize ▸ hj)] at this

/-- If notes grow but are not the same, then there are more of them. -/
theorem card_noted_lt (h' : Noted blocks code l') (hg : Grows l l')
    (hsize : l.before.size = l'.before.size) (hne : ¬ (l'.before == l.before) = true) :
    (noted blocks l).card < (noted blocks l').card := by
  rw [beq_before_iff hsize] at hne
  push Not at hne
  obtain ⟨b, i, ⟨hin, hout⟩ | ⟨hout, hin⟩⟩ := hne
  · refine Finset.card_lt_card (Finset.ssubset_iff_of_subset ?_ |>.2 ⟨(b.index, i), ?_, ?_⟩)
    · exact Finset.monotone_filter_right _ fun p _ hp => hg.before _ _ hp
    · refine Finset.mem_filter.2 ⟨Finset.mem_product.2 ⟨Finset.mem_range.2 ?_, Finset.mem_range.2 ?_⟩, hin⟩
      · by_contra hb
        unfold In liveIn? at hin
        rw [Array.getElem?_eq_none (by rw [h'.sizeBefore]; omega)] at hin
        simp at hin
      · exact (h'.live hin).lt
    · exact fun hmem => hout (Finset.mem_filter.1 hmem).2
  · exact absurd (hg.before b i hin) hout

/-- The notes are complete: nothing is live before or after the blocks of the order that they lack. -/
structure Solved (blocks : Blocks) (code : Array UInt8) (order : List BlockId) (l : Liveness) : Prop
    extends Noted blocks code l where
  covers : ∀ b ∈ order, Covers blocks code l l b

/-- Passes with enough rounds find a solution. -/
theorem Noted.solve (h : Noted blocks code l) (horder : ∀ b ∈ order, b.index < blocks.size) {rounds : Nat}
    (hrounds : blocks.size * maxNamed < (noted blocks l).card + rounds) :
    Solved blocks code order (solve (order.map (rowOf blocks code)) rounds l) := by
  induction rounds generalizing l with
  | zero =>
    have := card_noted_le blocks l
    omega
  | succ rounds ih =>
    obtain ⟨h', hg, hc⟩ := h.pass horder
    have hsize : l.before.size = (Liveness.pass (order.map (rowOf blocks code)) l).before.size := by
      rw [h.sizeBefore, h'.sizeBefore]
    unfold solve
    dsimp only
    split
    · rename_i heq
      have hsame := (beq_before_iff hsize).1 heq
      exact { h' with
        covers := fun b hb => ⟨(hc b hb).1, fun t ht i hi => (hc b hb).2 t ht i ((hsame t i).1 hi)⟩ }
    · rename_i hne
      refine ih h' ?_
      have := card_noted_lt h' hg hsize hne
      omega

theorem noted_replicate (blocks : Blocks) (code : Array UInt8) :
    Noted blocks code ⟨.replicate blocks.size .empty, .replicate blocks.size .empty⟩ := by
  have hno (b : BlockId) (i : Nat) :
      ¬ (((Array.replicate blocks.size BitSet.empty)[b.index]?).getD .empty).contains i := by
    rw [Array.getElem?_replicate]
    split <;> simp
  exact ⟨Array.size_replicate, Array.size_replicate, fun b i h => absurd h (hno b i),
    fun b i h => absurd h (hno b i)⟩

/-- The notes of a computation are complete. -/
theorem solved_compute (horder : ∀ b ∈ order, b.index < blocks.size) :
    Solved blocks code order (compute blocks order code) := by
  unfold compute
  have hsolved : Solved blocks code order.reverse (Liveness.solve (order.reverse.map (rowOf blocks code))
      (blocks.size * maxNamed + 2) ⟨.replicate blocks.size .empty, .replicate blocks.size .empty⟩) :=
    (noted_replicate blocks code).solve (fun b hb => horder b (List.mem_reverse.1 hb)) (by omega)
  exact { hsolved with covers := fun b hb => hsolved.covers b (List.mem_reverse.2 hb) }

section

variable (h : Solved blocks code order l)
  (hclosed : ∀ b ∈ order, ∀ t ∈ (blocks.block b).successors, t ∈ order) (hb : b ∈ order)

include h hclosed hb

theorem Solved.in_iff :
    l.In b i ↔ Live blocks code i b := by
  refine ⟨h.live, fun hl => ?_⟩
  induction hl with
  | here reads => exact (h.covers _ hb).1 i reads
  | later writes edge _ ih =>
    exact ((h.covers _ hb).2 _ edge i (ih (hclosed _ hb _ edge))).2 writes

theorem Solved.out_iff :
    l.Out b i ↔ ∃ t ∈ (blocks.block b).successors, l.In t i := by
  constructor
  · intro ho
    obtain ⟨t, ht, hl⟩ := h.after b i ho
    exact ⟨t, ht, (h.in_iff hclosed (hclosed b hb t ht)).2 hl⟩
  · rintro ⟨t, ht, hi⟩
    exact ((h.covers b hb).2 t ht i hi).1

end

end Liveness

/-! ### Ways on which a local is read -/

/-- A way from a block on: whole blocks, then a part of one more block up to an instruction that reads the
local. Nothing on the way writes it. -/
structure ReadsAhead (blocks : Blocks) (code : Array UInt8) (i : Nat) (b : BlockId)
    (through : List BlockId) (last : BlockId) (before : List Cursor) (reader : Cursor) : Prop where
  starts : (through ++ [last]).head? = some b
  path : (through ++ [last]).IsChain fun c t => t ∈ (blocks.block c).successors
  part : ∃ rest, instructionsOf code (blocks.block last) = before ++ reader :: rest
  reads : reader.Reads i
  unwritten : ∀ c ∈ through.flatMap (fun c => instructionsOf code (blocks.block c)) ++ before,
    ¬ c.Writes i

theorem live_iff_readsAhead {blocks : Blocks} {code : Array UInt8} {i : Nat} {b : BlockId} :
    Liveness.Live blocks code i b ↔
      ∃ through last before reader, ReadsAhead blocks code i b through last before reader := by
  constructor
  · intro h
    induction h with
    | @here b reads =>
      rw [Effects.reads_ofBlock, readsFirst_iff] at reads
      obtain ⟨before, c, rest, heq, hr, hw⟩ := reads
      exact ⟨[], b, before, c, rfl, .singleton _, ⟨rest, heq⟩, hr, by simpa using hw⟩
    | @later b t writes edge _ ih =>
      rw [Effects.writes_ofBlock, not_writesFirst_iff] at writes
      rcases writes with hreads | hno
      · obtain ⟨before, c, rest, heq, hr, hw⟩ := readsFirst_iff.1 hreads
        exact ⟨[], b, before, c, rfl, .singleton _, ⟨rest, heq⟩, hr, by simpa using hw⟩
      · obtain ⟨through, last, before, c, hstart, hpath, hpart, hr, hw⟩ := ih
        refine ⟨b :: through, last, before, c, rfl, ?_, hpart, hr, fun w hmem => ?_⟩
        · rw [List.cons_append, List.isChain_cons]
          refine ⟨fun y hy => ?_, hpath⟩
          rw [hstart] at hy
          cases hy
          exact edge
        · rw [List.flatMap_cons, List.append_assoc] at hmem
          exact (List.mem_append.1 hmem).elim (hno w) (hw w)
  · rintro ⟨through, last, before, c, hstart, hpath, ⟨rest, hpart⟩, hr, hw⟩
    induction through generalizing b with
    | nil =>
      cases hstart
      refine .here ?_
      rw [Effects.reads_ofBlock, readsFirst_iff]
      exact ⟨before, c, rest, hpart, hr, by simpa using hw⟩
    | cons b' through ih =>
      cases hstart
      rw [List.cons_append, List.isChain_cons] at hpath
      rw [List.flatMap_cons, List.append_assoc] at hw
      obtain ⟨t, ht⟩ : ∃ t, (through ++ [last]).head? = some t := by
        cases through with
        | nil => exact ⟨_, rfl⟩
        | cons t _ => exact ⟨t, rfl⟩
      refine .later ?_ (hpath.1 t ht) (ih ht hpath.2 fun w hmem => hw w (List.mem_append_right _ hmem))
      rw [Effects.writes_ofBlock, not_writesFirst_iff]
      exact .inr fun w hmem => hw w (List.mem_append_left _ hmem)

end Flow

end SeaOfNodes
