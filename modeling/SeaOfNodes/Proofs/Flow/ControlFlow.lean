import SeaOfNodes.Proofs.Flow.Reducible

/-!
# The map of a method is its control flow

Each instruction lies in one block, blocks start where control comes in, and they lead where their last
instructions lead.
-/

namespace SeaOfNodes

open Bytecode Flow

namespace Bytecode

variable {code : Array UInt8} {c : Cursor}

/-- Only switches have a table. -/
theorem form?_of_switch? {s : SwitchTable} (hc : c ∈ instructions code) (hs : c.switch? = some s) :
    c.form? = some .tableSwitch ∨ c.form? = some .lookupSwitch := by
  rw [(mem_instructions hc).1] at hs ⊢
  generalize c.bci = bci at hs ⊢
  unfold Cursor.switch? SwitchTable.at? at hs
  simp only [Option.bind_eq_bind, Option.bind_eq_some_iff] at hs
  obtain ⟨op, hop, form, hform, hs⟩ := hs
  have hcode : (Cursor.seek code bci).code = code := rfl
  rw [hcode] at hop
  have hopcode (hne : form ≠ .wide) : (Cursor.seek code bci).form? = some form := by
    have hwide : ((code[bci]?.bind form?) == some .wide) = false := by
      rw [show code[bci]? = some op from hop, Option.bind_some, hform]
      simpa using hne
    unfold Cursor.form? Cursor.seek
    simp only [hwide, Bool.false_eq_true, if_false]
    rw [show code[bci]? = some op from hop, Option.bind_some, hform]
  split at hs
  · exact .inl (hopcode nofun)
  · exact .inr (hopcode nofun)
  · cases hs

/-- An instruction with a target closes its block, and control may go to the target. -/
theorem mem_ways_of_mem_targets {t : Int} (hc : c ∈ instructions code) (ht : t ∈ c.targets) :
    c.form?.any Form.isBlockEnd ∧ t.toNat ∈ c.ways := by
  have hswitch (s : SwitchTable) (hs : c.switch? = some s) (ht : t ∈ s.default :: s.cases.map (·.2)) :
      c.form?.any Form.isBlockEnd ∧ t.toNat ∈ c.ways := by
    have hways : c.form?.any Form.isBlockEnd ∧ c.ways = s.ways := by
      rcases form?_of_switch? hc hs with hform | hform <;> simp [Cursor.ways, hform, hs, Form.isBlockEnd]
    refine ⟨hways.1, ?_⟩
    rw [hways.2]
    unfold SwitchTable.ways
    dsimp only
    rcases List.mem_cons.1 ht with rfl | ht
    · split
      · assumption
      · exact List.mem_append_right _ (List.mem_singleton.2 rfl)
    · obtain ⟨row, hrow, rfl⟩ := List.mem_map.1 ht
      have hmem : row.2.toNat ∈ (s.cases.map fun row => row.2.toNat).toFinset.sort (· ≤ ·) := by
        rw [Finset.mem_sort, List.mem_toFinset]
        exact List.mem_map_of_mem hrow
      split
      · exact hmem
      · exact List.mem_append_left _ hmem
  unfold Cursor.targets at ht
  split at ht
  · rename_i hform
    obtain rfl := List.mem_singleton.1 ht
    simp [Cursor.ways, hform, Form.isBlockEnd]
  · rename_i hform
    obtain rfl := List.mem_singleton.1 ht
    simp [Cursor.ways, hform, Form.isBlockEnd]
  · rename_i hform
    obtain rfl := List.mem_singleton.1 ht
    simp [Cursor.ways, hform, Form.isBlockEnd]
  · rename_i hform
    obtain rfl := List.mem_singleton.1 ht
    simp [Cursor.ways, hform, Form.isBlockEnd]
  · split at ht
    · rename_i s hs
      exact hswitch s hs ht
    · cases ht

end Bytecode

namespace BlockMap

variable {m : Method} {options : Options} {map : BlockMap} {d : Discovery} {n : Nat}

/-- The byte at a bci is one of a block of instructions. -/
structure Spans (map : BlockMap) (b : BlockId) (bci : Nat) : Prop where
  range : b.index < map.blocks.size
  kind : (map.block b).kind = .bytecodes
  start : (map.block b).start ≤ bci
  stop : bci ≤ (map.block b).stop

/-- The instruction is the last one of a block. -/
structure IsLast (map : BlockMap) (m : Method) (b : BlockId) (c : Cursor) : Prop where
  mem : c ∈ instructions m.code
  spans : map.Spans b c.bci
  last : ∀ c' ∈ instructions m.code, map.Spans b c'.bci → c'.bci ≤ c.bci

/-- What a map says about the code of a method. -/
structure IsFlowOf (map : BlockMap) (m : Method) (options : Options) : Prop where
  /-- Each instruction lies in one block. -/
  place : ∀ c ∈ instructions m.code, ∃ id, map.at? c.bci = some id ∧ ∀ b, map.Spans b c.bci ↔ b = id
  target : ∀ c ∈ instructions m.code, ∀ t ∈ c.targets, ∃ (k : Nat) (id : BlockId), t = k ∧
    Starts map.blocks map.blockAt k id
  handler : ∀ row ∈ m.handlers, ∃ id, Starts map.blocks map.blockAt row.entry id
  after : ∀ c ∈ instructions m.code, m.ClosesBlock options c → c.next < m.code.size →
    ∃ id, Starts map.blocks map.blockAt c.next id
  /-- Only the last instruction of a block closes it. -/
  last : ∀ c ∈ instructions m.code, m.ClosesBlock options c → ∀ b, map.Spans b c.bci → map.IsLast m b c
  /-- A block leads where its last instruction leads. -/
  successors : ∀ b, b.index < map.blocks.size → (map.block b).kind = .bytecodes →
    ∃ c, map.IsLast m b c ∧ Follows m options map.blocks map.blockAt c (map.block b).successors

end BlockMap

namespace Flow.Discovery.Laid

variable {m : Method} {options : Options} {map : BlockMap} {d : Discovery} {n : Nat} {c : Cursor}
  {id : BlockId}

section

variable (h : Laid m options n d) (hc : c ∈ instructions m.code)

include h hc

/-- A block with an instruction that closes it ends with that instruction. -/
theorem stop_lt (hclose : m.ClosesBlock options c)
    (hid : IsCode d id) (hstart : (d.blocks.block id).start ≤ c.bci) :
    (d.blocks.block id).stop < c.next := by
  by_contra hlt
  exact h.mapped.inner hid hc hstart (by omega) hclose

theorem exists_place :
    ∃ id, d.blockAt[c.bci]? = some (some id) ∧ ∀ b, (IsCode d b ∧ (d.blocks.block b).start ≤ c.bci ∧
      c.bci ≤ (d.blocks.block b).stop) ↔ b = id := by
  obtain ⟨id, hid⟩ := h.mapped.seen c hc (h.all c hc)
  refine ⟨id, hid, fun b => ⟨fun ⟨hb, hfrom, hto⟩ => ?_, ?_⟩⟩
  · have hplace := (h.mapped.lies hb).range c hc hfrom hto
    rw [hid] at hplace
    exact (Option.some.inj (Option.some.inj hplace)).symm
  · rintro rfl
    exact h.mapped.within c.bci b hid

/-- Where control comes in, a block starts. -/
theorem exists_starts_target {t : Int} (ht : t ∈ c.targets) : ∃ id, Starts d.blocks d.blockAt t.toNat id := by
  obtain ⟨hend, hways⟩ := mem_ways_of_mem_targets hc ht
  obtain ⟨id, hid⟩ := h.mapped.seen c hc (h.all c hc)
  obtain ⟨hcode, hfrom, -⟩ := h.mapped.within c.bci id hid
  have hclose : m.ClosesBlock options c := by
    refine .inl ?_
    cases hform : c.form? with
    | none => simp [hform] at hend
    | some form => simp_all
  obtain ⟨ids, chain, hids, -⟩ := ((h.mapped.lies hcode).flow c hc hid
    (h.stop_lt hc hclose hcode hfrom) (h.all c hc) (.inl rfl)).follows
  obtain ⟨i, hi, hget⟩ := List.mem_iff_getElem.1 hways
  have hstarts := (List.forall₂_iff_get.1 hids).2 i hi (hids.length_eq ▸ hi)
  rw [List.get_eq_getElem, hget] at hstarts
  exact ⟨_, hstarts⟩

end

theorem exists_starts_next (h : Laid m options n d) (hcode : Decodes m.code)
    (hc : c ∈ instructions m.code) (hclose : m.ClosesBlock options c) (hnext : c.next < m.code.size) :
    ∃ id, Starts d.blocks d.blockAt c.next id := by
  obtain ⟨b, hb, hbc⟩ := hcode.isStart_next hc (by omega)
  obtain ⟨id, hid⟩ := h.mapped.seen b hb (h.all b hb)
  obtain ⟨hidcode, hfrom, hto⟩ := h.mapped.within b.bci id hid
  refine ⟨id, hbc ▸ hid, hidcode.1, hidcode.2, ?_⟩
  obtain ⟨k, hk, hak⟩ := (h.mapped.lies hidcode).start
  obtain ⟨a, ha, rfl⟩ := hcode.isStart_of_site hk
  have hstart := hak.start
  by_contra hne
  -- then the block would go on from the instruction that closes it
  have hac : a.bci ≤ c.bci := by
    by_contra hlt
    have := next_le hc ha (by omega)
    omega
  have := h.stop_lt hc hclose hidcode (by omega)
  omega

theorem exists_last (h : Laid m options n d) (hcode : Decodes m.code) (hid : IsCode d id) :
    ∃ c ∈ instructions m.code, (d.blocks.block id).start ≤ c.bci ∧ c.bci ≤ (d.blocks.block id).stop ∧
      (d.blocks.block id).stop < c.next ∧
      Follows m options d.blocks d.blockAt c (d.blocks.block id).successors := by
  have hlies := h.mapped.lies hid
  obtain ⟨k, hk, hak⟩ := hlies.start
  obtain ⟨a, ha, rfl⟩ := hcode.isStart_of_site hk
  obtain ⟨-, hfrom, hto⟩ := h.mapped.within a.bci id hak.place
  have hstart := hak.start
  have hall := h.all a ha
  obtain ⟨c, hc, hac, hcs, hlast⟩ := h.mapped.exists_last h.bound ha hto (hlies.behind (by omega))
  refine ⟨c, hc, by omega, hcs, hlast, ?_⟩
  exact (hlies.flow c hc (hlies.range c hc (by omega) hcs) hlast (h.all c hc) (.inl rfl)).follows

end Flow.Discovery.Laid

namespace BlockMap

variable {m : Method} {options : Options} {map : BlockMap}

/-- The map of a method without subroutines is its control flow. -/
theorem isFlowOf_of_create (hcode : Decodes m.code)
    (hplain : ∀ c ∈ instructions m.code, c.form?.any Form.isSubroutine = false)
    (hmap : create m options = .ok map) : map.IsFlowOf m options := by
  obtain ⟨d, first, blocks, s, completed, hstaged⟩ := (ends_create_stages m options).of_ok hmap
  have hread := (Discovery.ends_discover_read m options).of_ok hstaged.discover
  obtain ⟨n, h⟩ := hread.exists_laid hcode
  have hblocks : d.blocks = blocks := by
    have hinlined := hstaged.inlined
    unfold BlockMap.inlined at hinlined
    rw [h.mapped.plain hplain, if_neg Bool.false_ne_true] at hinlined
    exact Except.ok.inj hinlined
  subst hblocks
  have hat : map.blockAt = d.blockAt := by rw [hstaged.result]
  have halike := hstaged.alike
  have hsame (b : BlockId) : (map.block b).kind = (d.blocks.block b).kind ∧
      (map.block b).start = (d.blocks.block b).start ∧ (map.block b).stop = (d.blocks.block b).stop ∧
      (map.block b).successors = (d.blocks.block b).successors := by
    have hb := halike.block b
    simp only [Block.skeleton, Block.mk.injEq] at hb
    tauto
  have hspans (b : BlockId) (bci : Nat) : map.Spans b bci ↔ Discovery.IsCode d b ∧
      (d.blocks.block b).start ≤ bci ∧ bci ≤ (d.blocks.block b).stop := by
    obtain ⟨hkind, hstart, hstop, -⟩ := hsame b
    refine ⟨fun hb => ⟨⟨halike.size ▸ hb.range, hkind ▸ hb.kind⟩, hstart ▸ hb.start, hstop ▸ hb.stop⟩,
      fun hb => ⟨halike.size ▸ hb.1.1, hkind ▸ hb.1.2, hstart ▸ hb.2.1, hstop ▸ hb.2.2⟩⟩
  have hrefines : Refines d.blocks d.blockAt map.blocks map.blockAt := by
    refine ⟨halike.size.ge, fun bci id hid => ⟨hat ▸ hid.place, halike.size ▸ hid.range,
      (hsame id).1.trans hid.kind, (hsame id).2.1.trans hid.start⟩, fun id _ _ => ?_⟩
    exact ⟨(hsame id).1, (hsame id).2.2.2⟩
  have hlast (c : Cursor) (hc : c ∈ instructions m.code) (b : BlockId) (hb : map.Spans b c.bci)
      (hstop : (d.blocks.block b).stop < c.next) : map.IsLast m b c := by
    refine ⟨hc, hb, fun c' hc' hb' => ?_⟩
    by_contra hlt
    have hnext := next_le hc hc' (by omega)
    have := ((hspans b c'.bci).1 hb').2.2
    omega
  refine ⟨fun c hc => ?_, fun c hc t ht => ?_, fun row hrow => ?_, fun c hc hclose hnext => ?_,
    fun c hc hclose b hb => ?_, fun b hb hkind => ?_⟩
  · obtain ⟨id, hid, hunique⟩ := h.exists_place hc
    refine ⟨id, by rw [at?, hat, hid]; rfl, fun b => (hspans b c.bci).trans (hunique b)⟩
  · obtain ⟨id, hid⟩ := h.exists_starts_target hc ht
    exact ⟨t.toNat, id, (Int.toNat_of_nonneg (hread.nonneg c hc t ht)).symm, hrefines.starts _ _ hid⟩
  · obtain ⟨id, hid⟩ := h.entered row hrow
    exact ⟨id, hrefines.starts _ _ hid⟩
  · obtain ⟨id, hid⟩ := h.exists_starts_next hcode hc hclose hnext
    exact ⟨id, hrefines.starts _ _ hid⟩
  · obtain ⟨hbcode, hfrom, -⟩ := (hspans b c.bci).1 hb
    exact hlast c hc b hb (h.stop_lt hc hclose hbcode hfrom)
  · have hbcode : Discovery.IsCode d b := ⟨halike.size ▸ hb, (hsame b).1 ▸ hkind⟩
    obtain ⟨c, hc, hfrom, hto, hstop, hfollows⟩ := h.exists_last hcode hbcode
    refine ⟨c, hlast c hc b ((hspans b c.bci).2 ⟨hbcode, hfrom, hto⟩) hstop, ?_⟩
    rw [(hsame b).2.2.2]
    exact hfollows.mono hrefines

theorem isFlowOf_of_create_countdown : ∃ map, create .countdown .standard = .ok map ∧
    map.IsFlowOf .countdown .standard ∧ map.order.length = 3 := by
  obtain ⟨map, hmap, hlength⟩ : ∃ map, create .countdown .standard = .ok map ∧
      decide (map.order.length = 3) = true := exists_ok_of_any (by decide +kernel)
  exact ⟨map, hmap, isFlowOf_of_create (by decide +kernel) (by decide +kernel) hmap,
    of_decide_eq_true hlength⟩

end BlockMap

end SeaOfNodes
