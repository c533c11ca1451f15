import Mathlib.Data.List.Basic
import Mathlib.Tactic.Ring
import SeaOfNodes.Flow.Map

/-!
# Blocks and masks of loops

Masks as sets of loops, arenas of blocks as functions, and what is to hold of the control flow of a
method: blocks come before the blocks they lead to, back edges apart, and a loop is entered through its
header only.
-/

namespace SeaOfNodes

open Flow

namespace LoopMask

variable {l l' : Nat} {m m' : LoopMask}

theorem mem_toList : l ∈ toList m ↔ m.toNat.testBit l := by
  unfold toList
  rw [List.mem_filter, List.mem_range, and_iff_right_iff_imp]
  intro h
  by_contra hl
  rw [Nat.testBit_lt_two_pow (Nat.lt_of_lt_of_le m.toNat_lt (Nat.pow_le_pow_right (by decide) (by omega)))] at h
  cases h

theorem lt_of_mem_toList (h : l ∈ toList m) : l < 64 := List.mem_range.1 (List.mem_filter.1 h).1

@[simp] theorem toList_zero : toList 0 = [] := by decide

theorem eq_zero_iff : m = 0 ↔ ∀ l, l ∉ toList m := by
  refine ⟨by rintro rfl; simp, fun h => UInt64.toNat_inj.1 (Nat.eq_of_testBit_eq fun l => ?_)⟩
  have := h l
  rw [mem_toList, Bool.not_eq_true] at this
  simpa using this

@[simp] theorem mem_toList_or : l ∈ toList (m ||| m') ↔ l ∈ toList m ∨ l ∈ toList m' := by
  simp [mem_toList]

theorem mem_toList_single (hl' : l' < 64) : l ∈ toList (single l') ↔ l = l' := by
  have hmod : l' % 2 ^ 64 % 64 = l' := by omega
  rw [mem_toList, single, UInt64.toNat_shiftLeft, Nat.testBit_mod_two_pow, UInt64.toNat_one,
    Nat.toUInt64_eq, UInt64.toNat_ofNat', hmod, Nat.testBit_shiftLeft]
  simp only [Bool.and_eq_true, decide_eq_true_eq, Nat.testBit_one_eq_true_iff_self_eq_zero]
  omega

@[simp] theorem mem_toList_andNot : l ∈ toList (m &&& ~~~m') ↔ l ∈ toList m ∧ l ∉ toList m' := by
  have hnot : UInt64.size - 1 - m'.toNat = 2 ^ 64 - (m'.toNat + 1) := by
    simp only [UInt64.size]
    omega
  refine ⟨fun h => ?_, fun h => ?_⟩
  · rw [mem_toList, UInt64.toNat_and, Nat.testBit_and, UInt64.toNat_not, hnot,
      Nat.testBit_two_pow_sub_succ m'.toNat_lt] at h
    simp only [Bool.and_eq_true, Bool.not_eq_true', decide_eq_true_eq] at h
    rw [mem_toList, mem_toList, h.2.2]
    exact ⟨h.1, nofun⟩
  · have hl := lt_of_mem_toList h.1
    rw [mem_toList, mem_toList] at h
    rw [mem_toList, UInt64.toNat_and, Nat.testBit_and, UInt64.toNat_not, hnot,
      Nat.testBit_two_pow_sub_succ m'.toNat_lt, h.1]
    simpa [hl] using h.2

end LoopMask

/-! ### Blocks -/

namespace Blocks

variable {blocks : Blocks} {id id' : BlockId} {b : Block} {f : Block → Block}

theorem block_push : block (blocks.push b) id = if id = blocks.next then b else blocks.block id := by
  have hnext : id = blocks.next ↔ id.index = blocks.items.size := by
    cases id
    simp [Arena.next]
  unfold block Arena.push Arena.get?
  rw [Array.getElem?_push]
  simp only [hnext]
  split <;> rfl

theorem block_modify : block (blocks.modify id f) id' =
    if id' = id ∧ id.index < blocks.size then f (blocks.block id') else blocks.block id' := by
  unfold block Arena.modify Arena.get?
  rw [Array.getElem?_modify]
  by_cases hid : id' = id
  · subst hid
    rw [if_pos rfl]
    by_cases h : id'.index < blocks.size
    · rw [if_pos ⟨rfl, h⟩, Array.getElem?_eq_getElem h]
      rfl
    · rw [if_neg fun hh => h hh.2, Array.getElem?_eq_none (Nat.le_of_not_lt h)]
      rfl
  · rw [if_neg fun h => hid (by cases id; cases id'; simp_all), if_neg fun h => hid h.1]

theorem modify_eq_self (h : f (blocks.block id) = blocks.block id) : blocks.modify id f = blocks := by
  unfold Arena.modify
  congr 1
  refine Array.ext_getElem? fun i => ?_
  rw [Array.getElem?_modify]
  split
  · rename_i hi
    subst hi
    cases hb : blocks.items[id.index]? with
    | none => rfl
    | some b =>
      unfold Blocks.block Arena.get? at h
      rw [hb] at h
      exact congrArg some h
  · rfl

theorem block_of_le (h : blocks.size ≤ id.index) : blocks.block id = default := by
  unfold block Arena.get?
  rw [Array.getElem?_eq_none h]
  rfl

@[simp] theorem size_push : (blocks.push b).size = blocks.size + 1 := Array.size_push ..

@[simp] theorem size_modify : (blocks.modify id f).size = blocks.size := Array.size_modify

end Blocks

/-! ### Loops seen from outside -/

theorem Flow.mem_outerLoops {b : Block} {l : Nat} (hb : b.isLoopHeader → b.loop < 64) :
    l ∈ LoopMask.toList (outerLoops b) ↔
      l ∈ LoopMask.toList b.loops ∧ (b.isLoopHeader → l ≠ b.loop) := by
  unfold outerLoops
  split
  · rename_i h
    rw [LoopMask.mem_toList_andNot, LoopMask.mem_toList_single (hb h)]
    simp [h]
  · rename_i h
    simp [h]

/-- What holds of the blocks of a method in their order. -/
structure BlockMap.WellOrdered (map : BlockMap) : Prop where
  nodup : map.order.Nodup
  range : ∀ c ∈ map.order, c.index < map.blocks.size
  /-- Control goes onwards, or back to the header of a loop around the block. -/
  edge : ∀ done c rest, map.order = done ++ c :: rest → ∀ t ∈ (map.block c).successors,
    t ∈ rest ∨ t ∈ map.order ∧ (map.block t).isLoopHeader = true ∧
      (map.block t).loop ∈ LoopMask.toList (map.block c).loops
  /-- A loop is entered through its header only. -/
  outer : ∀ c ∈ map.order, ∀ t ∈ (map.block c).successors,
    ∀ l ∈ LoopMask.toList (outerLoops (map.block t)), l ∈ LoopMask.toList (map.block c).loops
  start : ∀ c, map.order.head? = some c → outerLoops (map.block c) = 0
  headers : ∀ l h, map.header? l = some h →
    h.index < map.blocks.size ∧ (map.block h).isLoopHeader = true
  self : ∀ c ∈ map.order, (map.block c).isLoopHeader = true →
    (map.block c).loop < 64 ∧ map.header? (map.block c).loop = some c
  callee : ∀ c ∈ map.order, ∀ t, (map.block c).callee = some t → t ∈ (map.block c).successors
  continuation : ∀ c ∈ map.order, ∀ t, (map.block c).continuation = some t →
    t ∈ (map.block c).successors
  kind : ∀ c ∈ map.order, (map.block c).kind = .bytecodes ∨ (map.block c).isDispatch = true

/-- The loops of a block are its own, or seen from outside. -/
theorem BlockMap.WellOrdered.loop_cases {map : BlockMap} (h : map.WellOrdered) {t : BlockId}
    (ht : t ∈ map.order) {l : Nat} (hl : l ∈ LoopMask.toList (map.block t).loops) :
    map.header? l = some t ∨ l ∈ LoopMask.toList (Flow.outerLoops (map.block t)) := by
  by_cases hself : (map.block t).isLoopHeader ∧ l = (map.block t).loop
  · obtain ⟨hh, rfl⟩ := hself
    exact .inl (h.self t ht hh).2
  · exact .inr ((Flow.mem_outerLoops fun hh => (h.self t ht hh).1).2
      ⟨hl, fun hh hne => hself ⟨hh, hne⟩⟩)

end SeaOfNodes
