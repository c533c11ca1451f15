import Mathlib.Tactic
import SeaOfNodes.BitSet

/-!
# Sets of naturals as sets

Membership after each operation, as for any set: words and bits do not show. A set answers every query
as the finite set of its numbers does, however far its words have grown.
-/

namespace SeaOfNodes.BitSet

variable {s : BitSet} {i j : Nat}

theorem word_mk (words : Array UInt64) (i : Nat) : (⟨words⟩ : BitSet).word i = (words[i]?).getD 0 := by
  rw [word, Array.getD_eq_getD_getElem?]

theorem word_grow (s : BitSet) (n i : Nat) : (s.grow n).word i = s.word i := by
  rw [grow, word_mk, word, Array.getD_eq_getD_getElem?, Array.getElem?_append]
  split
  · rfl
  · rw [Array.getElem?_eq_none (by omega : s.words.size ≤ i), Array.getElem?_replicate]
    split <;> rfl

theorem size_grow (s : BitSet) (n : Nat) : n ≤ (s.grow n).words.size := by
  simp [grow]
  omega

theorem testBit_bit (i j : Nat) (hj : j < 64) : (bit i).toNat.testBit j = decide (i % 64 = j) := by
  have h : (i % 64).toUInt64.toNat = i % 64 := by
    simp
    omega
  rw [bit, UInt64.toNat_shiftLeft, h, Nat.testBit_mod_two_pow]
  simp [hj, Nat.testBit_two_pow, Nat.one_shiftLeft]

theorem word_insert (s : BitSet) (i j : Nat) :
    (s.insert i).word j = if j = i / 64 then s.word j ||| bit i else s.word j := by
  have hlt : i / 64 < (s.grow (i / 64 + 1)).words.size := by
    have := size_grow s (i / 64 + 1)
    omega
  have hw := word_grow s (i / 64 + 1) j
  rw [word, Array.getD_eq_getD_getElem?] at hw
  rw [insert, word_mk, Array.getElem?_modify]
  by_cases h : j = i / 64
  · subst h
    rw [if_pos rfl, if_pos rfl, ← hw]
    obtain ⟨w, hget⟩ : ∃ w, (s.grow (i / 64 + 1)).words[i / 64]? = some w :=
      ⟨_, Array.getElem?_eq_getElem hlt⟩
    simp [hget]
  · rw [if_neg (Ne.symm h), if_neg h, hw]

@[simp] theorem contains_insert : (s.insert i).contains j ↔ j = i ∨ s.contains j := by
  have hj : j % 64 < 64 := Nat.mod_lt _ (by omega)
  rw [contains, word_insert, contains]
  split
  · rename_i h
    rw [UInt64.toNat_or, Nat.testBit_or, testBit_bit i _ hj]
    have : i % 64 = j % 64 ↔ j = i := by omega
    simp [this, or_comm]
  · rename_i h
    have : j ≠ i := by rintro rfl; exact h rfl
    simp [this]

theorem word_erase (s : BitSet) (i j : Nat) :
    (s.erase i).word j = if j = i / 64 then s.word j &&& ~~~(bit i) else s.word j := by
  rw [erase, word_mk, Array.getElem?_modify, word, Array.getD_eq_getD_getElem?]
  by_cases h : j = i / 64
  · subst h
    cases s.words[i / 64]? <;> simp
  · rw [if_neg (Ne.symm h), if_neg h]

theorem testBit_not (w : UInt64) {j : Nat} (hj : j < 64) :
    (~~~w).toNat.testBit j = !w.toNat.testBit j := by
  have hsub : UInt64.size - 1 - w.toNat = 2 ^ 64 - (w.toNat + 1) := by
    rw [Nat.sub_sub, Nat.add_comm]
    rfl
  rw [UInt64.toNat_not, hsub, Nat.testBit_two_pow_sub_succ (UInt64.toNat_lt _)]
  simp [hj]

@[simp] theorem contains_erase : (s.erase i).contains j ↔ j ≠ i ∧ s.contains j := by
  have hj : j % 64 < 64 := Nat.mod_lt _ (by omega)
  rw [contains, word_erase, contains]
  split
  · rename_i h
    rw [UInt64.toNat_and, Nat.testBit_and, testBit_not _ hj, testBit_bit i _ hj]
    have : i % 64 = j % 64 ↔ j = i := by omega
    simp [this, and_comm]
  · rename_i h
    have : j ≠ i := by rintro rfl; exact h rfl
    simp [this]

@[simp] theorem contains_empty : empty.contains i = false := by
  simp [contains, empty, word]

@[simp] theorem contains_withCapacity (n : Nat) : (withCapacity n).contains i = false := by
  rw [contains, withCapacity, word_mk, Array.getElem?_replicate]
  split <;> simp

/-! ### Two sets -/

variable {t : BitSet}

theorem word_of_size_le (h : s.words.size ≤ i) : s.word i = 0 := by
  rw [word, Array.getD_eq_getD_getElem?, Array.getElem?_eq_none h]
  rfl

/-- A set whose words are given up to a place, and are zero from there on. -/
theorem word_map_range {n : Nat} {f : Nat → UInt64} (h : n ≤ i → f i = 0) :
    (⟨(Array.range n).map f⟩ : BitSet).word i = f i := by
  rw [word_mk, Array.getElem?_map]
  by_cases hi : i < n
  · simp [hi]
  · simp [hi, h (by omega)]

theorem word_union (s t : BitSet) (i : Nat) : (s.union t).word i = s.word i ||| t.word i := by
  refine word_map_range fun h => ?_
  rw [word_of_size_le (by omega : s.words.size ≤ i), word_of_size_le (by omega : t.words.size ≤ i)]
  rfl

theorem word_diff (s t : BitSet) (i : Nat) : (s.diff t).word i = s.word i &&& ~~~(t.word i) :=
  word_map_range fun h => by rw [word_of_size_le h, UInt64.zero_and]

theorem word_inter (s t : BitSet) (i : Nat) : (s.inter t).word i = s.word i &&& t.word i :=
  word_map_range fun h => by rw [word_of_size_le h, UInt64.zero_and]

@[simp] theorem contains_union : (s.union t).contains i = (s.contains i || t.contains i) := by
  rw [contains, word_union, UInt64.toNat_or, Nat.testBit_or]
  rfl

@[simp] theorem contains_diff : (s.diff t).contains i = (s.contains i && !t.contains i) := by
  rw [contains, word_diff, UInt64.toNat_and, Nat.testBit_and, testBit_not _ (Nat.mod_lt _ (by omega))]
  rfl

@[simp] theorem contains_inter : (s.inter t).contains i = (s.contains i && t.contains i) := by
  rw [contains, word_inter, UInt64.toNat_and, Nat.testBit_and]
  rfl

theorem contains_word (s : BitSet) (i : Nat) {j : Nat} (hj : j < 64) :
    s.contains (64 * i + j) = (s.word i).toNat.testBit j := by
  rw [contains, show (64 * i + j) / 64 = i by omega, show (64 * i + j) % 64 = j by omega]

/-- Sets have the same words when they have the same numbers. -/
theorem word_eq_iff : (∀ i, s.word i = t.word i) ↔ ∀ i, s.contains i = t.contains i := by
  refine ⟨fun h i => by rw [contains, h, contains], fun h i => ?_⟩
  refine UInt64.toNat_inj.1 (Nat.eq_of_testBit_eq fun j => ?_)
  by_cases hj : j < 64
  · rw [← contains_word _ _ hj, ← contains_word _ _ hj, h]
  · have hlt (w : UInt64) : w.toNat.testBit j = false :=
      Nat.testBit_lt_two_pow (w.toNat_lt.trans_le (Nat.pow_le_pow_right (by decide) (by omega)))
    rw [hlt, hlt]

/-- Sets are equal when they have the same numbers. -/
theorem beq_iff : (s == t) ↔ ∀ i, s.contains i = t.contains i := by
  rw [← word_eq_iff]
  show (List.range _).all _ ↔ _
  simp only [List.all_eq_true, List.mem_range, beq_iff_eq]
  refine ⟨fun h i => ?_, fun h i _ => h i⟩
  by_cases hi : i < max s.words.size t.words.size
  · exact h i hi
  · rw [word_of_size_le (by omega : s.words.size ≤ i), word_of_size_le (by omega : t.words.size ≤ i)]

/-! ### Finite sets -/

theorem lt_of_contains (h : s.contains i) : i < 64 * s.words.size := by
  by_contra hi
  rw [contains, word_of_size_le (by omega)] at h
  simp at h

theorem mem_toList : i ∈ s.toList ↔ s.contains i := by
  rw [toList, List.mem_filter, List.mem_range]
  exact ⟨And.right, fun h => ⟨lt_of_contains h, h⟩⟩

theorem pairwise_toList (s : BitSet) : s.toList.Pairwise (· < ·) := List.pairwise_lt_range.filter _

/-- The numbers of a set. -/
def members (s : BitSet) : Finset Nat := s.toList.toFinset

@[simp] theorem mem_members : i ∈ s.members ↔ s.contains i := by
  rw [members, List.mem_toFinset, mem_toList]

/-- What a set has among its first words, word by word. -/
theorem sum_bitCount (s : BitSet) (n : Nat) :
    ((List.range n).map fun i => bitCount (s.word i)).sum = (List.range (64 * n)).countP s.contains := by
  induction n with
  | zero => rfl
  | succ n ih =>
    rw [List.range_succ, List.map_append, List.sum_append, ih, Nat.mul_succ, List.range_add,
      List.countP_append, List.countP_map]
    congr 1
    rw [List.map_singleton, List.sum_singleton, bitCount]
    refine List.countP_congr fun j hj => ?_
    rw [Function.comp_apply, contains_word _ _ (List.mem_range.1 hj)]

theorem count_eq_card (s : BitSet) : s.count = s.members.card := by
  have hwords : s.words.toList.map bitCount =
      (List.range s.words.size).map fun i => bitCount (s.word i) := by
    refine List.ext_getElem (by simp) fun i h _ => ?_
    have hi : i < s.words.size := by simpa using h
    simp [word, hi]
  rw [show s.count = (s.words.toList.map bitCount).sum from rfl, hwords, sum_bitCount,
    List.countP_eq_length_filter, members, List.toFinset_card_of_nodup s.pairwise_toList.nodup, toList]

theorem isEmpty_iff : s.isEmpty ↔ ∀ i, s.contains i = false := by
  have hempty : (∀ i, s.word i = empty.word i) ↔ ∀ i, s.contains i = false := by
    simpa using word_eq_iff (s := s) (t := empty)
  rw [← hempty, isEmpty, Array.all_eq_true]
  constructor
  · intro h i
    by_cases hi : i < s.words.size
    · simpa [word, empty, hi] using h i hi
    · rw [word_of_size_le (by omega)]
      rfl
  · intro h i hi
    simpa [word, empty, hi] using h i

@[simp] theorem contains_clear : s.clear.contains i = false := by
  rw [contains, clear, word_mk, Array.getElem?_map]
  cases s.words[i / 64]? <;> simp

@[simp] theorem contains_insertRange {n : Nat} :
    (s.insertRange n).contains i ↔ i < n ∨ s.contains i = true := by
  rw [insertRange]
  induction n with
  | zero => simp
  | succ n ih =>
    rw [List.range_succ, List.foldl_append, List.foldl_cons, List.foldl_nil, contains_insert, ih,
      Nat.lt_succ_iff_lt_or_eq]
    tauto

/-- A set that is within another adds nothing to it. -/
theorem isSubset_iff : s.isSubset t ↔ ∀ i, s.contains i = true → t.contains i = true := by
  have hwords : s.isSubset t ↔ ∀ i, (t.union s).word i = t.word i := by
    simp only [isSubset, List.all_eq_true, List.mem_range, beq_iff_eq, word_union]
    refine ⟨fun h i => ?_, fun h i _ => h i⟩
    by_cases hi : i < s.words.size
    · exact h i hi
    · rw [word_of_size_le (by omega : s.words.size ≤ i), UInt64.or_zero]
  rw [hwords, word_eq_iff]
  refine forall_congr' fun i => ?_
  rw [contains_union]
  cases t.contains i <;> simp

/-- The queries on a set answer as for the finite set `A`. -/
structure Shows (s : BitSet) (A : Finset Nat) : Prop where
  contains : ∀ i, s.contains i = decide (i ∈ A)
  isEmpty : s.isEmpty = decide (A = ∅)
  count : s.count = A.card
  ascending : s.toList.Pairwise (· < ·)
  complete : ∀ i, i ∈ s.toList ↔ i ∈ A

theorem shows_iff {A : Finset Nat} : s.Shows A ↔ ∀ i, s.contains i ↔ i ∈ A := by
  refine ⟨fun h i => by rw [h.contains, decide_eq_true_eq], fun h => ?_⟩
  obtain rfl : s.members = A := Finset.ext fun i => mem_members.trans (h i)
  refine ⟨fun i => ?_, ?_, count_eq_card s, pairwise_toList s, fun i => ?_⟩
  · rw [Bool.eq_iff_iff, decide_eq_true_eq, mem_members]
  · rw [Bool.eq_iff_iff, isEmpty_iff, decide_eq_true_eq, Finset.eq_empty_iff_forall_notMem]
    simp
  · rw [mem_toList, mem_members]

end SeaOfNodes.BitSet
