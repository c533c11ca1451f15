import Mathlib.Data.Nat.Bitwise
import SeaOfNodes.Flow.Scope

/-!
# The addresses of a scope

A scope is a stack of at most four return addresses: entering a subroutine puts its return address on
top, and leaving it takes the top away.
-/

namespace SeaOfNodes.Scope

variable {s t : Scope} {n bci : Nat} {stack : List Nat}

theorem isEmpty_iff : s.isEmpty ↔ s = .empty := by
  cases s
  simp [isEmpty, empty]

theorem toNat_pop (s : Scope) : s.pop.bits.toNat = s.bits.toNat / 65536 := by
  simp [pop, UInt64.toNat_shiftRight, Nat.shiftRight_eq_div_pow]

theorem returnAddress_eq (s : Scope) : s.returnAddress = s.bits.toNat % 65536 := by
  have hmask : (0xffff : UInt64).toNat = 2 ^ 16 - 1 := rfl
  rw [returnAddress, UInt64.toNat_and, hmask, Nat.and_two_pow_sub_one_eq_mod]

/-- More than the addresses that there are do not show. -/
theorem addressesUpTo_succ (h : s.bits.toNat < 65536 ^ n) :
    addressesUpTo (n + 1) s = addressesUpTo n s := by
  induction n generalizing s with
  | zero =>
    have hzero : s.bits = 0 := UInt64.toNat_inj.1 (by simpa using h)
    simp [addressesUpTo, isEmpty, hzero]
  | succ n ih =>
    have hpop : s.pop.bits.toNat < 65536 ^ n := by
      rw [toNat_pop, Nat.div_lt_iff_lt_mul (by decide)]
      exact h
    rw [addressesUpTo, ih hpop]
    rfl

/-- The innermost address, and those that are left after it. -/
theorem addresses_eq_cons (h : s.isEmpty = false) :
    s.addresses = s.returnAddress :: s.pop.addresses := by
  have hpop : s.pop.bits.toNat < 65536 ^ 3 := by
    have := s.bits.toNat_lt
    rw [toNat_pop]
    omega
  rw [addresses, addresses, addressesUpTo, h, if_neg Bool.false_ne_true, addressesUpTo_succ hpop]

theorem addresses_eq_nil_iff : s.addresses = [] ↔ s = .empty := by
  refine ⟨fun h => isEmpty_iff.1 ?_, fun h => h ▸ rfl⟩
  by_contra hs
  rw [addresses_eq_cons (Bool.eq_false_iff.2 hs)] at h
  cases h

theorem addresses_pop (s : Scope) : s.pop.addresses = s.addresses.tail := by
  by_cases hs : s.isEmpty
  · rw [isEmpty_iff.1 hs]
    rfl
  · rw [addresses_eq_cons (Bool.eq_false_iff.2 hs), List.tail_cons]

theorem length_addressesUpTo_le (n : Nat) (s : Scope) : (addressesUpTo n s).length ≤ n := by
  induction n generalizing s with
  | zero => exact Nat.le_refl _
  | succ n ih =>
    rw [addressesUpTo]
    split
    · exact Nat.zero_le _
    · exact Nat.succ_le_succ (ih _)

theorem length_addresses_le (s : Scope) : s.addresses.length ≤ 4 := length_addressesUpTo_le 4 s

/-- A word whose upper quarter is clear. -/
theorem and_eq_zero_iff {w : UInt64} : w &&& 0xffff000000000000 = 0 ↔ w.toNat < 2 ^ 48 := by
  have hhigh : (w.toNat &&& 0xffff000000000000) / 2 ^ 48 = w.toNat / 2 ^ 48 % 2 ^ 16 := by
    rw [Nat.and_div_two_pow]
    exact Nat.and_two_pow_sub_one_eq_mod _ 16
  have hlow : (w.toNat &&& 0xffff000000000000) % 2 ^ 48 = 0 := by
    rw [Nat.and_mod_two_pow]
    exact Nat.and_zero _
  have hlt := w.toNat_lt
  rw [← UInt64.toNat_inj, UInt64.toNat_and]
  show w.toNat &&& 0xffff000000000000 = 0 ↔ _
  omega

theorem toNat_push (h : s.push bci = .ok t) : t.bits.toNat = 65536 * s.bits.toNat + bci % 65536 := by
  unfold push at h
  split at h
  · cases h
  · rename_i hmask
    cases h
    have hs := and_eq_zero_iff.1 (not_not.1 hmask)
    have hmod : (bci.toUInt64 &&& 0xffff).toNat = bci % 65536 := by
      have hword : (0xffff : UInt64).toNat = 2 ^ 16 - 1 := rfl
      have htoNat : bci.toUInt64.toNat = bci % 2 ^ 64 := rfl
      rw [UInt64.toNat_and, hword, Nat.and_two_pow_sub_one_eq_mod, htoNat]
      exact Nat.mod_mod_of_dvd _ (by decide)
    have hshift : (s.bits <<< 16).toNat = s.bits.toNat <<< 16 := by
      rw [UInt64.toNat_shiftLeft, Nat.mod_eq_of_lt]
      · rfl
      · simp [Nat.shiftLeft_eq]
        omega
    show (s.bits <<< 16 ||| _).toNat = _
    rw [UInt64.toNat_or, hmod, hshift, ← Nat.shiftLeft_add_eq_or_of_lt (Nat.mod_lt _ (by decide)),
      Nat.shiftLeft_eq]
    omega

theorem toNat_eq_zero_iff : s.bits.toNat = 0 ↔ s = .empty := by
  rw [← isEmpty_iff, isEmpty, beq_iff_eq, ← UInt64.toNat_inj]
  rfl

/-- A subroutine may be entered unnoticed, but only from outside of subroutines. -/
theorem eq_empty_of_push (h : s.push bci = .ok .empty) : s = .empty := by
  have hbits := toNat_push h
  have hzero := toNat_eq_zero_iff.2 (rfl : Scope.empty = .empty)
  exact toNat_eq_zero_iff.1 (by omega)

theorem pop_push (h : s.push bci = .ok t) : t.pop = s := by
  have hbits := toNat_push h
  have hpop : t.pop.bits = s.bits := UInt64.toNat_inj.1 (by rw [toNat_pop]; omega)
  exact congrArg mk hpop

/-- Entering a subroutine puts its return address on top. -/
theorem addresses_push (h : s.push bci = .ok t) (hne : t ≠ .empty) :
    t.addresses = bci % 65536 :: s.addresses := by
  have hbits := toNat_push h
  rw [addresses_eq_cons (Bool.eq_false_iff.2 fun he => hne (isEmpty_iff.1 he)), pop_push h, returnAddress_eq, hbits]
  congr 1
  omega

/-! ### The stack of a scope -/

/-- The scope holds a stack of return addresses: it is made from the empty one by entering subroutines that
return to addresses other than zero and by leaving the innermost ones. -/
inductive Stacks : Scope → List Nat → Prop
  | empty : Stacks .empty []
  | push {s t : Scope} {stack : List Nat} {bci : Nat} (h : Stacks s stack) (hbci : 1 ≤ bci ∧ bci ≤ 65535)
      (ht : s.push bci = .ok t) : Stacks t (bci :: stack)
  | pop {s : Scope} {stack : List Nat} (h : Stacks s stack) : Stacks s.pop stack.tail

theorem Stacks.addresses_eq (h : Stacks s stack) : s.addresses = stack ∧ ∀ x ∈ stack, x ≠ 0 := by
  induction h with
  | empty => exact ⟨rfl, nofun⟩
  | @push s t stack bci _ hbci ht ih =>
    have hbits := toNat_push ht
    have hne : t ≠ .empty := fun e => by
      have := toNat_eq_zero_iff.2 e
      omega
    rw [addresses_push ht hne, Nat.mod_eq_of_lt (by omega), ih.1]
    exact ⟨rfl, List.forall_mem_cons.2 ⟨by omega, ih.2⟩⟩
  | pop _ ih => exact ⟨by rw [addresses_pop, ih.1], fun x hx => ih.2 x (List.mem_of_mem_tail hx)⟩

theorem returnAddress_eq_head (s : Scope) : s.returnAddress = s.addresses.head?.getD 0 := by
  by_cases hs : s.isEmpty
  · rw [isEmpty_iff.1 hs]
    rfl
  · rw [addresses_eq_cons (Bool.eq_false_iff.2 hs)]
    rfl

/-- There are four addresses if and only if the upper quarter of the word is in use. -/
theorem length_addresses_eq_four_iff : s.addresses.length = 4 ↔ 2 ^ 48 ≤ s.bits.toNat := by
  constructor
  · intro h
    by_contra hsmall
    have hle := length_addressesUpTo_le 3 s
    rw [← addressesUpTo_succ (by omega)] at hle
    exact absurd (h ▸ hle) (by decide)
  · intro h
    have hne {u : Scope} (hu : u.bits.toNat ≠ 0) : u.isEmpty = false :=
      Bool.eq_false_iff.2 fun he => hu (toNat_eq_zero_iff.2 (isEmpty_iff.1 he))
    have hle := length_addresses_le s
    rw [addresses_eq_cons (hne (by omega)), addresses_eq_cons (hne (by rw [toNat_pop]; omega)),
      addresses_eq_cons (hne (by rw [toNat_pop, toNat_pop]; omega)),
      addresses_eq_cons (hne (by rw [toNat_pop, toNat_pop, toNat_pop]; omega))] at hle ⊢
    simp only [List.length_cons] at hle ⊢
    omega

theorem exists_error_push_iff : (∃ e, s.push bci = .error e) ↔ s.addresses.length = 4 := by
  rw [length_addresses_eq_four_iff, ← Nat.not_lt, ← and_eq_zero_iff]
  unfold push
  split <;> simp_all

/-- The bits of a scope are among those of another if those of its innermost address are, and then those of
the addresses that are left. -/
theorem isWithin_iff (s t : Scope) : s.isWithin t ↔
    s.returnAddress &&& t.returnAddress = s.returnAddress ∧ s.pop.isWithin t.pop := by
  have hbits (s t : Scope) : s.isWithin t ↔ s.bits.toNat &&& t.bits.toNat = s.bits.toNat := by
    rw [isWithin, beq_iff_eq, ← UInt64.toNat_inj, UInt64.toNat_and]
  have hlow : (s.bits.toNat &&& t.bits.toNat) % 65536 = s.bits.toNat % 65536 &&& t.bits.toNat % 65536 :=
    Nat.and_mod_two_pow (n := 16)
  have hhigh : (s.bits.toNat &&& t.bits.toNat) / 65536 = s.bits.toNat / 65536 &&& t.bits.toNat / 65536 :=
    Nat.and_div_two_pow (n := 16)
  rw [hbits, hbits, toNat_pop, toNat_pop, returnAddress_eq, returnAddress_eq, ← hlow, ← hhigh]
  omega

/-- The bits of a scope are among those of another if and only if those of each of its addresses are among
those of the address at the same depth. -/
theorem isWithin_iff_addresses (h : ∀ x ∈ s.addresses, x ≠ 0) : s.isWithin t ↔
    ∀ i x : Nat, s.addresses[i]? = some x → ∃ y, t.addresses[i]? = some y ∧ x &&& y = x := by
  induction hs : s.addresses generalizing s t with
  | nil =>
    rw [addresses_eq_nil_iff.1 hs]
    exact ⟨nofun, fun _ => by simp [isWithin, empty]⟩
  | cons a rest ih =>
    have hne : s.isEmpty = false := Bool.eq_false_iff.2 fun he => by
      rw [isEmpty_iff.1 he] at hs
      cases hs
    obtain ⟨rfl, hrest⟩ := List.cons.inj ((addresses_eq_cons hne).symm.trans hs)
    rw [hs] at h
    rw [isWithin_iff, ih (fun x hx => h x (List.mem_cons_of_mem _ (hrest ▸ hx))) hrest, addresses_pop]
    have hhead : s.returnAddress &&& t.returnAddress = s.returnAddress ↔
        ∃ y, t.addresses[0]? = some y ∧ s.returnAddress &&& y = s.returnAddress := by
      rw [returnAddress_eq_head t, ← List.head?_eq_getElem?]
      cases t.addresses.head? with
      | none => simpa using (h _ List.mem_cons_self).symm
      | some y => simp
    rw [hhead, ← Nat.and_forall_add_one (p := fun i => ∀ x : Nat, (s.returnAddress :: rest)[i]? = some x → _)]
    simp

/-- A scope is a stack of at most four addresses. One is within another if and only if the bits of each of
its addresses are among those of the address at the same depth of the other. -/
theorem stacks_laws (h : Stacks s stack) :
    (∀ bci, (∃ e, s.push bci = .error e) ↔ stack.length = 4) ∧ (∀ bci t, s.push bci = .ok t → t.pop = s) ∧
    s.returnAddress = stack.head?.getD 0 ∧ (s.isEmpty = true ↔ stack = []) ∧
    ∀ t stack', Stacks t stack' → (s.isWithin t = true ↔
      ∀ i x : Nat, stack[i]? = some x → ∃ y, stack'[i]? = some y ∧ x &&& y = x) := by
  obtain ⟨rfl, hpos⟩ := h.addresses_eq
  refine ⟨fun bci => exists_error_push_iff, fun bci t => pop_push, returnAddress_eq_head s, ?_, fun t stack' ht => ?_⟩
  · rw [isEmpty_iff, addresses_eq_nil_iff]
  · obtain ⟨rfl, -⟩ := ht.addresses_eq
    exact isWithin_iff_addresses hpos

theorem stacks_laws_eight : Stacks ⟨8⟩ [8] ∧ (⟨8⟩ : Scope).returnAddress = 8 := by
  have h : Stacks ⟨8⟩ [8] := .push .empty (by decide) rfl
  exact ⟨h, (stacks_laws h).2.2.1⟩

/-- The address 1 is not 3, but its bit is among those of 3. -/
theorem isWithin_one_three : ∃ s t, empty.push 1 = .ok s ∧ empty.push 3 = .ok t ∧ s.isWithin t = true :=
  ⟨⟨1⟩, ⟨3⟩, rfl, rfl, rfl⟩

end SeaOfNodes.Scope
