import SeaOfNodes.Bytecode.Check
import SeaOfNodes.Proofs.BitSet
import SeaOfNodes.Proofs.Bytecode.Extent
import SeaOfNodes.Proofs.Outcome

/-!
# Reading code in order

Each instruction takes at least one byte, so that reading from an instruction on gives what is left of
the instructions. Code decodes if its instructions are whole and defined and the last one ends where the
code ends.
-/

namespace SeaOfNodes.Bytecode

variable {code : Array UInt8} {bci n : Nat} {c e : Cursor} {starts : BitSet}

/-- The code is a sequence of whole, defined instructions up to its end. -/
def Decodes (code : Array UInt8) : Prop :=
  (∀ c ∈ instructions code, c.form?.isSome ∧ (length? code c.bci).isSome) ∧
    (instructions code).getLast?.map (·.next) = some code.size

instance : Decidable (Decodes code) := inferInstanceAs (Decidable (_ ∧ _))

/-- An instruction starts at the bci. -/
def IsStart (code : Array UInt8) (bci : Nat) : Prop := ∃ c ∈ instructions code, c.bci = bci

namespace Cursor

theorem lt_next_seek (code : Array UInt8) (bci : Nat) : bci < (seek code bci).next := by
  unfold seek
  dsimp only
  split
  · rename_i h
    have := (length?_bounds h).1
    omega
  · omega

theorem next_seek_le (h : (length? code bci).isSome) : (seek code bci).next ≤ code.size := by
  obtain ⟨n, h⟩ := Option.isSome_iff_exists.1 h
  have := (length?_bounds h).2
  unfold seek
  simpa [h] using this

/-- There is no instruction past the end. -/
theorem lt_size_of_opcode {op : UInt8} (h : (seek code bci).opcode = some op) : bci < code.size := by
  by_contra hsize
  have hnone : code[bci]? = none := Array.getElem?_eq_none (by omega)
  unfold seek at h
  simp [hnone] at h

/-! ### The instructions from a bci on -/

theorem walk_succ_eq : ∀ {n bci : Nat}, code.size - bci ≤ n → walk code (n + 1) bci = walk code n bci := by
  intro n
  induction n with
  | zero =>
    intro bci h
    cases hop : (seek code bci).opcode with
    | none => simp [walk, hop]
    | some op =>
      have := lt_size_of_opcode hop
      omega
  | succ n ih =>
    intro bci h
    have hnext := lt_next_seek code bci
    have hrest := ih (show code.size - (seek code bci).next ≤ n by omega)
    conv => lhs; rw [walk]
    conv => rhs; rw [walk]
    rw [hrest]

/-- More steps than bytes are left find no more instructions. -/
theorem walk_eq_walkFrom (h : code.size - bci ≤ n) : walk code n bci = walkFrom code bci := by
  induction n, h using Nat.le_induction with
  | base => rfl
  | succ n h ih => rw [walk_succ_eq h, ih]

theorem walkFrom_eq_cons {op : UInt8} (h : (seek code bci).opcode = some op) :
    walkFrom code bci = seek code bci :: walkFrom code (seek code bci).next := by
  have hlt := lt_size_of_opcode h
  have hnext := lt_next_seek code bci
  rw [← walk_eq_walkFrom (show code.size - bci ≤ code.size - bci - 1 + 1 by omega), walk, h]
  dsimp only
  rw [walk_eq_walkFrom (by omega)]

theorem walkFrom_of_eq_cons {rest : List Cursor} (h : walkFrom code bci = c :: rest) :
    c.bci = bci ∧ rest = walkFrom code c.next := by
  cases hop : (seek code bci).opcode with
  | none =>
    unfold walkFrom at h
    cases hn : code.size - bci <;> rw [hn] at h <;> simp [walk, hop] at h
  | some op =>
    rw [walkFrom_eq_cons hop] at h
    obtain ⟨rfl, rfl⟩ := List.cons.inj h
    exact ⟨rfl, rfl⟩

/-- What is read from an instruction on is what is left from there. -/
theorem walk_suffix : ∀ {n bci : Nat}, code.size - bci ≤ n → ∀ c ∈ walk code n bci,
    c = seek code c.bci ∧ c.opcode.isSome ∧ walkFrom code c.bci <:+ walk code n bci := by
  intro n
  induction n with
  | zero => exact fun _ _ h => nomatch h
  | succ n ih =>
    intro bci hn c hc
    have hnext := lt_next_seek code bci
    cases hop : (seek code bci).opcode with
    | none =>
      rw [walk, hop] at hc
      cases hc
    | some op =>
      have hwalk : walk code (n + 1) bci = seek code bci :: walk code n (seek code bci).next := by
        rw [walk, hop]
      rw [hwalk] at hc ⊢
      rcases List.mem_cons.1 hc with rfl | hc
      · refine ⟨rfl, by rw [hop]; rfl, ?_⟩
        rw [← hwalk, walk_eq_walkFrom hn]
        exact List.suffix_refl _
      · obtain ⟨heq, hsome, hsuffix⟩ := ih (by omega) c hc
        exact ⟨heq, hsome, hsuffix.trans (List.suffix_cons ..)⟩

end Cursor

section

open Cursor

theorem mem_instructions (h : c ∈ instructions code) :
    c = seek code c.bci ∧ c.opcode.isSome ∧ walkFrom code c.bci <:+ instructions code :=
  walk_suffix le_rfl c h

/-- Reading from the start of an instruction on starts there. -/
theorem walkFrom_eq_cons_of_mem (h : c ∈ instructions code) :
    walkFrom code c.bci = c :: walkFrom code c.next := by
  obtain ⟨hseek, hsome, -⟩ := mem_instructions h
  obtain ⟨op, hop⟩ := Option.isSome_iff_exists.1 hsome
  rw [hseek] at hop
  rw [walkFrom_eq_cons hop, ← hseek]

theorem lt_size_of_isStart (h : IsStart code bci) : bci < code.size := by
  obtain ⟨c, hc, rfl⟩ := h
  obtain ⟨hseek, hsome, -⟩ := mem_instructions hc
  obtain ⟨op, hop⟩ := Option.isSome_iff_exists.1 hsome
  rw [hseek] at hop
  exact lt_size_of_opcode hop

/-- In code that decodes, an instruction that does not end with the code is followed by another. -/
theorem Decodes.isStart_next (h : Decodes code) (hc : c ∈ instructions code)
    (hnext : c.next ≠ code.size) : IsStart code c.next := by
  obtain ⟨last, hlast, hsize⟩ := Option.map_eq_some_iff.1 h.2
  have hsuffix := (mem_instructions hc).2.2
  rw [walkFrom_eq_cons_of_mem hc] at hsuffix
  cases hrest : walkFrom code c.next with
  | nil =>
    -- then the instruction is the last one
    rw [hrest] at hsuffix
    obtain ⟨before, hbefore⟩ := hsuffix
    rw [← hbefore, List.getLast?_append_of_ne_nil _ (by simp)] at hlast
    cases hlast
    exact absurd hsize hnext
  | cons c' rest => exact ⟨c', hsuffix.subset (by simp [hrest]), (walkFrom_of_eq_cons hrest).1⟩

/-- Code that decodes can be read from the start of an instruction to its end. -/
theorem Decodes.walkFrom_next (h : Decodes code) (hbci : IsStart code bci) :
    ∃ c ∈ walkFrom code bci, c.next = code.size := by
  obtain ⟨last, hlast, hsize⟩ := Option.map_eq_some_iff.1 h.2
  obtain ⟨c, hc, rfl⟩ := hbci
  obtain ⟨before, hbefore⟩ := (mem_instructions hc).2.2
  refine ⟨last, ?_, hsize⟩
  rw [← hbefore, List.getLast?_append_of_ne_nil _ (by simp [walkFrom_eq_cons_of_mem hc])] at hlast
  exact List.mem_of_getLast? hlast

end

/-! ### The check -/

theorem contains_foldl_insert (l : List Nat) (s : BitSet) (i : Nat) :
    (l.foldl BitSet.insert s).contains i ↔ i ∈ l ∨ s.contains i := by
  induction l generalizing s with
  | nil => simp
  | cons x l ih =>
    rw [List.foldl_cons, ih, BitSet.contains_insert, List.mem_cons]
    tauto

/-- A check of each element succeeds for each, or fails for one of them. -/
theorem ends_forM {ε α : Type} {check : α → Except ε Unit} (l : List α) :
    Ends (l.forM check) (fun _ => ∀ x ∈ l, check x = .ok ()) fun e => ∃ x ∈ l, check x = .error e := by
  induction l with
  | nil => exact nofun
  | cons x l ih =>
    show Ends (check x >>= fun _ => l.forM check) _ _
    cases hx : check x with
    | error e => exact ⟨x, List.mem_cons_self .., hx⟩
    | ok u =>
      refine Ends.mono ih (fun _ hl => ?_) fun e he => ?_
      · rintro y (_ | ⟨_, hy⟩)
        · exact hx
        · exact hl y hy
      · obtain ⟨y, hy, he⟩ := he
        exact ⟨y, List.mem_cons_of_mem _ hy, he⟩

theorem forM_eq_ok_iff {ε α : Type} {check : α → Except ε Unit} {l : List α} :
    l.forM check = .ok () ↔ ∀ x ∈ l, check x = .ok () := by
  refine ⟨(ends_forM l).of_ok, fun h => ?_⟩
  cases hr : l.forM check with
  | ok => rfl
  | error e =>
    obtain ⟨x, hx, he⟩ := (ends_forM l).of_error hr
    rw [h x hx] at he
    cases he

theorem checkInstruction_eq_ok_iff :
    checkInstruction c = .ok () ↔ ∃ form, c.form? = some form ∧ (length? c.code c.bci).isSome ∧
      (c.next = c.code.size → form.endsControlFlow) := by
  unfold checkInstruction
  cases c.form? with
  | none => simp
  | some form =>
    cases length? c.code c.bci with
    | none => simp
    | some n => cases h : form.endsControlFlow <;> simp [h]

theorem checkTarget_eq_ok_iff {size : Nat} {target : Int} :
    checkTarget starts size bci target = .ok () ↔
      0 ≤ target ∧ target < size ∧ starts.contains target.toNat := by
  unfold checkTarget
  split <;> simp_all

/-- The starts of the instructions that a walk reads. -/
def startsOf (code : Array UInt8) : BitSet :=
  ((instructions code).map (·.bci)).foldl BitSet.insert (BitSet.withCapacity code.size)

theorem contains_startsOf : (startsOf code).contains bci ↔ IsStart code bci := by
  rw [startsOf, contains_foldl_insert]
  simp [IsStart]

theorem check_eq_ok_iff : check code = .ok starts ↔ code ≠ #[] ∧
    (∀ c ∈ instructions code, checkInstruction c = .ok ()) ∧
    (∀ c ∈ instructions code, ∀ t ∈ c.targets, checkTarget (startsOf code) code.size c.bci t = .ok ()) ∧
    starts = startsOf code := by
  have hcheck : check code = if code.isEmpty then .error (.malformed .emptyCode) else
      (instructions code).forM checkInstruction >>= fun _ =>
        ((instructions code).forM fun c => c.targets.forM (checkTarget (startsOf code) code.size c.bci)) >>=
          fun _ => .ok (startsOf code) := by
    unfold check
    split <;> rfl
  have hbind {r : Except Bailout Unit} {k : Unit → Except Bailout BitSet} :
      (r >>= k) = .ok starts ↔ r = .ok () ∧ k () = .ok starts := by
    cases r <;> simp [bind, Except.bind]
  rw [hcheck]
  split
  · simp_all
  · rename_i hempty
    have hne : code ≠ #[] := by simpa using hempty
    rw [hbind, hbind]
    simp only [forM_eq_ok_iff, Except.ok.injEq]
    exact ⟨fun ⟨hwhole, htargets, hstarts⟩ => ⟨hne, hwhole, htargets, hstarts.symm⟩,
      fun ⟨_, hwhole, htargets, hstarts⟩ => ⟨hwhole, htargets, hstarts.symm⟩⟩

/-- What a successful check says. -/
structure Checked (code : Array UInt8) (starts : BitSet) : Prop where
  starts : ∀ bci, starts.contains bci = true → IsStart code bci
  targets : ∀ c ∈ instructions code, ∀ t ∈ c.targets, IsStart code t.toNat
  next : ∀ c ∈ instructions code, ∀ form, c.form? = some form → form.endsControlFlow = false →
    c.next ≠ code.size
  nonneg : ∀ c ∈ instructions code, ∀ t ∈ c.targets, 0 ≤ t
  whole : ∀ c ∈ instructions code, c.form?.isSome ∧ (length? code c.bci).isSome

theorem checked_of_check (h : check code = .ok starts) : Checked code starts := by
  obtain ⟨-, hwhole, htargets, rfl⟩ := check_eq_ok_iff.1 h
  have htarget (c : Cursor) (hc : c ∈ instructions code) (t : Int) (ht : t ∈ c.targets) :=
    checkTarget_eq_ok_iff.1 (htargets c hc t ht)
  have hcode (c : Cursor) (hc : c ∈ instructions code) : c.code = code := by
    rw [(mem_instructions hc).1]
    rfl
  refine ⟨fun bci => contains_startsOf.1, fun c hc t ht => contains_startsOf.1 (htarget c hc t ht).2.2,
    fun c hc form hform hflow hnext => ?_, fun c hc t ht => (htarget c hc t ht).1, fun c hc => ?_⟩
  all_goals
    obtain ⟨form', hform', hlength, hends⟩ := checkInstruction_eq_ok_iff.1 (hwhole c hc)
    rw [hcode c hc] at hlength hends
  · obtain rfl := Option.mem_unique hform hform'
    simp [hends hnext] at hflow
  · exact ⟨by simp [hform'], hlength⟩

theorem checkInstruction_ne : checkInstruction c ≠ .error .nonReducibleLoop := by
  unfold checkInstruction
  split
  · split <;> nofun
  · nofun

theorem checkTarget_ne {size : Nat} {target : Int} :
    checkTarget starts size bci target ≠ .error .nonReducibleLoop := by
  unfold checkTarget
  split <;> nofun

theorem ends_check (code : Array UInt8) : Ends (check code) (Checked code) (· ≠ .nonReducibleLoop) := by
  have hne : Ends (check code) (fun _ => True) (· ≠ .nonReducibleLoop) := by
    unfold check
    dsimp only
    split
    · nofun
    refine ends_bind.2 ((ends_forM _).mono (fun _ _ => ?_) fun e ⟨c, _, hc⟩ he => ?_)
    · refine ends_bind.2 ((ends_forM _).mono (fun _ _ => trivial) fun e ⟨c, _, hc⟩ he => ?_)
      obtain ⟨t, -, ht⟩ := (ends_forM c.targets).of_error hc
      exact checkTarget_ne (he ▸ ht)
    · exact checkInstruction_ne (he ▸ hc)
  cases h : check code with
  | ok starts => exact checked_of_check h
  | error e => exact hne.of_error h

end SeaOfNodes.Bytecode
