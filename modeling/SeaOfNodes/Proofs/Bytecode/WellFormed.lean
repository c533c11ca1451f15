import SeaOfNodes.Proofs.Bytecode.Encoding

/-!
# What the check of code accepts

Code is well formed if it is a sequence of whole instructions, every place where one of them may send
control is the start of one of them, and the last one does not go on behind itself. The check accepts
well-formed code. It also accepts code that ends in a `wide` before nothing: the walk over the
instructions stops there as if the code had ended, and then nothing is asked of the last instruction.
-/

namespace SeaOfNodes.Bytecode

open Cursor

variable {code : Array UInt8} {bci : Nat} {starts : BitSet} {offsets : List Int}

/-- An instruction in its place. -/
structure Placed where
  bci : Nat
  /-- Where the next instruction starts. -/
  next : Nat
  form : Form
  /-- The distances to the places where it may send control. -/
  offsets : List Int

/-- The bytes, of which the first stands at `bci`, are whole instructions one after the other. -/
inductive Listing : Nat → List UInt8 → List Placed → Prop
  | nil (bci : Nat) : Listing bci [] []
  | cons {bci : Nat} {bytes rest : List UInt8} {form : Form} {offsets : List Int} {is : List Placed}
      (head : Encodes bci bytes form offsets) (tail : Listing (bci + bytes.length) rest is) :
      Listing bci (bytes ++ rest) (⟨bci, bci + bytes.length, form, offsets⟩ :: is)

/-- Every place where an instruction may send control is the start of one of the instructions. -/
def Lands (is : List Placed) : Prop :=
  ∀ i ∈ is, ∀ d ∈ i.offsets, ∃ j ∈ is, (j.bci : Int) = i.bci + d

/-- Code is a sequence of whole instructions, jumps only to their starts, and does not run off its end. -/
structure WellFormed (code : Array UInt8) (is : List Placed) : Prop where
  nonempty : code ≠ #[]
  listing : Listing 0 code.toList is
  lands : Lands is
  closed : ∀ i, is.getLast? = some i → i.form.endsControlFlow = true

/-- Code ends in a `wide` before nothing; up to there it is a sequence of whole instructions and jumps
only to their starts. -/
structure CutShort (code : Array UInt8) (is : List Placed) : Prop where
  listing : ∃ body modifier, code.toList = body ++ [modifier] ∧ form? modifier = some .wide ∧
    Listing 0 body is
  lands : Lands is

/-! ### Listings and walks -/

/-- What a walk leaves unread: nothing, or a `wide` before nothing. -/
def Unread (tail : List UInt8) : Prop := tail = [] ∨ ∃ modifier, tail = [modifier] ∧ form? modifier = some .wide

theorem opcode_eq_none (hcode : Unread (code.toList.drop bci)) : (seek code bci).opcode = none := by
  rcases hcode with hcode | ⟨modifier, hcode, hwide⟩
  · have hsize : code[bci]? = none := by
      rw [← Array.getElem?_toList, ← Nat.add_zero bci, ← List.getElem?_drop, hcode]
      rfl
    simp [seek, hsize]
  · have hget : code[bci]? = some modifier := getElem?_of_drop hcode
    have hnext : code[bci + 1]? = none := by
      rw [← Array.getElem?_toList, ← List.getElem?_drop, hcode]
      rfl
    simp [seek, hget, hwide, hnext]

theorem unread_of_opcode_eq_none (h : (seek code bci).opcode = none) : Unread (code.toList.drop bci) := by
  rcases Nat.lt_or_ge bci code.size with hlt | hge
  · have hget : code[bci]? = some (byteAt code bci) := by simp [byteAt, hlt]
    -- there is a byte, so that it is a `wide` and there is none behind it
    by_cases hwide : form? (byteAt code bci) = some .wide
    · have hnone : code[bci + 1]? = none := by simpa [seek, hget, hwide] using h
      have hnil : code.toList.drop (bci + 1) = [] :=
        List.drop_eq_nil_of_le (by simpa using hnone)
      exact .inr ⟨byteAt code bci, by rw [drop_eq_cons hlt, hnil], hwide⟩
    · simp [seek, hget, hwide] at h
  · exact .inl (List.drop_eq_nil_of_le (by simpa using hge))

theorem walkFrom_eq_nil (h : (seek code bci).opcode = none) : walkFrom code bci = [] := by
  unfold walkFrom
  cases code.size - bci <;> simp [walk, h]

theorem Reads.opcode {n : Nat} {form : Form} (h : Reads code bci n form offsets) :
    ∃ op, (seek code bci).opcode = some op := by
  obtain ⟨op, hop, -⟩ := Option.bind_eq_some_iff.1 h.form
  exact ⟨op, hop⟩

theorem Reads.next {n : Nat} {form : Form} (h : Reads code bci n form offsets) :
    (seek code bci).next = bci + n := by
  simp [seek, h.length]

/-- The instructions of a listing are those that a walk reads. -/
theorem Listing.reads {body tail : List UInt8} {is : List Placed} (h : Listing bci body is)
    (hcode : code.toList.drop bci = body ++ tail) (htail : Unread tail) :
    walkFrom code bci = is.map (seek code ·.bci) ∧
      ∀ i ∈ is, (seek code i.bci).next = i.next ∧ Reads code i.bci (i.next - i.bci) i.form i.offsets := by
  induction h with
  | nil bci => exact ⟨walkFrom_eq_nil (opcode_eq_none (by rw [hcode]; exact htail)), by simp⟩
  | @cons bci bytes rest form offsets is head _ ih =>
    rw [List.append_assoc] at hcode
    have hreads := head.reads hcode
    obtain ⟨op, hop⟩ := hreads.opcode
    obtain ⟨hwalk, hrest⟩ := ih (drop_add_of_drop hcode)
    refine ⟨?_, fun i hi => ?_⟩
    · rw [walkFrom_eq_cons hop, hreads.next, hwalk]
      rfl
    · rcases List.mem_cons.1 hi with rfl | hi
      · exact ⟨hreads.next, by simpa using hreads⟩
      · exact hrest i hi

/-- What a walk reads is a listing, if everything it reads is whole. -/
theorem exists_listing (hle : bci ≤ code.size)
    (h : ∀ c ∈ walkFrom code bci, (length? code c.bci).isSome) :
    ∃ body tail is, code.toList.drop bci = body ++ tail ∧ Unread tail ∧ Listing bci body is := by
  -- each instruction takes a byte at least
  induction hm : code.size - bci using Nat.strong_induction_on generalizing bci with
  | _ m ih =>
    cases hop : (seek code bci).opcode with
    | none =>
      exact ⟨[], code.toList.drop bci, [], rfl, unread_of_opcode_eq_none hop, .nil bci⟩
    | some op =>
      rw [walkFrom_eq_cons hop] at h
      obtain ⟨n, hn⟩ : ∃ n, length? code bci = some n :=
        Option.isSome_iff_exists.1 (h _ (List.mem_cons_self ..))
      have hbounds := length?_bounds hn
      have hnext : (seek code bci).next = bci + n := by simp [seek, hn]
      obtain ⟨bytes, form, offsets, rfl, hcode, hencodes⟩ := encoded_of_length? hn
      obtain ⟨body, tail, is, hbody, htail, his⟩ := ih (code.size - (bci + bytes.length)) (by omega)
        (by omega) (fun c hc => h c (List.mem_cons_of_mem _ (hnext ▸ hc))) rfl
      exact ⟨bytes ++ body, tail, _, by rw [hcode, hbody, List.append_assoc], htail, .cons hencodes his⟩

/-! ### Stepping through code -/

theorem advance_iterate_eq {k : Nat} {c : Cursor} (h : (walkFrom code bci)[k]? = some c) :
    advance^[k] (seek code bci) = c := by
  induction k generalizing bci with
  | zero =>
    cases hop : (seek code bci).opcode with
    | none => simp [walkFrom_eq_nil hop] at h
    | some op => simpa [walkFrom_eq_cons hop] using h
  | succ k ih =>
    cases hop : (seek code bci).opcode with
    | none => simp [walkFrom_eq_nil hop] at h
    | some op =>
      rw [walkFrom_eq_cons hop, List.getElem?_cons_succ] at h
      exact ih h

theorem opcode_advance_iterate_length (code : Array UInt8) (bci : Nat) :
    (advance^[(walkFrom code bci).length] (seek code bci)).opcode = none := by
  induction hw : walkFrom code bci generalizing bci with
  | nil =>
    cases hop : (seek code bci).opcode with
    | none => exact hop
    | some op => simp [walkFrom_eq_cons hop] at hw
  | cons c rest ih =>
    cases hop : (seek code bci).opcode with
    | none => simp [walkFrom_eq_nil hop] at hw
    | some op =>
      rw [walkFrom_eq_cons hop] at hw
      exact ih _ (List.cons.inj hw).2

/-! ### Listings and the check -/

section

variable {body tail : List UInt8} {is : List Placed}

theorem Listing.next_le (h : Listing bci body is) : ∀ i ∈ is, i.next ≤ bci + body.length := by
  induction h with
  | nil bci => simp
  | cons head _ ih =>
    intro i hi
    rw [List.length_append]
    rcases List.mem_cons.1 hi with rfl | hi
    · dsimp only
      omega
    · have := ih i hi
      omega

theorem Listing.eq_nil_iff (h : Listing bci body is) : is = [] ↔ body = [] := by
  cases h with
  | nil bci => simp
  | cons head _ => simp [head.ne_nil]

/-- The last instruction, and no other, ends where the bytes end. -/
theorem Listing.next_eq_iff (h : Listing bci body is) :
    (∀ i, is.getLast? = some i → i.next = bci + body.length) ∧
      ∀ i ∈ is, i.next = bci + body.length → is.getLast? = some i := by
  induction h with
  | nil bci => simp
  | @cons bci bytes rest form offsets is head tail ih =>
    rw [List.length_append, ← Nat.add_assoc]
    obtain ⟨ihlast, ihnext⟩ := ih
    cases is with
    | nil =>
      obtain rfl := tail.eq_nil_iff.1 rfl
      simp
    | cons j is =>
      have hpos : 0 < rest.length := List.length_pos_iff.2 fun hnil => by simpa using tail.eq_nil_iff.2 hnil
      rw [List.getLast?_cons_cons]
      refine ⟨ihlast, fun i hi hnext => ?_⟩
      rcases List.mem_cons.1 hi with rfl | hi
      · dsimp only at hnext
        omega
      · exact ihnext i hi hnext

/-- The check as seen from a listing of what it reads. -/
theorem Listing.check_eq_ok_iff (h : Listing 0 body is) (hcode : code.toList = body ++ tail)
    (htail : Unread tail) :
    check code = .ok starts ↔ code ≠ #[] ∧ (∀ i ∈ is, i.next = code.size → i.form.endsControlFlow) ∧
      Lands is ∧ starts = startsOf code := by
  obtain ⟨hwalk, hreads⟩ := h.reads (show code.toList.drop 0 = body ++ tail from hcode) htail
  replace hwalk : instructions code = is.map (seek code ·.bci) := hwalk
  have hwhole : (∀ c ∈ instructions code, checkInstruction c = .ok ()) ↔
      ∀ i ∈ is, i.next = code.size → i.form.endsControlFlow := by
    rw [hwalk]
    simp only [List.forall_mem_map, checkInstruction_eq_ok_iff]
    refine forall₂_congr fun i hi => ?_
    obtain ⟨hnext, hread⟩ := hreads i hi
    have hlength : (length? (seek code i.bci).code (seek code i.bci).bci).isSome :=
      Option.isSome_iff_exists.2 ⟨_, hread.length⟩
    simp only [hread.form, hnext, hlength, Option.some.injEq, true_and, exists_eq_left']
    rfl
  have hlands : (∀ c ∈ instructions code, ∀ t ∈ c.targets,
      checkTarget (startsOf code) code.size c.bci t = .ok ()) ↔ Lands is := by
    have hstart (t : Int) : 0 ≤ t ∧ t < code.size ∧ (startsOf code).contains t.toNat ↔
        ∃ j ∈ is, (j.bci : Int) = t := by
      rw [contains_startsOf]
      constructor
      · rintro ⟨hpos, -, c, hc, hbci⟩
        rw [hwalk] at hc
        obtain ⟨j, hj, rfl⟩ := List.mem_map.1 hc
        have hj' : j.bci = t.toNat := hbci
        exact ⟨j, hj, by omega⟩
      · rintro ⟨j, hj, rfl⟩
        have hmem : seek code j.bci ∈ instructions code := by
          rw [hwalk]
          exact List.mem_map_of_mem hj
        have := lt_size_of_isStart ⟨_, hmem, rfl⟩
        refine ⟨by omega, ?_, seek code j.bci, hmem, rfl⟩
        exact_mod_cast this
    rw [hwalk]
    simp only [List.forall_mem_map, checkTarget_eq_ok_iff, hstart, Lands]
    refine forall₂_congr fun i hi => ?_
    rw [(hreads i hi).2.targets]
    simp
  rw [Bytecode.check_eq_ok_iff, hwhole, hlands]

theorem WellFormed.check_eq_ok (h : WellFormed code is) : check code = .ok (startsOf code) := by
  refine (h.listing.check_eq_ok_iff (List.append_nil _).symm (.inl rfl)).2
    ⟨h.nonempty, fun i hi hnext => h.closed i (h.listing.next_eq_iff.2 i hi (by simpa using hnext)), h.lands,
      rfl⟩

theorem CutShort.check_eq_ok (h : CutShort code is) : check code = .ok (startsOf code) := by
  obtain ⟨body, modifier, hcode, hwide, hlisting⟩ := h.listing
  have hsize := congrArg List.length hcode
  simp at hsize
  refine (hlisting.check_eq_ok_iff hcode (.inr ⟨modifier, rfl, hwide⟩)).2
    ⟨fun hempty => by simp [hempty] at hsize, fun i hi hnext => ?_, h.lands, rfl⟩
  have := hlisting.next_le i hi
  omega

/-- What the check accepts is well formed or cut short. -/
theorem exists_wellFormed_or_cutShort (h : check code = .ok starts) :
    ∃ is, WellFormed code is ∨ CutShort code is := by
  have hwhole := (check_eq_ok_iff.1 h).2.1
  obtain ⟨body, tail, is, hcode, htail, hlisting⟩ := exists_listing (Nat.zero_le code.size)
    fun c hc => by
      obtain ⟨form, -, hlength, -⟩ := checkInstruction_eq_ok_iff.1 (hwhole c hc)
      rwa [(mem_instructions hc).1] at hlength
  obtain ⟨hne, hclosed, hlands, -⟩ := (hlisting.check_eq_ok_iff hcode htail).1 h
  refine ⟨is, ?_⟩
  rcases htail with rfl | ⟨modifier, rfl, hwide⟩
  · rw [List.append_nil] at hcode
    obtain rfl : code.toList = body := hcode
    refine .inl ⟨hne, hlisting, hlands, fun i hi => hclosed i (List.mem_of_getLast? hi) ?_⟩
    simpa using hlisting.next_eq_iff.1 i hi
  · exact .inr ⟨⟨body, modifier, hcode, hwide, hlisting⟩, hlands⟩

/-- Stepping through code from its start on, one comes to the instructions of a list in turn and then to
the end. -/
structure Visits (code : Array UInt8) (is : List Placed) : Prop where
  visited : ∀ k i, is[k]? = some i → (advance^[k] (seek code 0)).bci = i.bci ∧
    (advance^[k] (seek code 0)).next = i.next ∧ (advance^[k] (seek code 0)).opcode.isSome = true
  ended : (advance^[is.length] (seek code 0)).opcode = none

theorem Listing.visits (h : Listing 0 body is) (hcode : code.toList = body ++ tail) (htail : Unread tail) :
    Visits code is ∧ ∀ bci, (startsOf code).contains bci ↔ ∃ i ∈ is, i.bci = bci := by
  obtain ⟨hwalk, hreads⟩ := h.reads (show code.toList.drop 0 = body ++ tail from hcode) htail
  refine ⟨⟨fun k i hi => ?_, ?_⟩, fun bci => ?_⟩
  · have hk : advance^[k] (seek code 0) = seek code i.bci :=
      advance_iterate_eq (by rw [hwalk, List.getElem?_map, hi, Option.map_some])
    obtain ⟨hnext, hread⟩ := hreads i (List.mem_of_getElem? hi)
    obtain ⟨op, hop⟩ := hread.opcode
    rw [hk]
    exact ⟨rfl, hnext, by rw [hop]; rfl⟩
  · have := opcode_advance_iterate_length code 0
    rwa [hwalk, List.length_map] at this
  · rw [contains_startsOf, IsStart, instructions, hwalk]
    simp only [List.mem_map, exists_exists_and_eq_and]
    rfl

theorem WellFormed.visits (h : WellFormed code is) :
    Visits code is ∧ (∀ bci, (startsOf code).contains bci ↔ ∃ i ∈ is, i.bci = bci) ∧
      is.getLast?.map (·.next) = some code.size := by
  obtain ⟨hvisits, hstarts⟩ := h.listing.visits (List.append_nil _).symm (.inl rfl)
  refine ⟨hvisits, hstarts, ?_⟩
  cases hlast : is.getLast? with
  | none =>
    have := h.listing.eq_nil_iff.1 (List.getLast?_eq_none_iff.1 hlast)
    exact absurd (by simpa using this) h.nonempty
  | some i => simpa using h.listing.next_eq_iff.1 i hlast

theorem CutShort.visits (h : CutShort code is) :
    Visits code is ∧ (∀ bci, (startsOf code).contains bci ↔ ∃ i ∈ is, i.bci = bci) ∧
      is.getLast?.map (·.next) ≠ some code.size := by
  obtain ⟨body, modifier, hcode, hwide, hlisting⟩ := h.listing
  obtain ⟨hvisits, hstarts⟩ := hlisting.visits hcode (.inr ⟨modifier, rfl, hwide⟩)
  refine ⟨hvisits, hstarts, fun hlast => ?_⟩
  obtain ⟨i, hi, hnext⟩ := Option.map_eq_some_iff.1 hlast
  have hle := hlisting.next_le i (List.mem_of_getLast? hi)
  have hsize := congrArg List.length hcode
  simp at hsize
  omega

end

/-- The check accepts exactly the code that is well formed or cut short in a `wide`. What it gives is the
set of the starts of the instructions, which are the places that stepping through the code comes to; only
in well-formed code the last of them ends with the code. -/
theorem check_accepts_iff (code : Array UInt8) :
    ((∃ starts, check code = .ok starts) ↔ ∃ is, WellFormed code is ∨ CutShort code is) ∧
    ∀ starts is, check code = .ok starts → (WellFormed code is ∨ CutShort code is) →
      (∀ bci, starts.contains bci = true ↔ ∃ i ∈ is, i.bci = bci) ∧ Visits code is ∧
      (WellFormed code is ↔ is.getLast?.map (·.next) = some code.size) := by
  refine ⟨⟨fun ⟨starts, h⟩ => exists_wellFormed_or_cutShort h, fun ⟨is, h⟩ => ⟨startsOf code,
    h.elim WellFormed.check_eq_ok CutShort.check_eq_ok⟩⟩, fun starts is hcheck h => ?_⟩
  obtain rfl := (check_eq_ok_iff.1 hcheck).2.2.2
  rcases h with h | h
  · obtain ⟨hvisits, hstarts, hlast⟩ := h.visits
    exact ⟨hstarts, hvisits, iff_of_true h hlast⟩
  · obtain ⟨hvisits, hstarts, hlast⟩ := h.visits
    exact ⟨hstarts, hvisits, iff_of_false (fun hwell => hlast hwell.visits.2.2) hlast⟩

/-- A return with a `wide` behind it is accepted, though it is no sequence of whole instructions. -/
theorem check_return_wide : (∃ starts, check #[177, 196] = .ok starts ∧ starts.contains 0 = true) ∧
    ¬ ∃ is, WellFormed #[177, 196] is := by
  refine ⟨exists_ok_of_any (p := fun s : BitSet => s.contains 0) (by decide +kernel), fun ⟨is, h⟩ => ?_⟩
  obtain ⟨hvisits, -, hlast⟩ := h.visits
  have hnext : (seek #[177, 196] 0).next = 1 := by decide +kernel
  have hend : (seek #[177, 196] 0).advance.opcode = none := by decide +kernel
  match is with
  | [] => cases hlast
  | [i] =>
    have hi := (hvisits.visited 0 i rfl).2.1
    rw [Function.iterate_zero_apply, hnext] at hi
    simp [← hi] at hlast
  | _ :: j :: _ =>
    obtain ⟨-, -, hop⟩ := hvisits.visited 1 j rfl
    rw [Function.iterate_one, hend] at hop
    cases hop

end SeaOfNodes.Bytecode
