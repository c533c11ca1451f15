import SeaOfNodes.Frame.Merge
import SeaOfNodes.Proofs.Frame.Values

/-!
# Locals

A value of two slots is never half overwritten: whatever is done to a frame, the local behind such a value
is there and empty.
-/

namespace SeaOfNodes

/-- The kinds of the receiver and the parameters. -/
def Method.allParameters (m : Method) : List Kind := if m.isStatic then m.parameters else .object :: m.parameters

/-- The locals are enough for the slots of the parameters. -/
theorem Method.slots_le_maxLocals {holder name descriptor : String} {isStatic : Bool} {code : Array UInt8}
    {m : Method} (hm : create holder name descriptor isStatic code = .ok m) (n : Nat) :
    ((m.withMaxLocals n).allParameters.map Kind.slotCount).sum ≤ (m.withMaxLocals n).maxLocals := by
  unfold create at hm
  split at hm
  · cases hm
  · cases hm
    cases isStatic <;> simp [withMaxLocals, allParameters, Kind.slotCount, List.sum_eq_foldr]

namespace Frame

/-- A void parameter of a method without locals. -/
theorem entry_void_parameter : ∃ m, Method.create "T" "m" "(V)V" true #[0xb1] = .ok m ∧
    entry m (.empty m.qualifiedName) = .error .outOfRange := by
  obtain ⟨m, hm, htest⟩ := exists_ok_of_any (r := Method.create "T" "m" "(V)V" true #[0xb1])
    (p := fun m => failsWith (entry m (.empty m.qualifiedName)) .outOfRange) (by decide +kernel)
  exact ⟨m, hm, eq_error_of_failsWith htest⟩

/-! ### Values of two slots -/

/-- Behind a value of two slots there is an empty local. -/
def Paired (locals : List (Option Slot)) : Prop :=
  ∀ i s, locals[i]? = some (some s) → s.kind.isTwoSlot = true → locals[i + 1]? = some none

/-- A slot is emptied, or gets another value of as many slots. -/
def Thins (old new : Option Slot) : Prop :=
  ∀ s', new = some s' → ∃ s, old = some s ∧ s'.kind.isTwoSlot = s.kind.isTwoSlot

@[simp] theorem thins_none (old : Option Slot) : Thins old none := nofun

theorem thins_of (id : NodeId) (s : Slot) : Thins (some s) (some (.of id s.kind)) := by
  rintro _ ⟨⟩
  exact ⟨s, rfl, by rw [Slot.of]; cases s.kind <;> rfl⟩

theorem thins_filter (slot : Option Slot) (keep : Slot → Bool) : Thins slot (slot.filter keep) := fun s hs =>
  ⟨s, (Option.filter_eq_some_iff.1 hs).1, rfl⟩

theorem paired_of_thins {locals locals' : List (Option Slot)} (h : List.Forall₂ Thins locals locals')
    (hp : Paired locals) : locals'.length = locals.length ∧ Paired locals' := by
  obtain ⟨hlen, hthins⟩ := List.forall₂_iff_get.1 h
  have hget (i : Nat) (s' : Slot) (hs' : locals'[i]? = some (some s')) :
      ∃ s, locals[i]? = some (some s) ∧ s'.kind.isTwoSlot = s.kind.isTwoSlot := by
    obtain ⟨hi, heq⟩ := List.getElem?_eq_some_iff.1 hs'
    obtain ⟨s, hs, hkind⟩ := hthins i (hlen ▸ hi) hi s' heq
    exact ⟨s, List.getElem?_eq_some_iff.2 ⟨hlen ▸ hi, hs⟩, hkind⟩
  refine ⟨hlen.symm, fun i s' hs' htwo => ?_⟩
  obtain ⟨s, hs, hkind⟩ := hget i s' hs'
  have hnext := hp i s hs (hkind ▸ htwo)
  have hi : i + 1 < locals'.length := hlen ▸ (List.getElem?_eq_some_iff.1 hnext).1
  rw [List.getElem?_eq_getElem hi]
  cases hupper : locals'[i + 1] with
  | none => rfl
  | some s'' =>
    obtain ⟨_, hfull, -⟩ := hget (i + 1) s'' (by rw [List.getElem?_eq_getElem hi, hupper])
    cases hfull.symm.trans hnext

/-! ### Storing -/

/-- The last local that a value takes. -/
def lastLocal (i : Nat) (slot : Option Slot) : Nat := if slot.any (·.kind.isTwoSlot) then i + 1 else i

/-- A frame after `slot` is stored in local `i`. -/
structure Stored (f : Frame) (i : Nat) (slot : Option Slot) (f' : Frame) : Prop where
  room : lastLocal i slot < f.locals.length
  rest : f' = { f with locals := f'.locals }
  length : f'.locals.length = f.locals.length
  here : f'.locals[i]? = some slot
  upper : slot.any (·.kind.isTwoSlot) = true → f'.locals[i + 1]? = some none
  lower : ∀ j, j + 1 = i → f'.locals[j]? =
    if slot.isSome = true ∧ (f.localAt? j).any (·.kind.isTwoSlot) = true then some none else f.locals[j]?
  others : ∀ j, j + 1 ≠ i → j ≠ i → (slot.any (·.kind.isTwoSlot) = true → j ≠ i + 1) →
    f'.locals[j]? = f.locals[j]?

theorem ends_store (f : Frame) (i : Nat) (slot : Option Slot) :
    Ends (f.store i slot) (Stored f i slot) (fun cause => cause = .malformed (.localRange (lastLocal i slot)) ∧
      f.locals.length ≤ lastLocal i slot) := by
  by_cases hlast : f.locals.length ≤ lastLocal i slot
  · rw [show f.store i slot = .error _ from if_pos hlast]
    exact ⟨rfl, hlast⟩
  rw [show f.store i slot = .ok _ from if_neg hlast]
  have hroom : lastLocal i slot < f.locals.length := Nat.lt_of_not_le hlast
  have hlow (j : Nat) (hj : j + 1 = i) : (decide (0 < i) && (f.localAt? (i - 1)).any (·.kind.isTwoSlot)) =
      (f.localAt? j).any (·.kind.isTwoSlot) := by
    subst hj
    simp
  refine ⟨hroom, rfl, ?_, ?_, fun htwo => ?_, fun j hj => ?_, fun j hbelow hne hup => ?_⟩ <;>
    unfold lastLocal at hroom <;> dsimp only
  · split_ifs <;> simp only [List.length_set]
  · grind
  · grind
  · rw [Bool.and_assoc, hlow j hj]
    grind
  · grind

theorem Stored.paired {f f' : Frame} {i : Nat} {slot : Option Slot} (h : Stored f i slot f')
    (hp : Paired f.locals) : Paired f'.locals := by
  intro j s hs htwo
  by_cases hj : j = i
  · subst hj
    obtain rfl : slot = some s := Option.some.inj (h.here.symm.trans hs)
    exact h.upper htwo
  by_cases hbelow : j + 1 = i
  · -- a value in place of the upper half empties the lower half
    rw [h.lower j hbelow] at hs
    split at hs
    · cases hs
    · rename_i hno
      rw [hbelow, h.here]
      rw [localAt?, hs] at hno
      simpa [htwo] using hno
  by_cases habove : slot.any (·.kind.isTwoSlot) ∧ j = i + 1
  · obtain ⟨hslot, rfl⟩ := habove
    cases (h.upper hslot).symm.trans hs
  rw [h.others j hbelow hj fun hslot hj => habove ⟨hslot, hj⟩] at hs
  have hnext := hp j s hs htwo
  by_cases hnear : j + 1 + 1 = i
  · rw [h.lower _ hnear]
    split
    · rfl
    · exact hnext
  · rwa [h.others (j + 1) hnear hbelow fun _ => by omega]

/-! ### Merging -/

variable {change : Option Slot → GraphM (Option Slot)}

theorem ensures_mapM_thins
    (h : ∀ slot g, Ensures (change slot) g fun slot' _ => Thins slot slot') (slots : List (Option Slot)) (g : Graph) :
    Ensures (slots.mapM change) g fun slots' _ => List.Forall₂ Thins slots slots' := by
  induction slots generalizing g with
  | nil => exact .nil
  | cons slot slots ih =>
    rw [List.mapM_cons]
    exact (h slot g).bind fun slot' g1 h1 => (ih g1).bind fun slots' _ h2 => .cons h1 h2

theorem ensures_mapSlots_thins
    (h : ∀ slot g, Ensures (change slot) g fun slot' _ => Thins slot slot') (f : Frame) (g : Graph) :
    Ensures (f.mapSlots change) g fun f' _ => List.Forall₂ Thins f.locals f'.locals := by
  unfold mapSlots
  exact (ensures_mapM_thins h f.locals g).bind fun locals g1 h1 => (meets_any _ g1).bind fun _ _ _ => h1

theorem ensures_mergeSlot_thins (merge : NodeId) (current other : Option Slot) (g : Graph) :
    Ensures (mergeSlot merge current other) g fun slot _ => Thins current slot := by
  unfold mergeSlot
  refine meets_read.2 ?_
  cases hc : aliveSlot g current with
  | none => exact thins_none _
  | some c =>
    obtain ⟨rfl, -⟩ := Option.filter_eq_some_iff.1 hc
    have hsame : Thins (some c) (some c) := fun s hs => ⟨s, hs, rfl⟩
    refine (meets_any _ g).bind fun isPhi g1 _ => ?_
    split
    · split
      · exact (meets_any _ g1).bind fun _ _ _ => hsame
      · exact (meets_any _ g1).bind fun _ _ _ => thins_none _
    · split
      · exact hsame
      · split
        · exact thins_none _
        · refine (meets_any _ g1).bind fun phi g2 _ => (meets_any _ g2).bind fun _ g3 _ => ?_
          exact (meets_any _ g3).bind fun _ g4 _ => (meets_any _ g4).bind fun _ _ _ => thins_of phi c

theorem ensures_mergeSlots_thins (merge : NodeId) (slots others : List (Option Slot)) (g : Graph) :
    Ensures (mergeSlots merge slots others) g fun slots' _ => List.Forall₂ Thins slots slots' := by
  have hsame (slots : List (Option Slot)) : List.Forall₂ Thins slots slots :=
    List.forall₂_same.2 fun _ _ s hs => ⟨s, hs, rfl⟩
  induction slots generalizing others g with
  | nil => exact .nil
  | cons slot slots ih =>
    cases others with
    | nil => exact hsame _
    | cons other others =>
      unfold mergeSlots
      exact (ensures_mergeSlot_thins merge slot other g).bind fun slot' g1 h1 =>
        (ih others g1).bind fun slots' _ h2 => .cons h1 h2

theorem ensures_merge_thins (f : Frame) (join : NodeId) (other : Frame) (g : Graph) :
    Ensures (f.merge join other) g fun r _ => ∀ f', r = .ok f' → List.Forall₂ Thins f.locals f'.locals := by
  unfold Frame.merge
  split
  · exact nofun
  · have hwith : Ensures (f.mergeWith join other) g fun f' _ => List.Forall₂ Thins f.locals f'.locals :=
      (ensures_mergeSlots_thins join f.locals other.locals g).bind fun locals g1 h =>
        (meets_any _ g1).bind fun _ _ _ => h
    refine hwith.bind fun f' _ h => ?_
    rintro _ ⟨⟩
    exact h

theorem clearDead_thins (f : Frame) (live : BitSet) : List.Forall₂ Thins f.locals (f.clearDead live).locals := by
  refine List.forall₂_iff_get.2 ⟨by simp [clearDead], fun i h1 h2 => ?_⟩
  simp only [clearDead, List.get_eq_getElem, List.getElem_map, List.getElem_zipIdx, Nat.zero_add]
  split
  · exact fun s hs => ⟨s, hs, rfl⟩
  · exact thins_none _

/-! ### Whatever is done to a frame -/

/-- What is done to a frame. -/
inductive Act
  | store (index : Nat) (slot : Option Slot)
  | clearDead (live : Option BitSet)
  | merge (join : NodeId) (other : Frame)
  | insertLoopPhis (loopBegin : NodeId)
  | insertProxies (loopExit loopBegin : NodeId) (header : Frame)
  | dropDeleted
  | withException (exception : Option NodeId)
  | pushSlot (slot : Option Slot)
  | push (kind : Kind) (id : NodeId)
  | popSlot
  | pop (kind : Kind)
  | popAll (kinds : List Kind)
  | clearStack
  | setRethrow (rethrow : Bool)

/-- The frame afterwards. A store or a merge that bails out leaves the frame as it is; what was popped
before popping bails out is gone. -/
def Act.run : Act → Frame → GraphM Frame
  | .store index slot, f => return (f.store index slot).toOption.getD f
  | .clearDead live, f => return live.elim f f.clearDead
  | .merge join other, f => return (← f.merge join other).toOption.getD f
  | .insertLoopPhis loopBegin, f => f.insertLoopPhis loopBegin
  | .insertProxies loopExit loopBegin header, f => f.insertProxies loopExit loopBegin header
  | .dropDeleted, f => return f.dropDeleted (← get)
  | .withException exception, f => return f.withException exception
  | .pushSlot slot, f => return f.pushSlot slot
  | .push kind id, f => return f.push kind id
  | .popSlot, f => return (Frame.popSlot.run.run f).2
  | .pop kind, f => return ((Frame.pop kind).run.run f).2
  | .popAll kinds, f => return ((Frame.popAll kinds).run.run f).2
  | .clearStack, f => return f.clearStack
  | .setRethrow rethrow, f => return { f with rethrow }

/-- Frames that come from the one on entry to a method, on graphs that may change in between. -/
inductive Reached (m : Method) : Frame → Prop
  | entry {f : Frame} {g g' : Graph} (h : Frame.entry m g = .ok (f, g')) : Reached m f
  | act {f f' : Frame} {g g' : Graph} (hf : Reached m f) (a : Act) (h : a.run f g = .ok (f', g')) : Reached m f'

theorem locals_push (kind : Kind) (id : NodeId) (f : Frame) : (f.push kind id).locals = f.locals := by
  unfold push
  dsimp only
  split <;> rfl

theorem Pops.locals {α : Type} {act : FrameM α} {post : List (Option Slot) → α → List (Option Slot) → Prop}
    (h : Pops act post) (f : Frame) : (act.run.run f).2.locals = f.locals := by
  obtain ⟨rest, -, hrun, -⟩ := h f
  rw [hrun]

theorem Act.ensures_run (a : Act) (f : Frame) (g : Graph) (hp : Paired f.locals) :
    Ensures (a.run f) g fun f' _ => f'.locals.length = f.locals.length ∧ Paired f'.locals := by
  have keeps {f' : Frame} (h : f'.locals = f.locals) : f'.locals.length = f.locals.length ∧ Paired f'.locals := by
    rw [h]
    exact ⟨rfl, hp⟩
  have thins {f' : Frame} (h : List.Forall₂ Thins f.locals f'.locals) := paired_of_thins h hp
  cases a with
  | store index slot =>
    have h := ends_store f index slot
    refine meets_pure.2 ?_
    cases hs : f.store index slot with
    | error _ => exact keeps rfl
    | ok f' =>
      rw [hs] at h
      exact ⟨h.length, h.paired hp⟩
  | clearDead live =>
    cases live with
    | none => exact keeps rfl
    | some live => exact thins (clearDead_thins f live)
  | merge join other =>
    refine (ensures_merge_thins f join other g).bind fun r _ h => ?_
    cases r with
    | error _ => exact keeps rfl
    | ok f' => exact thins (h f' rfl)
  | insertLoopPhis loopBegin =>
    refine (ensures_mapSlots_thins (fun slot g => ?_) f g).imp fun _ _ => thins
    cases slot with
    | none => exact thins_none _
    | some s => exact (meets_any _ g).bind fun phi g1 _ => (meets_any _ g1).bind fun _ _ _ => thins_of phi s
  | insertProxies loopExit loopBegin header =>
    refine (ensures_mapSlots_thins (fun slot g => ?_) f g).imp fun _ _ => thins
    cases slot with
    | none => exact thins_none _
    | some s =>
      refine (meets_any _ g).bind fun before g1 _ => ?_
      split
      · exact fun s hs => ⟨s, hs, rfl⟩
      · exact (meets_any _ g1).bind fun proxy _ _ => thins_of proxy s
  | dropDeleted =>
    refine thins (List.forall₂_map_right_iff.2 (List.forall₂_same.2 fun slot _ => ?_))
    exact thins_filter slot _
  | withException exception =>
    cases exception with
    | none => exact keeps rfl
    | some id => exact keeps (locals_push .object id f.clearStack)
  | push kind id => exact keeps (locals_push kind id f)
  | popSlot => exact keeps (pops_popSlot.locals f)
  | pop kind => exact keeps ((pops_pop kind).locals f)
  | popAll kinds => exact keeps ((pops_popAll kinds).locals f)
  | pushSlot | clearStack | setRethrow => exact keeps rfl

theorem isTwoSlot_of (id : NodeId) (kind : Kind) : (Slot.of id kind).kind.isTwoSlot = decide (kind.slotCount = 2) := by
  cases kind <;> rfl

/-- The invariant is that around the next place there is no value of two slots, and nothing behind it. -/
theorem ensures_placeParameters_paired (kinds : List Kind) (index at_ : Nat) (slots : List (Option Slot))
    (g : Graph) (hroom : at_ + (kinds.map Kind.slotCount).sum ≤ slots.length) (hp : Paired slots)
    (hfree : ∀ i s, slots[i]? = some (some s) → at_ ≤ i + 1 → i ≤ at_ ∧ s.kind.isTwoSlot = false) :
    Ensures (placeParameters kinds index at_ slots) g fun slots' _ => slots'.length = slots.length ∧ Paired slots' := by
  induction kinds generalizing index at_ slots g with
  | nil => exact ⟨rfl, hp⟩
  | cons kind rest ih =>
    rw [List.map_cons, List.sum_cons] at hroom
    unfold placeParameters
    refine (meets_any _ g).bind fun id g1 _ => ?_
    split
    · trivial
    rename_i hlt
    have htwo := isTwoSlot_of id kind
    refine (ih (index + 1) (at_ + kind.slotCount) (slots.set at_ (some (.of id kind))) g1
      (by simpa [Nat.add_assoc] using hroom) (fun i s hs hs2 => ?_) fun i s hs hle => ?_).imp
      fun slots' _ h => by simpa using h
    · have hpair := hp i s
      have hhere := hfree i s
      rcases hnext : slots[i + 1]? with _ | _ | s'
      · grind
      · grind
      · have habove := hfree (i + 1) s' hnext
        grind
    · have hhere := hfree i s
      grind

theorem ensures_entry_paired {m : Method} (hroom : (m.allParameters.map Kind.slotCount).sum ≤ m.maxLocals)
    (g : Graph) : Ensures (entry m) g fun f _ => f.locals.length = m.maxLocals ∧ Paired f.locals := by
  have hnone (i : Nat) (s : Slot) : (List.replicate m.maxLocals none)[i]? ≠ some (some s) := by
    simp [List.getElem?_replicate]
  exact (ensures_placeParameters_paired m.allParameters 0 0 (List.replicate m.maxLocals none) g (by simpa using hroom)
    (fun i s hs => absurd hs (hnone i s)) fun i s hs => absurd hs (hnone i s)).bind
      fun locals _ h => by simpa using h

/-- Whatever is done to the frame on entry to a method, the number of its locals stays, and behind a value
of two slots there is an empty local. A store fails only beyond the locals and then leaves the frame as it
is; otherwise it changes the locals of the stored value, and empties the one before if its value is cut. -/
theorem Reached.keeps_pairs {holder name descriptor : String} {isStatic : Bool} {code : Array UInt8}
    {m₀ : Method} (hm : Method.create holder name descriptor isStatic code = .ok m₀) (n : Nat) {f : Frame}
    (hf : Reached (m₀.withMaxLocals n) f) :
    f.locals.length = (m₀.withMaxLocals n).maxLocals ∧ Paired f.locals ∧
      ∀ i slot, Ends (f.store i slot) (Stored f i slot) (fun cause =>
        cause = .malformed (.localRange (lastLocal i slot)) ∧ f.locals.length ≤ lastLocal i slot ∧
          ∀ g, (Act.store i slot).run f g = .ok (f, g)) := by
  have hkeeps : f.locals.length = (m₀.withMaxLocals n).maxLocals ∧ Paired f.locals := by
    induction hf with
    | @entry f g g' h => exact (ensures_entry_paired (Method.slots_le_maxLocals hm n) g).of_ok h
    | @act f f' g g' _ a h ih =>
      obtain ⟨hlen, hp⟩ := (a.ensures_run f g ih.2).of_ok h
      exact ⟨hlen.trans ih.1, hp⟩
  refine ⟨hkeeps.1, hkeeps.2, fun i slot => ?_⟩
  have hends := ends_store f i slot
  cases hs : f.store i slot with
  | ok f' =>
    rw [hs] at hends
    exact hends
  | error cause =>
    rw [hs] at hends
    exact ⟨hends.1, hends.2, fun g => by rw [Act.run, hs]; rfl⟩

/-- An integer is stored in place of the upper half of a long. -/
theorem Reached.keeps_pairs_cut : ∃ m f, Method.create "T" "m" "(J)V" true #[0xb1] = .ok m ∧
    Reached (m.withMaxLocals 3) f ∧ f.locals = [none, some ⟨⟨0⟩, .int⟩, none] ∧ Paired f.locals := by
  obtain ⟨m, hm, htest⟩ := exists_ok_of_any (r := Method.create "T" "m" "(J)V" true #[0xb1])
    (p := fun m => (Frame.entry (m.withMaxLocals 3) (.empty "")).toOption.any fun r =>
      r.1.locals = [some ⟨⟨0⟩, .long⟩, none, none] ∧
        ((Act.store 1 (some ⟨⟨0⟩, .int⟩)).run r.1 r.2).toOption.any fun r' =>
          r'.1.locals = [none, some ⟨⟨0⟩, .int⟩, none]) (by decide +kernel)
  obtain ⟨⟨f, g⟩, hentry, htest⟩ := exists_ok_of_any htest
  obtain ⟨-, htest⟩ := of_decide_eq_true htest
  obtain ⟨⟨f', g'⟩, hstore, htest⟩ := exists_ok_of_any htest
  have hf' : Reached (m.withMaxLocals 3) f' := .act (.entry hentry) _ hstore
  exact ⟨m, f', hm, hf', of_decide_eq_true htest, (keeps_pairs hm 3 hf').2.1⟩

end Frame

end SeaOfNodes
