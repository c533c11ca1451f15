import SeaOfNodes.Frame.Basic
import SeaOfNodes.Proofs.Graph.Building

/-!
# The values of a frame

A frame fits a graph when its slots hold values of the graph, each of the kind that the slot says;
the values may be gone. Reading and writing locals and moving words on the stack keep that, and what
is popped or loaded is a value of the kind that is asked for.
-/

namespace SeaOfNodes

open Graph

/-- The nodes in slots. -/
def nodesIn (slots : List (Option Slot)) : List NodeId := slots.filterMap fun slot => slot.map (·.node)

/-- The slots of a frame: locals first, then the stack from the bottom up. -/
def Frame.slots (f : Frame) : List (Option Slot) := f.locals ++ f.stack.reverse

variable {g g' g'' : Graph} {slots slots' : List (Option Slot)} {slot : Option Slot} {kind : Kind}
  {id : NodeId}

@[simp] theorem Kind.onStack_onStack (k : Kind) : k.onStack.onStack = k.onStack := by
  cases k <;> rfl

theorem Graph.HasKind.onStack (h : g.HasKind id kind) : kind.onStack = kind := by
  obtain ⟨-, op, -, rfl⟩ := h
  exact Kind.onStack_onStack _

/-- The slots that are not empty hold values of their kinds. -/
def SlotsFit (g : Graph) (slots : List (Option Slot)) : Prop :=
  ∀ slot, some slot ∈ slots → g.HasKind slot.node slot.kind

namespace SlotsFit

theorem mono (h : SlotsFit g slots) (hk : KeepsOps g g') : SlotsFit g' slots :=
  fun slot hs => hk.hasKind (h slot hs)

theorem sub (h : SlotsFit g slots) (hsub : ∀ slot, some slot ∈ slots' → some slot ∈ slots) :
    SlotsFit g slots' :=
  fun slot hs => h slot (hsub slot hs)

theorem nil : SlotsFit g [] := fun _ h => by cases h

theorem cons_none (h : SlotsFit g slots) : SlotsFit g (none :: slots) :=
  h.sub fun slot hs => by simpa using hs

theorem cons_some {s : Slot} (hs : g.HasKind s.node s.kind) (h : SlotsFit g slots) :
    SlotsFit g (some s :: slots) := fun slot hslot => by
  rcases List.mem_cons.1 hslot with hslot | hslot
  · cases hslot; exact hs
  · exact h slot hslot

theorem set (h : SlotsFit g slots) (hs : SlotsFit g [slot]) (index : Nat) :
    SlotsFit g (slots.set index slot) := fun s hslot => by
  rcases List.mem_or_eq_of_mem_set hslot with hslot | hslot
  · exact h s hslot
  · exact hs s (by simp [hslot])

end SlotsFit

theorem slotsFit_reverse : SlotsFit g slots.reverse ↔ SlotsFit g slots := by
  simp [SlotsFit]

theorem mem_nodesIn {x : NodeId} :
    x ∈ nodesIn slots ↔ ∃ s, some s ∈ slots ∧ s.node = x := by
  simp only [nodesIn, List.mem_filterMap, Option.map_eq_some_iff]
  constructor
  · rintro ⟨_, hmem, s, rfl, hs⟩
    exact ⟨s, hmem, hs⟩
  · rintro ⟨s, hmem, hs⟩
    exact ⟨_, hmem, s, rfl, hs⟩

@[simp] theorem nodesIn_append (xs ys : List (Option Slot)) :
    nodesIn (xs ++ ys) = nodesIn xs ++ nodesIn ys :=
  List.filterMap_append

@[simp] theorem nodesIn_cons_none (xs : List (Option Slot)) : nodesIn (none :: xs) = nodesIn xs := rfl

@[simp] theorem nodesIn_cons_some (s : Slot) (xs : List (Option Slot)) :
    nodesIn (some s :: xs) = s.node :: nodesIn xs := rfl

theorem SlotsFit.node?_of_mem (h : SlotsFit g slots) {x : NodeId}
    (hx : x ∈ nodesIn slots) : ∃ n, g.node? x = some n := by
  obtain ⟨s, hs, rfl⟩ := mem_nodesIn.1 hx
  obtain ⟨⟨c, hc, -⟩, -⟩ := h s hs
  obtain ⟨n, hn, -⟩ := exists_node?_of_cls? hc
  exact ⟨n, hn⟩

namespace Frame

variable {f f' : Frame} {α β : Type}

/-! ### Steps on a frame -/

/-- A step takes slots off the stack; its result, if there is one, goes with the stack before and after. -/
def Pops (act : FrameM α) (post : List (Option Slot) → α → List (Option Slot) → Prop) : Prop :=
  ∀ f, ∃ rest, rest <:+ f.stack ∧ (act.run.run f).2 = { f with stack := rest } ∧
    ∀ a, (act.run.run f).1 = .ok a → post f.stack a rest

section

variable {post : List (Option Slot) → α → List (Option Slot) → Prop}

theorem pops_pure {a : α} (h : ∀ stack, post stack a stack) : Pops (pure a) post := fun f =>
  ⟨f.stack, List.suffix_rfl, rfl, fun b hb => by cases hb; exact h _⟩

theorem pops_throw {cause : Bailout} : Pops (throw cause) post := fun f =>
  ⟨f.stack, List.suffix_rfl, rfl, nofun⟩

theorem Pops.bind {act : FrameM β} {k : β → FrameM α} {P : List (Option Slot) → β → List (Option Slot) → Prop}
    (h : Pops act P) (hk : ∀ stack b mid, mid <:+ stack → P stack b mid →
      Pops (k b) fun mid' a rest => mid' = mid → post stack a rest) : Pops (act >>= k) post := by
  intro f
  obtain ⟨mid, hmid, hf', hb⟩ := h f
  have hsplit : (act >>= k).run.run f =
      match act.run.run f with
      | (.ok b, f') => (k b).run.run f'
      | (.error cause, f') => (.error cause, f') := by
    show (ExceptT.bindCont (fun b => k b) (act.run.run f).1).run (act.run.run f).2 = _
    rcases act.run.run f with ⟨_ | _, _⟩ <;> rfl
  rw [hsplit]
  rcases hr : act.run.run f with ⟨cause | b, f'⟩ <;> rw [hr] at hf' hb
  · exact ⟨mid, hmid, hf', nofun⟩
  · obtain ⟨rest, hrest, hrun, hpost⟩ := hk f.stack b mid hmid (hb b rfl) f'
    obtain rfl : f' = _ := hf'
    exact ⟨rest, hrest.trans hmid, hrun, fun a ha => hpost a ha rfl⟩

end

theorem pops_popSlot : Pops popSlot fun stack slot rest => stack = slot :: rest := by
  rintro ⟨method, locals, _ | ⟨slot, rest⟩, rethrow⟩
  · exact ⟨[], List.suffix_rfl, rfl, nofun⟩
  · exact ⟨rest, List.suffix_cons slot rest, rfl, by rintro _ ⟨⟩; rfl⟩

/-- A node comes from a slot of a kind. -/
def From (kind : Kind) (id : NodeId) (slot : Slot) : Prop := slot.node = id ∧ slot.kind = kind.onStack

/-- What is popped is in one slot, or in two of which the upper one is empty. -/
theorem pops_value (kind : Kind) : Pops (do
      match ← popSlot with
      | some slot =>
        if slot.kind = kind.onStack then return slot.node
        throw (.malformed (.wrongOnStack kind.onStack (some slot.kind)))
      | none => throw (.malformed (.wrongOnStack kind.onStack none)))
    fun stack id rest => ∃ slot, From kind id slot ∧ stack = some slot :: rest := by
  refine pops_popSlot.bind fun stack slot mid _ hslot => ?_
  cases slot with
  | none => exact pops_throw
  | some slot =>
    dsimp only
    split
    · rename_i hkind
      exact pops_pure fun _ hmid => ⟨slot, ⟨rfl, hkind⟩, hmid ▸ hslot⟩
    · exact pops_throw

theorem pops_pop (kind : Kind) : Pops (pop kind) fun stack id rest => ∃ slot, From kind id slot ∧
    stack = if kind.onStack.isTwoSlot then none :: some slot :: rest else some slot :: rest := by
  unfold pop
  dsimp only
  split
  · refine pops_popSlot.bind fun stack upper mid _ hupper => ?_
    cases upper with
    | some _ => exact pops_throw
    | none =>
      intro f
      obtain ⟨rest, hrest, hrun, hpost⟩ := pops_value kind f
      refine ⟨rest, hrest, hrun, fun id hid hmid => ?_⟩
      obtain ⟨slot, hslot, hstack⟩ := hpost id hid
      exact ⟨slot, hslot, by rw [hupper, ← hmid, hstack]⟩
  · exact pops_value kind

theorem pops_popAll (kinds : List Kind) : Pops (popAll kinds) fun stack ids _ =>
    List.Forall₂ (fun id kind => ∃ slot, From kind id slot ∧ some slot ∈ stack) ids kinds := by
  have key (kinds : List Kind) : Pops (kinds.mapM pop) fun stack ids _ =>
      List.Forall₂ (fun id kind => ∃ slot, From kind id slot ∧ some slot ∈ stack) ids kinds := by
    induction kinds with
    | nil => exact pops_pure fun _ => .nil
    | cons kind rest ih =>
      rw [List.mapM_cons]
      refine (pops_pop kind).bind fun stack id mid hmid hid => ih.bind fun stack' ids _ _ hids => ?_
      obtain ⟨slot, hslot, hstack⟩ := hid
      refine pops_pure fun _ _ hstack' => .cons ⟨slot, hslot, ?_⟩ (hids.imp fun _ _ h => ?_)
      · rw [hstack]
        split <;> simp
      · obtain ⟨slot, hslot, hmem⟩ := h
        exact ⟨slot, hslot, hmid.mem (hstack' ▸ hmem)⟩
  refine (key kinds.reverse).bind fun stack ids _ _ hids => pops_pure fun _ _ => ?_
  have := List.rel_reverse hids
  rwa [List.reverse_reverse] at this

/-! ### Frames that fit -/

variable [Source]

/-- The slots of a frame hold values of the graph, which may be gone, and it has the locals of the
method. -/
structure Fits (g : Graph) (f : Frame) : Prop where
  locals : SlotsFit g f.locals
  stack : SlotsFit g f.stack
  size : f.locals.length = Source.method.maxLocals

namespace Fits

theorem mono (h : f.Fits g) (hk : KeepsOps g g') : f.Fits g' :=
  ⟨h.locals.mono hk, h.stack.mono hk, h.size⟩

theorem push (h : f.Fits g) (hv : g.HasKind id kind.onStack) : (f.push kind id).Fits g := by
  unfold Frame.push
  dsimp only
  split
  · exact ⟨h.locals, (SlotsFit.cons_some hv h.stack).cons_none, h.size⟩
  · exact ⟨h.locals, .cons_some hv h.stack, h.size⟩

theorem withException (h : f.Fits g) {exception : Option NodeId}
    (hv : ∀ id, exception = some id → g.HasKind id .object) : (f.withException exception).Fits g := by
  have hclear : f.clearStack.Fits g := ⟨h.locals, .nil, h.size⟩
  cases exception with
  | none => exact hclear
  | some id =>
    have := hclear.push (show g.HasKind id Kind.object.onStack from hv id rfl)
    exact ⟨this.locals, this.stack, this.size⟩

theorem clearDead (h : f.Fits g) (live : BitSet) : (f.clearDead live).Fits g := by
  refine ⟨h.locals.sub fun slot hs => ?_, h.stack, by simpa [Frame.clearDead] using h.size⟩
  obtain ⟨⟨slot', index⟩, hmem, hslot⟩ := List.mem_map.1 hs
  obtain ⟨-, rfl⟩ := Option.ite_none_right_eq_some.1 hslot
  exact List.mem_of_getElem? (List.mem_zipIdx_iff_getElem?.1 hmem)

theorem load (h : f.Fits g) {index : Nat} (hl : f.load index kind = .ok id) :
    g.HasKind id kind.onStack := by
  unfold Frame.load at hl
  dsimp only at hl
  split at hl
  · rename_i slot hslot
    split at hl
    · rename_i hkind
      obtain rfl : slot.node = id := Except.ok.inj hl
      rw [← hkind]
      exact h.locals slot (List.mem_of_getElem? (Option.join_eq_some_iff.1 hslot))
    · cases hl
  · cases hl

/-- Writing a local keeps a frame fitting. -/
theorem store (h : f.Fits g) (hs : SlotsFit g [slot]) {index : Nat}
    (hst : f.store index slot = .ok f') : f'.Fits g := by
  have hnone : SlotsFit g [none] := SlotsFit.nil.cons_none
  unfold Frame.store at hst
  dsimp only at hst
  obtain ⟨-, hst⟩ | ⟨-, hst⟩ := ite_eq_iff.1 hst
  · cases hst
  · obtain rfl := Except.ok.inj hst
    refine ⟨?_, h.stack, ?_⟩
    swap
    · rw [← h.size]
      dsimp only
      split_ifs <;> simp only [List.length_set]
    have hset : SlotsFit g ((if (slot.isSome && decide (0 < index) &&
        (f.localAt? (index - 1)).any (·.kind.isTwoSlot))
        then f.locals.set (index - 1) none else f.locals).set index slot) := by
      refine SlotsFit.set ?_ hs _
      split
      · exact h.locals.set hnone _
      · exact h.locals
    dsimp only
    split
    · exact hset.set hnone _
    · exact hset

end Fits

/-! ### The frame on entry -/

/-- Kinds take slots, and there are locals for them from `at_` on. -/
def RoomAt (kinds : List Kind) (at_ size : Nat) : Prop :=
  (∀ k ∈ kinds, 0 < k.slotCount) ∧ at_ + (kinds.map Kind.slotCount).sum ≤ size

/-- Placing parameters, which works out if there is room for them. -/
theorem meets_placeParameters (hg : g.Growing) (kinds : List Kind) (index at_ : Nat)
    (hs : SlotsFit g slots) :
    Meets (placeParameters kinds index at_ slots) g
      (fun slots' g' => Extends g g' ∧ SlotsFit g' slots' ∧ slots'.length = slots.length ∧
        g'.joint? = g.joint?)
      (fun cause => IsStale cause ∨ ¬ RoomAt kinds at_ slots.length) := by
  induction kinds generalizing g index at_ slots with
  | nil => exact ⟨.refl hg, hs, rfl, rfl⟩
  | cons kind rest ih =>
    unfold placeParameters
    have hsplit (h : RoomAt (kind :: rest) at_ slots.length) :
        at_ < slots.length ∧ RoomAt rest (at_ + kind.slotCount) slots.length := by
      obtain ⟨hk, hlen⟩ := h
      have hcount := hk kind (by simp)
      rw [List.map_cons, List.sum_cons] at hlen
      exact ⟨by omega, fun k hk' => hk k (by simp [hk']), by omega⟩
    refine meets_bind.2 ((meets_intern_growing hg rfl (Node.fits_ofInputs .nil) fun id _ _ =>
      Node.filled_of_cls (by rintro ⟨⟩) (by rintro ⟨⟩) .nil
        (Node.typed_plain (by rintro ⟨⟩) (by rintro ⟨⟩) fun _ => rfl)).mono
      (fun id g1 h1 => ?_) fun _ => .inl)
    have hid := hasKind_of_op? h1.op? rfl
    have hm1 := h1.moves
    split
    · rename_i hle
      exact .inr fun h => absurd (hsplit h).1 (Nat.not_lt.2 hle)
    · refine (ih h1.growing (index + 1) (at_ + kind.slotCount)
        ((hs.mono hm1.keepsOps).set (.cons_some ?_ .nil) at_)).mono
        (fun slots' g2 h2 => ?_) fun cause hc => ?_
      · simpa [Slot.of, Node.parameter, Node.ofInputs, Op.valueKind] using hid
      · obtain ⟨⟨hg2, hm2⟩, hs2, hlen, hj⟩ := h2
        rw [List.length_set] at hlen
        exact ⟨⟨hg2, hm1.trans hm2⟩, hs2, hlen, hj.trans (h1.joints_eq (by rintro ⟨⟩))⟩
      rw [List.length_set] at hc
      exact hc.imp_right fun hno h => hno (hsplit h).2

end Frame

/-- What the parameters of a method need: kinds that take slots, and locals for them. -/
structure Method.HasRoom (m : Method) : Prop where
  kinds : ∀ k ∈ m.parameters, 0 < k.slotCount
  locals : (if m.isStatic then 0 else 1) + (m.parameters.map Kind.slotCount).sum ≤ m.maxLocals

/-- The frame on entry fits. -/
theorem Frame.meets_entry [Source] (hg : g.Growing) :
    Meets (Frame.entry Source.method) g
      (fun f g' => Extends g g' ∧ f.Fits g' ∧ g'.joint? = g.joint?)
      (fun cause => IsStale cause ∨ ¬ Source.method.HasRoom) := by
  unfold Frame.entry
  have hnone : SlotsFit g (List.replicate Source.method.maxLocals none) := fun slot hs => by
    simp at hs
  refine meets_bind.2 ((Frame.meets_placeParameters hg _ 0 0 hnone).mono (fun locals g1 h1 => ?_)
    fun cause hc => hc.imp_right fun hno hm => hno ?_)
  · obtain ⟨he, hs, hlen, hj⟩ := h1
    exact ⟨he, ⟨hs, .nil, by simpa using hlen⟩, hj⟩
  obtain ⟨hkinds, hlocals⟩ := hm
  rw [List.length_replicate]
  split
  · exact ⟨hkinds, by simpa [*] using hlocals⟩
  · refine ⟨by simpa [Kind.slotCount] using hkinds, ?_⟩
    simpa [*, Kind.slotCount] using hlocals

end SeaOfNodes
