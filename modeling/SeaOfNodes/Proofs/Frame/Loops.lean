import SeaOfNodes.Proofs.Frame.Merging

/-!
# Frames at loops

At the header of a loop every slot gets a phi, and at an exit every slot gets a proxy, where it held a
value of the loop. As the frame at the header holds phis only, no other values are left there.
-/

namespace SeaOfNodes

open Graph

variable {g g' : Graph} {f header : Frame} {merge exit id : NodeId} {fail : Fault → Prop}

namespace Frame

/-- A change of every slot, by an invariant of the slots that were changed and those that are left. -/
theorem meets_mapSlots {change : Option Slot → GraphM (Option Slot)}
    (inv : Graph → List (Option Slot) → List (Option Slot) → Prop) (h : inv g [] f.slots)
    (step : ∀ s slot done rest, inv s done (slot :: rest) →
      Meets (change slot) s (fun slot' s' => inv s' (done ++ [slot']) rest) fail) :
    Meets (f.mapSlots change) g
      (fun f' g' => inv g' f'.slots [] ∧ f'.locals.length = f.locals.length) fail := by
  have key (slots done rest : List (Option Slot)) (s : Graph) (hs : inv s done (slots ++ rest)) :
      Meets (slots.mapM change) s
        (fun slots' s' => inv s' (done ++ slots') rest ∧ slots'.length = slots.length) fail := by
    refine (Meets.mapM (fun left changed s => inv s (done ++ changed) (left ++ rest) ∧
      changed.length + left.length = slots.length) ⟨by simpa using hs, by simp⟩
      fun slot left changed s h => ?_).imp fun slots' s' h => by simpa using h
    refine (step s slot _ _ h.1).imp fun slot' s' hs' => ⟨by simpa using hs', ?_⟩
    have := h.2
    simp only [List.length_append, List.length_cons, List.length_nil] at this ⊢
    omega
  unfold mapSlots
  refine (key f.locals [] f.stack.reverse g h).bind fun locals g1 h1 => ?_
  refine (key f.stack.reverse locals [] g1 (by simpa using h1.1)).bind fun stack g2 h2 => ?_
  refine ⟨?_, h1.2⟩
  simpa [Frame.slots] using h2.1

theorem contains_iff : f.contains id ↔ id ∈ nodesIn f.slots := by
  simp only [contains, List.any_eq_true, mem_nodesIn, slots, List.mem_append, List.mem_reverse,
    Option.any_eq_true, decide_eq_true_eq]
  constructor
  · rintro ⟨slot, hmem, s, rfl, hs⟩
    exact ⟨s, hmem, hs⟩
  · rintro ⟨s, hmem, hs⟩
    exact ⟨_, hmem, s, rfl, hs⟩

theorem index_lt_of_isValue (hv : g.IsValue id) : id.index < g.bound := by
  obtain ⟨c, hc, -⟩ := hv
  obtain ⟨n, hn, -⟩ := exists_node?_of_cls? hc
  obtain ⟨e, he, -⟩ := get?_of_node? hn
  exact isSome_get?_iff.1 (by simp [he])

/-- No slot of a frame holds a node that is gone. -/
structure Fresh [Source] (g : Graph) (f : Frame) : Prop where
  fits : f.Fits g
  alive : ∀ x ∈ nodesIn f.slots, g.isAlive x = true

theorem Fresh.mono [Source] (h : f.Fresh g) (hk : KeepsOps g g') (ha : KeepsAlive g g') :
    f.Fresh g' :=
  ⟨h.fits.mono hk, fun x hx => ha _ (h.alive x hx)⟩

theorem mem_slots_dropDeleted {s : Slot} :
    some s ∈ (f.dropDeleted g).slots ↔ some s ∈ f.slots ∧ g.isAlive s.node := by
  have key (slots : List (Option Slot)) :
      some s ∈ slots.map (aliveSlot g) ↔ some s ∈ slots ∧ g.isAlive s.node := by
    simp only [List.mem_map, aliveSlot, Option.filter_eq_some_iff]
    constructor
    · rintro ⟨_, hmem, rfl, ha⟩
      exact ⟨hmem, ha⟩
    · exact fun h => ⟨_, h.1, rfl, h.2⟩
  simp only [slots, dropDeleted, List.mem_append, List.mem_reverse, key, or_and_right]

theorem fresh_dropDeleted [Source] (h : f.Fits g) : (f.dropDeleted g).Fresh g := by
  have hslots {s : Slot} (hs : some s ∈ (f.dropDeleted g).slots) : g.HasKind s.node s.kind :=
    h.slots s (mem_slots_dropDeleted.1 hs).1
  refine ⟨⟨fun s hs => hslots (by simp [slots, hs]), fun s hs => hslots (by simp [slots, hs]),
    by simpa [dropDeleted] using h.size⟩, fun x hx => ?_⟩
  obtain ⟨s, hs, rfl⟩ := mem_nodesIn.1 hx
  exact (mem_slots_dropDeleted.1 hs).2

/-! ### Phis at a loop header -/

/-- While slots get phis at the header of a loop: those that were changed hold its phis, each with one
value. -/
structure Opening [Source] (g : Graph) (merge : NodeId) (s : Graph) (done rest : List (Option Slot)) :
    Prop where
  merges : Merges merge g s
  keepsAlive : KeepsAlive g s
  fits : SlotsFit s done
  left : ∀ slot, some slot ∈ rest → g.HasKind slot.node slot.kind ∧ g.isAlive slot.node = true
  phis : ∀ x vs, IsPhi s.joint? merge x vs → (nodesIn done).count x = 1 ∧ vs.length = 1
  all : ∀ x ∈ nodesIn done, ∃ vs, IsPhi s.joint? merge x vs

section

variable [Source] {rest done : List (Option Slot)} {clean : Prop}

theorem Opening.next {s s' : Graph} {slot : Slot} {phi : NodeId}
    (h : Opening g merge s done (some slot :: rest))
    (hphi : PhiOn s s' merge phi slot.kind [slot.node]) :
    Opening g merge s' (done ++ [some (Slot.of phi slot.kind)]) rest := by
  obtain ⟨hs', hkind⟩ := hphi.finish (by simp)
  have hk := hphi.moves.keepsOps
  have hmerges : Merges merge s s' := ⟨⟨hs', hphi.moves⟩, hphi.splices⟩
  have hself : s'.joint? phi = some ⟨.phi slot.kind, [some merge], [some slot.node]⟩ := by
    rw [hphi.joints, Function.update_self]
    rfl
  have hother {x : NodeId} (hx : x ≠ phi) : s'.joint? x = s.joint? x := by
    rw [hphi.joints, Function.update_of_ne hx]
  have hfresh {x : NodeId} (hx : x ∈ nodesIn done) : x ≠ phi := by
    rintro rfl
    obtain ⟨n, hn⟩ := h.fits.node?_of_mem hx
    rw [hphi.node?_eq_none] at hn
    cases hn
  refine ⟨h.merges.trans hmerges, h.keepsAlive.trans hphi.keepsAlive, fun t ht => ?_,
    fun t ht => h.left t (List.mem_cons_of_mem _ ht), fun x vs hx => ?_, fun x hx => ?_⟩
  · rcases List.mem_append.1 ht with ht | ht
    · exact h.fits.mono hk t ht
    · cases List.mem_singleton.1 ht
      exact hkind
  · rw [nodesIn_append, List.count_append]
    by_cases hp : x = phi
    · subst hp
      obtain ⟨-, rfl⟩ := hx.unique ⟨_, hself⟩
      rw [List.count_eq_zero_of_not_mem fun hmem => hfresh hmem rfl]
      simp [nodesIn, Slot.of]
    · obtain ⟨kind, hx⟩ := hx
      rw [hother hp] at hx
      obtain ⟨hone, hlen⟩ := h.phis x vs ⟨kind, hx⟩
      rw [hone, Nat.add_eq_left]
      exact ⟨List.count_eq_zero_of_not_mem (by simpa [nodesIn, Slot.of] using hp), hlen⟩
  · rw [nodesIn_append, List.mem_append] at hx
    rcases hx with hx | hx
    · obtain ⟨vs, kind, hj⟩ := h.all x hx
      exact ⟨vs, kind, by rw [hother (hfresh hx), hj]⟩
    · obtain rfl : x = phi := by simpa [nodesIn, Slot.of] using hx
      exact ⟨_, _, hself⟩

/-- Giving every slot a phi at the header of a loop that has no phis yet. -/
theorem meets_insertLoopPhis (hg : g.Growing) (hm : g.cls? merge = some .loopBegin) (hf : f.Fresh g)
    (hnone : ∀ x vs, ¬ IsPhi g.joint? merge x vs) :
    Meets (f.insertLoopPhis merge) g
      (fun f' g' => Merges merge g g' ∧ f'.Fits g' ∧ Heads g' merge f' ∧
        ∀ x vs, IsPhi g'.joint? merge x vs → vs.length = 1) IsStale := by
  have hopen : Opening g merge g [] f.slots :=
    ⟨.refl hg, fun _ => id, .nil, fun slot hs => ⟨hf.fits.slots slot hs,
      hf.alive _ (mem_nodesIn.2 ⟨slot, hs, rfl⟩)⟩, fun x vs hx => absurd hx (hnone x vs), nofun⟩
  refine (meets_mapSlots (Opening g merge) hopen fun s slot done rest h => ?_).imp fun f' g' h => ?_
  · cases slot with
    | none =>
      have hcount (x : NodeId) : (nodesIn (done ++ [none])).count x = (nodesIn done).count x := by
        simp [nodesIn]
      refine ⟨h.merges, h.keepsAlive, fun t ht => h.fits t (by simpa using ht),
        fun t ht => h.left t (List.mem_cons_of_mem _ ht), fun x vs hx => ?_, fun x hx => ?_⟩
      · rw [hcount]
        exact h.phis x vs hx
      · exact h.all x (by simpa [nodesIn] using hx)
    | some slot =>
      obtain ⟨hv, ha⟩ := h.left slot (by simp)
      have hk := h.merges.grown.2.keepsOps
      refine (meets_add_phi h.merges.grown.1 (hk merge _ hm) (.inr rfl) slot.kind).bind
        fun phi s1 h1 => ?_
      exact meets_bind.2 ((h1.meets_addPhiInput (hk.hasKind hv) (h.keepsAlive _ ha)).mono
        (fun _ s2 h2 => h.next h2) fun _ => False.elim)
  · obtain ⟨h, hlen⟩ := h
    refine ⟨h.merges, ⟨fun t ht => h.fits t (by simp [slots, ht]),
      fun t ht => h.fits t (by simp [slots, ht]), hlen.trans hf.fits.size⟩,
      ⟨fun x vs hx => (h.phis x vs hx).1, fun _ x hx _ => h.all x hx⟩, fun x vs hx => (h.phis x vs hx).2⟩

/-! ### Proxies at a loop exit -/

/-- A value that counts as computed before a loop is gone, if the frame at the header holds phis
only. -/
theorem meets_isFromBefore (hg : g.Growing) (hv : g.IsValue id) :
    Meets (isFromBefore header merge id) g
      (fun b g' => g' = g ∧ (b → g.isAlive id → id ∈ nodesIn header.slots ∧
        ∀ vs, ¬ IsPhi g.joint? merge id vs)) fail := by
  obtain ⟨c, hc, -⟩ := hv
  obtain ⟨n, hn, -⟩ := exists_node?_of_cls? hc
  unfold isFromBefore
  split
  · rename_i hcontains
    refine (meets_isPhiAt hn (hg.sound.fits id n hn)).bind ?_
    rintro isPhi g ⟨rfl, -, hiff⟩
    refine ⟨rfl, fun h ha => ⟨contains_iff.1 hcontains, fun vs hx => ?_⟩⟩
    rw [(hiff ha).2 ⟨vs, hx⟩] at h
    cases h
  · exact ⟨rfl, nofun⟩

theorem meets_intern_proxy (hg : g.Growing) {value : NodeId} {kind : Kind} (hv : g.HasKind value kind)
    (he : g.cls? exit = some .loopExit) :
    Meets (Graph.intern (.proxy kind value exit)) g
      (fun proxy g' => Extends g g' ∧ Quiet g g' ∧ g'.HasKind proxy kind ∧
        IsProxy g'.joint? exit proxy) IsStale := by
  refine (meets_intern_growing hg rfl ?_ fun id hid _ => ?_).imp fun proxy g' h => ?_
  · refine Node.fits_ofInputs (.cons (hv.fits (by decide) (.inl rfl)) (.cons (Node.linkFits_one
      (by decide) ?_) .nil))
    rintro _ ⟨⟩
    exact ⟨_, he, rfl⟩
  · refine ⟨.cons nofun (.cons nofun .nil), nofun, fun _ v hv' => ?_,
      Node.typed_ones [value, exit] nofun nofun (by simpa [Op.operandKind?] using hv.2)⟩
    obtain rfl : v = value := Option.some.inj (List.mem_singleton.1 hv')
    rw [hid]
    exact index_lt_of_isValue hv.1
  · have hproxy : g'.joint? proxy = some ⟨.proxy kind, [some value], [some exit]⟩ := by
      rw [h.joint]
      rfl
    refine ⟨⟨h.growing, h.moves⟩, h.quiet, ?_, kind, _, hproxy⟩
    have := hasKind_of_op? h.op? rfl
    rwa [show (Node.proxy kind value exit).op.valueKind = kind from rfl, hv.onStack] at this

/-- While slots get proxies at an exit: those that were changed hold its proxies, or nodes that are
gone. -/
structure Leaving (g : Graph) (exit : NodeId) (clean : Prop) (s : Graph)
    (done rest : List (Option Slot)) : Prop where
  grown : Extends g s
  quiet : Quiet g s
  fits : SlotsFit s done
  left : SlotsFit g rest
  proxies : clean → ∀ x ∈ nodesIn done, s.isAlive x = true → IsProxy s.joint? exit x

theorem Leaving.next {s s' : Graph} {slot slot' : Option Slot}
    (h : Leaving g exit clean s done (slot :: rest))
    (he : Extends s s') (hq : Quiet s s') (hs : SlotsFit s' [slot'])
    (hproxy : clean → ∀ v, slot' = some v → s'.isAlive v.node → IsProxy s'.joint? exit v.node) :
    Leaving g exit clean s' (done ++ [slot']) rest := by
  refine ⟨h.grown.trans he, h.quiet.trans hq, fun t ht => ?_,
    h.left.sub fun t ht => List.mem_cons_of_mem _ ht, fun hc x hx ha => ?_⟩
  · rcases List.mem_append.1 ht with ht | ht
    · exact h.fits.mono he.2.keepsOps t ht
    · exact hs t ht
  · rw [nodesIn_append, List.mem_append] at hx
    rcases hx with hx | hx
    · obtain ⟨n, hn⟩ := h.fits.node?_of_mem hx
      obtain ⟨kind, first, hj⟩ := h.proxies hc x hx (he.2.keepsOps.alive x _ (op?_of_node? hn) ha)
      exact ⟨kind, first, hq.joint? hj⟩
    · obtain ⟨v, hv, rfl⟩ := mem_nodesIn.1 hx
      exact hproxy hc v (List.mem_singleton.1 hv).symm ha

/-- Putting proxies at a loop exit. If the frame at the header holds phis only, all slots hold proxies
then, or nodes that are gone. -/
theorem meets_insertProxies (hg : g.Growing) (he : g.cls? exit = some .loopExit)
    (hf : f.Fits g) (hheader : clean → header.Fits g ∧ ∀ x ∈ nodesIn header.slots,
      g.isAlive x → ∃ vs, IsPhi g.joint? merge x vs) :
    Meets (f.insertProxies exit merge header) g
      (fun f' g' => Extends g g' ∧ Quiet g g' ∧ f'.Fits g' ∧
        (clean → ∀ x ∈ nodesIn f'.slots, g'.isAlive x → IsProxy g'.joint? exit x)) IsStale := by
  have hleaving : Leaving g exit clean g [] f.slots := ⟨.refl hg, .refl g, .nil, hf.slots, by rintro _ _ ⟨⟩⟩
  refine (meets_mapSlots (Leaving g exit clean) hleaving fun s slot done rest h => ?_).imp
    fun f' g' h => ⟨h.1.grown, h.1.quiet, ⟨fun t ht => h.1.fits t (by simp [slots, ht]),
      fun t ht => h.1.fits t (by simp [slots, ht]), h.2.trans hf.size⟩, h.1.proxies⟩
  have hk := h.grown.2.keepsOps
  cases slot with
  | none => exact h.next (.refl h.grown.1) (.refl s) SlotsFit.nil.cons_none (by rintro _ _ ⟨⟩)
  | some value =>
    have hv := hk.hasKind (h.left value (by simp))
    refine (meets_isFromBefore h.grown.1 hv.1).bind ?_
    rintro fromBefore s ⟨rfl, hbefore⟩
    split
    · rename_i hb
      refine h.next (.refl h.grown.1) (.refl s) (by simpa [SlotsFit] using hv) fun hc v hvalue ha => ?_
      obtain rfl : value = v := Option.some.inj hvalue
      -- the frame at the header has a phi here, which is no value from before
      obtain ⟨hmem, hnot⟩ := hbefore hb ha
      obtain ⟨hfits, hphis⟩ := hheader hc
      obtain ⟨n, hn⟩ := hfits.slots.node?_of_mem hmem
      obtain ⟨vs, hphi⟩ := hphis _ hmem (hk.alive _ _ (op?_of_node? hn) ha)
      exact absurd (h.quiet.grafts.isPhi hphi) (hnot vs)
    · refine (meets_intern_proxy h.grown.1 hv (hk exit _ he)).bind fun proxy s1 h1 => ?_
      obtain ⟨he1, hq1, hkind, hproxy⟩ := h1
      refine h.next he1 hq1 ?_ fun _ v hvalue _ => ?_
      · simpa [SlotsFit, Slot.of, hv.onStack] using hkind
      · obtain rfl : Slot.of proxy value.kind = v := Option.some.inj hvalue
        exact hproxy

/-! ### Frame states -/

/-- Registering a frame. A slot may hold a node that is gone. -/
theorem meets_materialize {gone : NodeId → Prop} (hg : g.GrowingBut gone) (hf : f.Fits g)
    (bci : Int32) :
    Meets (f.materialize bci) g
      (fun id g' => (g'.GrowingBut gone ∧ Moves g g' [] []) ∧ KeepsAlive g g' ∧ g'.cls? id = some .frameState ∧ Quiet g g' ∧
        (∃ op second, g'.joint? id = some ⟨op, f.slots.map fun slot => slot.map (·.node), second⟩ ∧
          op.cls = .frameState) ∧ ∀ x ∈ nodesIn f.slots, g'.isAlive x) IsStale := by
  have hnodes : (f.locals.map fun slot => slot.map (·.node)) ++
      (f.stack.reverse.map fun slot => slot.map (·.node)) = f.slots.map fun slot => slot.map (·.node) := by
    rw [slots, List.map_append]
  have hfits : (Node.frameState f.method bci (f.locals.map fun slot => slot.map (·.node))
      (f.stack.reverse.map fun slot => slot.map (·.node)) f.rethrow).Fits g.cls? := by
    refine Node.fits_ofInputs (.cons ⟨rfl, fun t ht => ?_⟩ (.cons (Node.linkFits_one (by decide)
      (by rintro _ ⟨⟩)) .nil))
    replace ht : some t ∈ f.slots.map fun slot => slot.map (·.node) := hnodes ▸ ht
    obtain ⟨slot, hmem, hslot⟩ := List.mem_map.1 ht
    obtain ⟨s, rfl, rfl⟩ := Option.map_eq_some_iff.1 hslot
    exact (hf.slots s hmem).1
  refine (meets_add_ofInputs hg rfl hfits (by rintro ⟨⟩) fun id _ _ => ?_).imp fun id g' h => ?_
  · exact Node.filled_of_cls (by rintro ⟨⟩) (by rintro ⟨⟩) (.cons (by rintro ⟨⟩) (.cons (by rintro ⟨⟩) .nil))
      (Node.typed_plain (by rintro ⟨⟩) (by rintro ⟨⟩) fun field => rfl)
  · obtain ⟨op, second, hj, hop⟩ : ∃ op second, g'.joint? id =
        some ⟨op, f.slots.map fun slot => slot.map (·.node), second⟩ ∧ op.cls = .frameState := by
      rw [h.joints, Function.update_self, ← hnodes]
      exact ⟨_, _, rfl, rfl⟩
    have hnone : g.joint? id = none := joint?_eq_none_of_fresh (node?_eq_none_of_bound h.fresh)
    refine ⟨⟨h.growing, h.moves_ofInputs (by rintro ⟨⟩) (heldBy_eq_nil hfits (by rintro ⟨⟩))⟩, h.keepsAlive,
      cls?_of_node? h.node, .of_update h.joints hnone ?_, ⟨_, _, hj, hop⟩, fun x hx => ?_⟩
    · rintro _ ⟨⟩
      exact .inr rfl
    · obtain ⟨s, hs, rfl⟩ := mem_nodesIn.1 hx
      exact h.growing.sound.consistent.isAlive_first hj (List.mem_map.2 ⟨_, hs, rfl⟩)

end

end Frame

end SeaOfNodes
