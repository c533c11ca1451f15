import SeaOfNodes.Proofs.Frame.Deletion
import SeaOfNodes.Proofs.Frame.Values

/-!
# Merging frames in a growing graph

Merging a frame into that of a merge keeps a graph growing, adds no notes, and gives a frame that fits.
It may have to delete a phi, and fails if a node that stays uses it. Every phi of the merge stands in
one slot of its frame, and gets one value more.
-/

namespace SeaOfNodes

open Graph

variable {slot : Option Slot}

theorem Frame.mem_aliveSlot {g : Graph} {s : Slot} (h : aliveSlot g slot = some s) :
    slot = some s ∧ g.isAlive s.node :=
  Option.filter_eq_some_iff.1 h

variable {f : Frame}

theorem Frame.length_stack_of_isCompatible {other : Frame} (h : f.isCompatible other) :
    f.stack.length = other.stack.length := by
  simpa using congrArg List.length (beq_iff_eq.1 h)

variable [Source] {g g' g1 g2 : Graph} {phi merge t : NodeId} {kind : Kind} {values : List NodeId}
  {c : NodeClass}

/-! ### Building a phi -/

/-- A phi of `merge` that was registered in `g`, with the values that it has got. -/
structure PhiOn (g g1 : Graph) (merge phi : NodeId) (kind : Kind) (values : List NodeId) : Prop where
  growing : g1.GrowingBut (· = phi)
  moves : Moves g g1 [] []
  keepsAlive : KeepsAlive g g1
  fresh : phi.index = g.bound
  alive : g1.isAlive phi = true
  older : ∀ v ∈ values, v.index < phi.index
  node : ∃ n, g1.node? phi = some n ∧ n.op = .phi kind ∧ n.slotsAt .inputs 0 = [some merge] ∧
    n.slotsAt .inputs 1 = values.map some ∧ n.Typed Source.method g1.op?
  joints : g1.joint? =
    Function.update g.joint? phi (some ⟨.phi kind, [some merge], values.map some⟩)

theorem filled_of_phi {n : Node} {cls? : NodeId → Option NodeClass} {op? : NodeId → Option Op}
    (hc : n.cls = .phi) (hf : n.Fits cls?) (hmerge : none ∉ n.slotsAt .inputs 0)
    (hvalues : none ∉ n.slotsAt .inputs 1)
    (hhead : ∃ t, (n.slotsAt .inputs 1).head? = some (some t) ∧ t.index < phi.index)
    (ht : n.Typed Source.method op?) : n.Filled op? phi := by
  have hlayout : n.layout.inputs = [.one "merge" .association, .many "values"] := by
    show n.cls.layout.inputs = _
    rw [hc]; rfl
  have hlen := (Node.forall₂_iff_getElem?.1 (hf .inputs)).1
  refine ⟨Node.forall₂_iff_getElem?.2 ⟨hlen, fun i spec link hspec hlink hs => ?_⟩,
    fun _ => ⟨hvalues, hhead⟩, fun h => absurd (hc.symm.trans h) nofun, ht⟩
  cases i with
  | zero => rwa [← Node.slotsAt_of_getElem? (d := .inputs) hlink]
  | succ i =>
    cases i with
    | zero =>
      obtain rfl : FieldSpec.many "values" = spec := by simpa [hlayout] using hspec
      cases hs
    | succ i => simp [hlayout] at hspec

theorem meets_add_phi (hg : g.Growing) (hm : g.cls? merge = some c)
    (hc : c = .merge ∨ c = .loopBegin) (kind : Kind) :
    Meets (Graph.add (.phi kind merge)) g (fun phi g' => PhiOn g g' merge phi kind []) IsStale := by
  have hfits : (Node.phi kind merge).Fits g.cls? := by
    refine Node.fits_ofInputs (.cons (Node.linkFits_one (by decide) ?_) (.cons ⟨rfl, nofun⟩ .nil))
    rintro _ ⟨⟩
    exact ⟨c, hm, by rcases hc with rfl | rfl <;> rfl⟩
  have hg' : g.GrowingBut fun x => x.index = g.bound := hg.mono fun _ h => h.elim
  refine (meets_add_ofInputs hg' rfl hfits nofun fun id hid hgone => absurd hid hgone).imp
    fun phi g' h => ?_
  refine ⟨h.growing.mono fun x hx => ?_, h.moves_ofInputs nofun (heldBy_eq_nil hfits nofun),
    h.keepsAlive, h.fresh, h.alive, nofun, ⟨_, h.node, rfl, rfl, rfl, ?_⟩, h.joints⟩
  · cases x; cases phi
    exact congrArg _ (hx.trans h.fresh.symm)
  · refine Node.typed_of_operands nofun nofun fun field kind' hk t ht => ?_
    -- a phi has operands in its second field only, and that is empty
    match field with
    | 0 => cases hk
    | 1 => cases ht
    | _ + 2 => cases hk

section

variable (h : PhiOn g g1 merge phi kind values)

include h

/-- A phi gets one more value. -/
theorem PhiOn.meets_addPhiInput (hv : g.HasKind t kind) (ha : g.isAlive t) :
    Meets (addPhiInput phi (some t)) g1 (fun _ g2 => PhiOn g g2 merge phi kind (values ++ [t]))
      (fun _ => False) := by
  obtain ⟨n, hn, hop, hmerge, hvalues, ht⟩ := h.node
  refine (meets_addPhiInput_growing h.growing hn hop h.alive (h.keepsAlive t ha)
    (h.moves.keepsOps.hasKind hv)).imp fun _ g2 h2 => ?_
  obtain ⟨hg2, hm2, ha2, n', hn', hop', hmerge', hvalues', ht', hj⟩ := h2
  have hslots : n'.slotsAt .inputs 1 = (values ++ [t]).map some := by
    rw [hvalues', hvalues, List.map_append]
    rfl
  refine ⟨hg2, h.moves.trans hm2, h.keepsAlive.trans ha2, h.fresh, ha2 phi h.alive, fun v hv => ?_,
    ⟨n', hn', hop'.trans hop, hmerge'.trans hmerge, hslots, ht' ht⟩, ?_⟩
  · rcases List.mem_append.1 hv with hv | hv
    · exact h.older v hv
    · rw [List.mem_singleton.1 hv, h.fresh]
      exact index_lt_of_isAlive ha
  · rw [hj, h.joints, Function.update_idem, Node.joint?_of_phi (hop'.trans hop), hmerge', hmerge, hslots]

/-- A phi that has a value is finished. -/
theorem PhiOn.finish (hne : values ≠ []) :
    g1.Growing ∧ g1.HasKind phi kind.onStack := by
  obtain ⟨n, hn, hop, hmerge, hvalues, ht⟩ := h.node
  refine ⟨⟨{ h.growing.sound with filled := fun x m hm ha _ => ?_ }, h.growing.deleted⟩,
    hasKind_of_op? (show g1.op? phi = some (.phi kind) from
      (op?_of_node? hn).trans (congrArg some hop)) rfl⟩
  by_cases hx : x = phi
  · subst hx
    obtain rfl : n = m := Option.mem_unique hn hm
    obtain ⟨v, vs, rfl⟩ := List.exists_cons_of_ne_nil hne
    refine filled_of_phi (congrArg Op.cls hop) (h.growing.sound.fits x n hn) (by simp [hmerge])
      (by simp [hvalues]) ⟨v, ?_, h.older v (by simp)⟩ ht
    rw [hvalues]
    rfl
  · exact h.growing.sound.filled x m hm ha hx

theorem PhiOn.node?_eq_none : g.node? phi = none :=
  node?_eq_none_of_bound h.fresh

/-- A new phi and nothing else. -/
theorem PhiOn.splices : Splices merge g g1 := by
  refine ⟨fun x hx => ?_, fun x hx => ?_⟩ <;> rw [h.joints]
  · rw [Function.update_of_ne]
    · exact .refl ..
    · rintro rfl
      simp [h.node?_eq_none] at hx
  · by_cases hp : x = phi
    · subst hp
      exact .inr ⟨_, kind, Function.update_self ..⟩
    · rw [Function.update_of_ne hp]
      exact .inl (joint?_eq_none_of_fresh hx)

end

/-! ### Slots -/

/-- What may fail where frames are merged: a phi that has to go is in use. -/
def InUse (cause : Fault) : Prop := IsStale cause ∨ ∃ id, cause = .phiInUse id

/-- Where the phis of a merge stand while frames are merged: in a slot that was merged, with a value
more than before, or in one that is left. At a loop, all slots hold phis. -/
structure Threads (g : Graph) (merge : NodeId) (count : Nat) (done rest : List (Option Slot)) : Prop where
  phis : ∀ x values, IsPhi g.joint? merge x values →
    (nodesIn done).count x = 1 ∧ (nodesIn rest).count x = 0 ∧ values.length = count + 1 ∨
    (nodesIn done).count x = 0 ∧ (nodesIn rest).count x = 1 ∧ values.length = count
  loop : g.cls? merge = some .loopBegin → ∀ x ∈ nodesIn (done ++ rest), g.isAlive x = true →
    ∃ values, IsPhi g.joint? merge x values
  sides : g.cls? merge = some .merge → Sides g.joint? merge count

/-- The graph grows, and what happens to the joints is what merging frames does. -/
structure Merges (merge : NodeId) (g g' : Graph) : Prop where
  grown : Extends g g'
  splices : Splices merge g g'

theorem Merges.refl (hg : g.Growing) : Merges merge g g := ⟨.refl hg, .refl merge g⟩

theorem Merges.trans (h : Merges merge g g1) (h' : Merges merge g1 g2) : Merges merge g g2 :=
  ⟨h.grown.trans h'.grown, h.splices.trans h.grown.2.keepsOps h'.splices⟩

/-- One more slot is merged. Its phi has got a value, or is no more, and other phis are as before. -/
theorem Threads.advance {count : Nat} {done rest : List (Option Slot)} {current : Option Slot}
    (h : Threads g merge count done (current :: rest)) (hm : Merges merge g g')
    (hfits : SlotsFit g (done ++ rest))
    (hphis : ∀ x vs, IsPhi g'.joint? merge x vs →
      (∃ s, slot = some s ∧ s.node = x) ∧ vs.length = count + 1 ∧ x ∉ nodesIn (done ++ rest) ∨
      IsPhi g.joint? merge x vs ∧ (∀ s, current = some s → s.node ≠ x) ∧ ∀ s, slot = some s → s.node ≠ x)
    (hloop : g.cls? merge = some .loopBegin → ∀ s, slot = some s → g'.isAlive s.node →
      ∃ vs, IsPhi g'.joint? merge s.node vs)
    (hcls : ∃ c, g.cls? merge = some c) :
    Threads g' merge count (done ++ [slot]) rest := by
  have hk := hm.grown.2.keepsOps
  obtain ⟨c, hc⟩ := hcls
  have hback {c' : NodeClass} (hc' : g'.cls? merge = some c') : g.cls? merge = some c' := by
    rwa [← hc', hk merge c hc]
  refine ⟨fun x vs hx => ?_, fun hl x hx ha => ?_, fun hl => ?_⟩
  · rcases hphis x vs hx with ⟨⟨s, rfl, rfl⟩, hlen, hnot⟩ | ⟨hx, hcur, hslot⟩
    · rw [nodesIn_append, List.mem_append, not_or] at hnot
      refine .inl ⟨?_, List.count_eq_zero_of_not_mem hnot.2, hlen⟩
      rw [nodesIn_append, List.count_append, List.count_eq_zero_of_not_mem hnot.1]
      simp [nodesIn]
    · have hcount : (nodesIn (current :: rest)).count x = (nodesIn rest).count x := by
        cases current with
        | none => rfl
        | some s => exact List.count_cons_of_ne (hcur s rfl)
      have hcount' : (nodesIn (done ++ [slot])).count x = (nodesIn done).count x := by
        rw [nodesIn_append, List.count_append, Nat.add_eq_left]
        cases slot with
        | none => rfl
        | some s => simpa [nodesIn] using List.count_eq_zero_of_not_mem (by simpa using (hslot s rfl).symm)
      rw [hcount']
      rw [← hcount]
      exact h.phis x vs hx
  · rw [List.append_assoc, nodesIn_append, List.singleton_append, List.mem_append] at hx
    have hold (hmem : x ∈ nodesIn (done ++ rest)) : ∃ values, IsPhi g'.joint? merge x values := by
      obtain ⟨n, hn⟩ := hfits.node?_of_mem hmem
      obtain ⟨vs, hphi⟩ := h.loop (hback hl) x
        (by simp only [nodesIn_append, List.mem_append] at hmem ⊢
            exact hmem.imp_right fun hr => by cases current <;> simp [hr])
        (hk.alive x _ (op?_of_node? hn) ha)
      exact hm.splices.exists_isPhi hk hphi ha
    rcases hx with hx | hx
    · exact hold (by rw [nodesIn_append]; exact List.mem_append_left _ hx)
    · cases slot with
      | none => exact hold (by rw [nodesIn_append]; exact List.mem_append_right _ hx)
      | some s =>
        rcases List.mem_cons.1 hx with rfl | hx
        · exact hloop (hback hl) s rfl ha
        · exact hold (by rw [nodesIn_append]; exact List.mem_append_right _ hx)
  · cases h.sides (hback hl) with
    | merge ends hj => exact .merge ends ((hm.splices.joint?_iff rfl).2 hj)
    | loop ends back hj hl' =>
      have := (of_joint? hj).2
      rw [cls?_eq_map_op?, (of_joint? ((hm.splices.joint?_iff rfl).2 hj)).2] at hl
      cases hl

/-- A phi has a kind of the stack. -/
theorem onStack_of_phi {n : Node} {id : NodeId} (hf : n.Filled g.op? id) (hop : n.op = .phi kind) :
    kind.onStack = kind := by
  obtain ⟨-, v, hv, -⟩ := hf.phi (congrArg Op.cls hop)
  obtain ⟨op, -, rfl⟩ := hf.typed.operands 1 kind (by rw [hop]; rfl) v (List.mem_of_mem_head? hv)
  exact Kind.onStack_onStack _

namespace Frame

variable {phi : NodeId}

theorem Prunes.merges (h : Prunes phi g g') (merge : NodeId) : Merges merge g g' := by
  refine ⟨h.grown, fun x _ => h.joints merge x, fun x hx => .inl ?_⟩
  have := h.joints merge x
  rw [joint?_eq_none_of_fresh hx] at this
  exact this.of_none

variable {vs : List (Option NodeId)}

/-- A deletion gives no phi other values. -/
theorem Prunes.isPhi (h : Prunes phi g g') {x : NodeId}
    (hx : IsPhi g'.joint? merge x vs) : IsPhi g.joint? merge x vs := by
  obtain ⟨kind, hx⟩ := hx
  have := h.joints ⟨merge.index + 1⟩ x
  rw [hx] at this
  refine ⟨kind, this.eq_of_phi ?_⟩
  cases merge
  simp

/-- A new phi for a slot that had one value at all sides but the new one. -/
theorem meets_mergePhi (hg : g.Growing) (hm : g.cls? merge = some c)
    (hc : c = .merge ∨ c = .loopBegin) {x y : NodeId} (hx : g.HasKind x kind)
    (hxa : g.isAlive x) (hy : g.HasKind y kind) (hya : g.isAlive y) :
    Meets (do
        let phi ← Graph.add (.phi kind merge)
        for _ in List.range (← phiValueCount merge) do Graph.addPhiInput phi (some x)
        Graph.addPhiInput phi (some y)
        return some (Slot.of phi kind)) g
      (fun slot g' => ∃ phi values, slot = some (Slot.of phi kind) ∧
        PhiOn g g' merge phi kind values ∧ values ≠ [] ∧
        ∀ ends, g.joint? merge = some ⟨.merge, ends, []⟩ → values.length = ends.length + 1) InUse := by
  refine meets_bind.2 ((meets_add_phi hg hm hc kind).mono (fun phi g1 h1 => ?_) fun _ => .inl)
  refine (meets_phiValueCount h1.growing.sound.consistent h1.growing.sound.fits
    (h1.moves.keepsOps merge c hm) hc).bind ?_
  rintro count g1 ⟨rfl, hcount⟩
  refine (Meets.forIn_range (fun k s => PhiOn g s merge phi kind (List.replicate k x)) h1
    fun k _ s hs => ?_).bind fun _ g2 h2 => ?_
  · refine meets_bind.2 ((hs.meets_addPhiInput hx hxa).mono (fun _ s' h => ⟨rfl, ?_⟩)
      fun _ => False.elim)
    rwa [List.replicate_succ']
  · refine meets_bind.2 ((h2.meets_addPhiInput hy hya).mono (fun _ g3 h3 => ?_) fun _ => False.elim)
    refine ⟨phi, _, rfl, h3, by simp, fun ends hends => ?_⟩
    have hne : merge ≠ phi := by
      rintro rfl
      rw [joint?_eq_none_of_fresh h1.node?_eq_none] at hends
      cases hends
    have := hcount _ (.merge ends (by rw [h1.joints, Function.update_of_ne hne, hends]))
    simp only [List.length_append, List.length_replicate, List.length_singleton]
    omega

section

variable {c : NodeClass} {current other : Option Slot} {done rest : List (Option Slot)} {count : Nat}

/-- What merging a slot gives. -/
def SlotMerged (g : Graph) (merge : NodeId) (count : Nat) (done rest : List (Option Slot))
    (slot : Option Slot) (g' : Graph) : Prop :=
  Merges merge g g' ∧ SlotsFit g' [slot] ∧ Threads g' merge count (done ++ [slot]) rest

/-- A slot that is empty after the merge, where its phi is gone, if it had one. -/
theorem slotMerged_none (hm : g.cls? merge = some c) (hg : Merges merge g g')
    (hothers : SlotsFit g (done ++ rest))
    (ht : Threads g merge count done (current :: rest))
    (hphis : ∀ x vs, IsPhi g'.joint? merge x vs →
      IsPhi g.joint? merge x vs ∧ ∀ s, current = some s → s.node ≠ x) :
    SlotMerged g merge count done rest none g' :=
  ⟨hg, SlotsFit.nil.cons_none, ht.advance hg hothers
    (fun x vs hx => .inr ⟨(hphis x vs hx).1, (hphis x vs hx).2, nofun⟩) nofun ⟨c, hm⟩⟩

/-- A slot that gets a new phi. There is none at a loop, where all slots have phis. -/
theorem slotMerged_phi {cur : Slot} (hm : g.cls? merge = some c) (hc : c = .merge ∨ c = .loopBegin)
    (hothers : SlotsFit g (done ++ rest)) (ht : Threads g merge count done (some cur :: rest))
    (ha : g.isAlive cur.node) (hne : ∀ x vs, IsPhi g.joint? merge x vs → cur.node ≠ x)
    (hphi : PhiOn g g' merge phi kind values) (hvalues : values ≠ [])
    (hlen : ∀ ends, g.joint? merge = some ⟨.merge, ends, []⟩ → values.length = ends.length + 1) :
    SlotMerged g merge count done rest (some (Slot.of phi kind)) g' := by
  obtain ⟨hg', hkind⟩ := hphi.finish hvalues
  have hmerges : Merges merge g g' := ⟨⟨hg', hphi.moves⟩, hphi.splices⟩
  have hloop : g.cls? merge ≠ some .loopBegin := fun hl => by
    obtain ⟨vs, hx⟩ := ht.loop hl cur.node (by simp) ha
    exact hne _ vs hx rfl
  have hmerge : g.cls? merge = some .merge := by
    rcases hc with rfl | rfl
    · exact hm
    · exact absurd hm hloop
  have hcount : values.length = count + 1 := by
    cases ht.sides hmerge with
    | merge ends hj => exact hlen ends hj
    | loop ends back hj =>
      rw [cls?_eq_map_op?, (of_joint? hj).2] at hmerge
      cases hmerge
  refine ⟨hmerges, by simpa [SlotsFit, Slot.of] using hkind,
    ht.advance hmerges hothers (fun x vs hx => ?_) (fun hl => absurd hl hloop) ⟨c, hm⟩⟩
  obtain ⟨kind', hx⟩ := hx
  rw [hphi.joints] at hx
  rcases joint_of_update hx with ⟨rfl, hj⟩ | ⟨hp, hx⟩
  · obtain rfl : values.map some = vs := by
      cases hj
      rfl
    refine .inl ⟨⟨_, rfl, rfl⟩, by simpa using hcount, fun hmem => ?_⟩
    obtain ⟨n, hn⟩ := hothers.node?_of_mem hmem
    rw [hphi.node?_eq_none] at hn
    cases hn
  · refine .inr ⟨⟨kind', hx⟩, ?_, ?_⟩
    · rintro _ ⟨⟩
      exact hne x vs ⟨kind', hx⟩
    · rintro _ ⟨⟩
      exact Ne.symm hp

/-- A slot that keeps its phi, which gets one more value. -/
theorem meets_mergeValue {cur : Slot} (hg : g.Growing)
    (hm : g.cls? merge = some c) (hcur : g.HasKind cur.node cur.kind)
    (hothers : SlotsFit g (done ++ rest)) (ht : Threads g merge count done (some cur :: rest))
    (hphi : IsPhi g.joint? merge cur.node vs) (hv : g.HasKind t cur.kind) (ha : g.isAlive t) :
    Meets (addPhiInput cur.node (some t)) g
      (fun _ g' => SlotMerged g merge count done rest (some cur) g') (fun _ => False) := by
  obtain ⟨kind, hj⟩ := hphi
  obtain ⟨hca, hop⟩ := of_joint? hj
  obtain ⟨n, hn⟩ := exists_node?_of_isAlive hca
  have hnop : n.op = .phi kind := Option.mem_unique (op?_of_node? hn) hop
  obtain ⟨hmerge, rfl⟩ : n.slotsAt .inputs 0 = [some merge] ∧ n.slotsAt .inputs 1 = vs := by
    simpa [joint?_of_node? hn hca, Node.joint?_of_phi hnop] using hj
  have hkind : cur.kind = kind := by
    obtain ⟨-, op, hop', hk⟩ := hcur
    obtain rfl : op = .phi kind := Option.mem_unique hop' hop
    rw [← hk, ← onStack_of_phi (hg.sound.filled _ n hn hca id) hnop]
    exact Kind.onStack_onStack _
  refine (meets_addPhiInput_growing hg hn hnop hca ha (hkind ▸ hv)).imp fun _ g' h => ?_
  obtain ⟨hg', hm', -, n', -, hop', hmerge', hvalues', -, hj'⟩ := h
  have hphi : n'.joint? = some ⟨.phi kind, [some merge], n.slotsAt .inputs 1 ++ [some t]⟩ := by
    rw [Node.joint?_of_phi (hop'.trans hnop), hmerge', hmerge, hvalues']
  rw [hphi] at hj'
  have hmerges : Merges merge g g' := by
    refine ⟨⟨hg', hm'⟩, fun x _ => ?_, fun x hx => .inl ?_⟩ <;> rw [hj']
    · by_cases hx : x = cur.node
      · subst hx
        rw [Function.update_self, hj]
        exact .stays ⟨rfl, nofun, fun _ => .inr ⟨rfl, rfl⟩⟩
      · rw [Function.update_of_ne hx]
        exact .refl ..
    · rw [Function.update_of_ne, joint?_eq_none_of_fresh hx]
      rintro rfl
      simp [hx] at hn
  -- the phi stands in this slot only, and has no value more yet
  obtain ⟨hdone, hrest, hlen⟩ : (nodesIn done).count cur.node = 0 ∧
      (nodesIn rest).count cur.node = 0 ∧ (n.slotsAt .inputs 1).length = count := by
    have := ht.phis _ _ ⟨kind, hj⟩
    simp only [nodesIn_cons_some, List.count_cons_self] at this
    omega
  refine ⟨hmerges, by simpa [SlotsFit] using hm'.keepsOps.hasKind hcur,
    ht.advance hmerges hothers (fun x vs hx => ?_) (fun _ => ?_) ⟨c, hm⟩⟩
  · obtain ⟨kind', hx⟩ := hx
    rw [hj'] at hx
    rcases joint_of_update hx with ⟨rfl, hj⟩ | ⟨hp, hx⟩
    · obtain rfl : n.slotsAt .inputs 1 ++ [some t] = vs := by
        cases hj
        rfl
      refine .inl ⟨⟨_, rfl, rfl⟩, by simp [hlen], ?_⟩
      rw [nodesIn_append, List.mem_append, not_or]
      exact ⟨List.count_eq_zero.1 hdone, List.count_eq_zero.1 hrest⟩
    · refine .inr ⟨⟨kind', hx⟩, ?_, ?_⟩ <;>
      · rintro _ ⟨⟩
        exact Ne.symm hp
  · rintro _ ⟨⟩ -
    exact ⟨_, kind, by rw [hj', Function.update_self]⟩

/-- A slot of a merge gets one more value: it keeps its phi, loses it, or gets a new one. -/
theorem meets_mergeSlot (hg : g.Growing) (hm : g.cls? merge = some c)
    (hc : c = .merge ∨ c = .loopBegin) (hfits : SlotsFit g [current, other])
    (hothers : SlotsFit g (done ++ rest)) (ht : Threads g merge count done (current :: rest)) :
    Meets (mergeSlot merge current other) g (SlotMerged g merge count done rest) InUse := by
  unfold mergeSlot
  refine meets_read.2 ?_
  cases hcur : aliveSlot g current with
  | none =>
    refine slotMerged_none hm (.refl hg) hothers ht fun x vs hx => ⟨hx, ?_⟩
    rintro s rfl rfl
    obtain ⟨kind, hx⟩ := hx
    simp [aliveSlot, (of_joint? hx).1] at hcur
  | some cur =>
    obtain ⟨rfl, ha⟩ := mem_aliveSlot hcur
    have hv := hfits cur (by simp)
    have hcurrent : SlotsFit g [some cur] := hfits.sub (by simp)
    obtain ⟨n, hn⟩ := exists_node?_of_isAlive ha
    have hother (slot : Slot) (h : (aliveSlot g other).filter (·.kind = cur.kind) = some slot) :
        g.HasKind slot.node cur.kind ∧ g.isAlive slot.node := by
      obtain ⟨hslot, hkind⟩ := Option.filter_eq_some_iff.1 h
      obtain ⟨rfl, ha⟩ := mem_aliveSlot hslot
      exact ⟨of_decide_eq_true hkind ▸ hfits slot (by simp), ha⟩
    refine (meets_isPhiAt hn (hg.sound.fits _ n hn)).bind ?_
    rintro isPhi g ⟨rfl, hphi, hiff⟩
    replace hiff := hiff ha
    cases isPhi with
    | true =>
      simp only [if_true]
      obtain ⟨vs, kind, hj⟩ := hiff.1 rfl
      cases ho : (aliveSlot g other).filter (·.kind = cur.kind) with
      | some o =>
        obtain ⟨hvt, hat⟩ := hother o ho
        exact meets_bind.2 ((meets_mergeValue hg hm hv hothers ht ⟨kind, hj⟩ hvt hat).mono
          (fun _ _ h => h) fun _ => False.elim)
      | none =>
        refine meets_bind.2 ((meets_deletePhi_growing hg (cls?_of_node? hn) (by rw [hphi rfl]; rfl) ha).mono
          (fun _ g1 h1 => ?_) fun _ => .inr)
        refine slotMerged_none hm (h1.merges merge) hothers ht fun x vs hx => ⟨h1.isPhi hx, ?_⟩
        rintro _ ⟨⟩ rfl
        obtain ⟨kind, hx⟩ := hx
        have := h1.gone
        simp [(of_joint? hx).1] at this
    | false =>
      simp only [Bool.false_eq_true, if_false]
      have hne (x : NodeId) (vs : List (Option NodeId)) (hx : IsPhi g.joint? merge x vs) :
          cur.node ≠ x := by
        rintro rfl
        cases hiff.2 ⟨vs, hx⟩
      split
      · refine ⟨.refl hg, hcurrent, ht.advance (.refl hg) hothers (fun x vs hx => .inr ⟨hx, ?_, ?_⟩)
          (fun hl => ?_) ⟨c, hm⟩⟩
        · rintro _ ⟨⟩
          exact hne x vs hx
        · rintro _ ⟨⟩
          exact hne x vs hx
        · rintro _ ⟨⟩ -
          exact ht.loop hl cur.node (by simp) ha
      · cases ho : (aliveSlot g other).filter (·.kind = cur.kind) with
        | none =>
          refine slotMerged_none hm (.refl hg) hothers ht fun x vs hx => ⟨hx, ?_⟩
          rintro _ ⟨⟩
          exact hne x vs hx
        | some o =>
          refine (meets_mergePhi hg hm hc hv ha (hother o ho).1 (hother o ho).2).imp fun slot g' h => ?_
          obtain ⟨phi, values, rfl, hphi, hvalues, hlen⟩ := h
          exact slotMerged_phi hm hc hothers ht ha hne hphi hvalues hlen

theorem meets_mergeSlots {slots others : List (Option Slot)} (hg : g.Growing)
    (hm : g.cls? merge = some c) (hc : c = .merge ∨ c = .loopBegin)
    (hlen : slots.length = others.length) (hs : SlotsFit g (done ++ (slots ++ rest)))
    (ho : SlotsFit g others) (ht : Threads g merge count done (slots ++ rest)) :
    Meets (mergeSlots merge slots others) g
      (fun slots' g' => Merges merge g g' ∧ SlotsFit g' slots' ∧ slots'.length = slots.length ∧
        Threads g' merge count (done ++ slots') rest) InUse := by
  induction slots generalizing g others done with
  | nil => exact ⟨.refl hg, .nil, rfl, by simpa using ht⟩
  | cons current slots ih =>
    cases others with
    | nil => cases hlen
    | cons other others =>
      unfold mergeSlots
      have hpair : SlotsFit g [current, other] := fun slot hslot => by
        rcases List.mem_cons.1 hslot with hslot | hslot
        · exact hs slot (by simp [hslot])
        · exact ho slot (by simp [List.mem_singleton.1 hslot])
      have hothers : SlotsFit g (done ++ (slots ++ rest)) := hs.sub fun slot hslot => by
        simp only [List.cons_append, List.mem_append, List.mem_cons] at hslot ⊢
        tauto
      refine (meets_mergeSlot hg hm hc hpair hothers ht).bind fun slot g1 h1 => ?_
      obtain ⟨hm1, hslot, ht1⟩ := h1
      have hk := hm1.grown.2.keepsOps
      have hs1 : SlotsFit g1 (done ++ [slot] ++ (slots ++ rest)) := fun s hs' => by
        simp only [List.append_assoc, List.mem_append] at hs'
        rcases hs' with hs' | hs' | hs'
        · exact hothers.mono hk s (by simp [hs'])
        · exact hslot s hs'
        · exact hothers.mono hk s (by simp only [List.mem_append]; exact .inr hs')
      refine (ih hm1.grown.1 (hk merge c hm) (Nat.succ.inj hlen) hs1
        ((ho.sub fun _ h => List.mem_cons_of_mem _ h).mono hk) ht1).bind fun slots' g2 h2 => ?_
      obtain ⟨hm2, hfits2, hlen2, ht2⟩ := h2
      refine ⟨hm1.trans hm2, fun s hs' => ?_, by simp [hlen2], by simpa using ht2⟩
      rcases List.mem_cons.1 hs' with hs' | hs'
      · exact hm2.grown.2.keepsOps.hasKind (hslot s (by simp [hs']))
      · exact hfits2 s hs'

/-! ### Frames -/

/-- How the phis of a merge stand in its frame: each in one slot, and at a loop in all slots. -/
structure Heads (g : Graph) (merge : NodeId) (f : Frame) : Prop where
  once : ∀ x values, IsPhi g.joint? merge x values → (nodesIn f.slots).count x = 1
  loop : g.cls? merge = some .loopBegin → ∀ x ∈ nodesIn f.slots, g.isAlive x = true →
    ∃ values, IsPhi g.joint? merge x values

theorem Fits.slots (h : f.Fits g) : SlotsFit g f.slots := fun slot hs => by
  rcases List.mem_append.1 hs with hs | hs
  · exact h.locals slot hs
  · exact slotsFit_reverse.2 h.stack slot hs

/-- Merging frames gives a frame that fits, in which every phi has got one more value. -/
theorem meets_mergeWith {other : Frame} (hg : g.Growing) (hm : g.cls? merge = some c)
    (hc : c = .merge ∨ c = .loopBegin) (hf : f.Fits g) (ho : other.Fits g)
    (hlen : f.stack.length = other.stack.length) (hheads : Heads g merge f)
    (hcount : ∀ x vs, IsPhi g.joint? merge x vs → vs.length = count)
    (hsides : g.cls? merge = some .merge → Sides g.joint? merge count) :
    Meets (f.mergeWith merge other) g
      (fun f' g' => Merges merge g g' ∧ f'.Fits g' ∧ Heads g' merge f' ∧
        ∀ x vs, IsPhi g'.joint? merge x vs → vs.length = count + 1) InUse := by
  have ht : Threads g merge count [] (f.locals ++ f.stack.reverse) :=
    ⟨fun x vs hx => .inr ⟨rfl, hheads.once x vs hx, hcount x vs hx⟩, hheads.loop, hsides⟩
  unfold mergeWith
  refine (meets_mergeSlots hg hm hc (hf.size.trans ho.size.symm) hf.slots ho.locals ht).bind
    fun locals g1 h1 => ?_
  obtain ⟨hm1, hfits1, hlen1, ht1⟩ := h1
  have hk := hm1.grown.2.keepsOps
  have hs1 : SlotsFit g1 (locals ++ (f.stack.reverse ++ [])) := fun s hs => by
    rw [List.append_nil, List.mem_append] at hs
    rcases hs with hs | hs
    · exact hfits1 s hs
    · exact slotsFit_reverse.2 (hf.stack.mono hk) s hs
  refine (meets_mergeSlots hm1.grown.1 (hk merge c hm) hc (by simpa using hlen) hs1
    (slotsFit_reverse.2 (ho.stack.mono hk)) (by simpa using ht1)).bind fun stack g2 h2 => ?_
  obtain ⟨hm2, hfits2, -, ht2⟩ := h2
  have hslots : Frame.slots { f with locals, stack := stack.reverse } = locals ++ stack := by
    simp [Frame.slots]
  -- all slots are merged, so that every phi has got its value
  have hphis (x : NodeId) (vs : List (Option NodeId)) (hx : IsPhi g2.joint? merge x vs) :
      (nodesIn (locals ++ stack)).count x = 1 ∧ vs.length = count + 1 := by
    rcases ht2.phis x vs hx with h | h
    · exact ⟨h.1, h.2.2⟩
    · cases h.2.1
  refine ⟨hm1.trans hm2, ⟨hfits1.mono hm2.grown.2.keepsOps, slotsFit_reverse.2 hfits2,
    hlen1.trans hf.size⟩, ⟨fun x vs hx => ?_, fun hl x hx => ?_⟩, fun x vs hx => (hphis x vs hx).2⟩
  · rw [hslots]
    exact (hphis x vs hx).1
  · rw [hslots] at hx
    exact ht2.loop hl x (by simpa using hx)

end

end Frame

end SeaOfNodes
