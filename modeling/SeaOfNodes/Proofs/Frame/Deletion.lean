import SeaOfNodes.Proofs.Frame.Purging

/-!
# Deleting phis

A phi of a growing graph goes together with the phis and proxies that use it, and the graph still
grows: the phis and proxies that are left are as they were, and frame states hold no others than
before.
-/

namespace SeaOfNodes

theorem Node.Typed.keeping_of_frameState {n : Node} {m : Method} {op? : NodeId → Option Op}
    (h : n.Typed m op?) (hc : n.cls = .frameState) (p : NodeId → Bool) : (n.keeping p).Typed m op? where
  operands field kind hk t ht := h.operands field kind hk t (mem_slotsAt_keeping ht)
  compare hc' := by cases hc.symm.trans hc'
  invoke target result hop := by
    replace hop : n.op = .invoke target result := hop
    rw [show n.cls = n.op.cls from rfl, hop] at hc
    cases hc

namespace Graph

open SeaOfNodes.Frame (followsPhi toleratesLoss)

variable {g g' : Graph} {p x u t : NodeId} {n : Node} {c : NodeClass}

namespace Purges

section

variable (h : Purges g g' p)

include h

theorem op? : g'.op? = g.op? := op?_of_remnants h.node?

theorem cls? : g'.cls? = g.cls? := cls?_of_remnants h.node?

theorem node?_of_isAlive (hn : g.node? x = some n) (ha : g'.isAlive x) :
    g'.node? x = some (n.keeping g'.isAlive) := by
  rw [h.node?, hn, Option.map_some, remnant, if_pos ha]

/-- A node that went is a phi or a proxy. -/
theorem mayGo_of_gone (hp : (g.cls? p).any followsPhi)
    (hx : g.isAlive x) (hx' : g'.isAlive x = false) (hc : g.cls? x = some c) :
    mayGo c := by
  have hd : g.Doomed p x := by
    by_contra hd
    simp [(h.isAlive x).2 ⟨hx, hd⟩] at hx'
  have := hd.followsPhi hp
  rwa [hc] at this

/-- A node of another class stays. -/
theorem isAlive_eq (hp : (g.cls? p).any followsPhi)
    (hc : g.cls? x = some c) (hgo : mayGo c = false) : g'.isAlive x = g.isAlive x := by
  rw [Bool.eq_iff_iff, h.isAlive]
  refine and_iff_left_of_imp fun _ hd => ?_
  have : mayGo c := by
    have := hd.followsPhi hp
    rwa [hc] at this
  simp [hgo] at this

/-- What stays is as it was, or is a frame state. -/
theorem eq_or_frameState (hg : g.Consistent) (hexp : g.Expendable p)
    (hn : g.node? x = some n) (ha : g'.isAlive x) :
    n.keeping g'.isAlive = n ∨ n.cls = .frameState := by
  by_cases hall : ∀ t, 0 < n.uses .inputs t → g'.isAlive t
  · exact .inl (Node.keeping_eq_self hall)
  simp only [not_forall] at hall
  obtain ⟨t, ht, hta⟩ := hall
  rw [← uses_of_node? hn] at ht
  have hdoomed : g.Doomed p t := by
    by_contra hd
    exact hta ((h.isAlive t).2 ⟨hg.isAlive_target ht, hd⟩)
  have hcls := cls?_of_node? hn
  have htol := hexp t hdoomed x ht
  rw [hcls, Option.any_some, toleratesLoss, Bool.or_eq_true] at htol
  rcases htol with hf | hf
  · exact absurd (hdoomed.user ht (by rw [hcls]; exact hf)) ((h.isAlive x).1 ha).2
  · exact .inr (by simpa using hf)

theorem uses_le (u t : NodeId) : g'.uses .inputs u t ≤ g.uses .inputs u t := by
  by_cases hu : 0 < g'.uses .inputs u t
  · rw [uses_of_remnants h.node? (h.consistent.isAlive_of_uses hu)]
    split <;> omega
  · omega

end

variable [Source]

section

variable (h : Purges g g' p) (hg : g.Growing)

include h hg

theorem fits (hn : g'.node? x = some n) : n.Fits g'.cls? := by
  rw [h.cls?]
  obtain ⟨m, hm, rfl⟩ := Option.map_eq_some_iff.1 ((h.node? x).symm.trans hn)
  have hf := hg.sound.fits x m hm
  unfold remnant
  split
  · exact hf.keeping _
  · split
    · exact Node.fits_clear (Node.fits_clear hf _) _
    · exact hf

theorem sound (hexp : g.Expendable p) : g'.Sound where
  consistent := h.consistent
  fits x n hn := h.fits hg hn
  filled x n hn ha _ := by
    obtain ⟨hga, -⟩ := (h.isAlive x).1 ha
    obtain ⟨m, hm⟩ := exists_node?_of_isAlive hga
    have hfits := h.fits hg hn
    rw [h.node?_of_isAlive hm ha] at hn
    obtain rfl := Option.some.inj hn
    have hfilled := hg.sound.filled x m hm hga not_false
    rw [h.op?]
    rcases h.eq_or_frameState hg.sound.consistent hexp hm ha with heq | hc
    · rwa [heq]
    · have hspecs : ∀ spec ∈ m.layout.inputs, spec.shape ≠ .single := by
        show ∀ spec ∈ m.cls.layout.inputs, _
        rw [hc]; decide
      have hlinks := Node.forall₂_iff_getElem?.1 (hfits .inputs)
      refine Node.filled_of_cls (show m.cls ≠ _ by simp [hc]) (show m.cls ≠ _ by simp [hc])
        (Node.forall₂_iff_getElem?.2 ⟨hlinks.1, fun i spec link hspec _ hs => ?_⟩)
        (hfilled.typed.keeping_of_frameState hc _)
      exact absurd hs (hspecs spec (List.mem_of_getElem? hspec))
  ends e u v hc hu hv := by
    rw [h.cls?] at hc
    exact hg.sound.ends e u v hc (hu.trans_le (h.uses_le u e)) (hv.trans_le (h.uses_le v e))
  leaves q hq := by
    rw [h.keeps.leaves] at hq
    rw [h.node?, Option.isSome_map]
    exact hg.sound.leaves q hq
  classes c := by rw [h.keeps.idsOf, h.cls?]; exact hg.sound.classes c
  enlisted x c hc ha := by
    rw [h.cls?] at hc
    rw [h.keeps.idsOf]
    exact hg.sound.enlisted x c hc ((h.isAlive x).1 ha).1

/-- A phi or a proxy uses no ends and no placeholders. -/
theorem users_eq_nil_iff (hp : (g.cls? p).any followsPhi)
    (hc : g.cls? x = some c) (hend : c = .forwardEnd ∨ c = .placeholder) :
    g'.users x = [] ↔ g.users x = [] := by
  rw [Graph.users_eq_nil_iff, Graph.users_eq_nil_iff]
  refine forall_congr' fun u => ?_
  rw [h.consistent.listed, hg.sound.consistent.listed]
  refine ⟨fun hu => ?_, fun hu => Nat.le_zero.1 (hu ▸ h.uses_le u x)⟩
  by_contra hne
  have hpos := Nat.pos_of_ne_zero hne
  obtain ⟨n, hn, hun⟩ := exists_node?_of_uses hpos
  obtain ⟨spec, ct, hct, htakes⟩ := hg.sound.takes hn hun
  obtain rfl : c = ct := Option.mem_unique hc hct
  have hgo : mayGo n.cls = false := by
    rcases hend with rfl | rfl
    · rcases NodeClass.takes_forwardEnd htakes with hcls | hcls <;> rw [hcls] <;> rfl
    · rw [NodeClass.takes_placeholder htakes]; rfl
  have hua : g'.isAlive u := by
    rw [h.isAlive_eq hp (cls?_of_node? hn) hgo]
    exact hg.sound.consistent.isAlive_of_uses hpos
  have hxa : g'.isAlive x := by
    rw [h.isAlive_eq hp hc (by rcases hend with rfl | rfl <;> rfl)]
    exact hg.sound.consistent.isAlive_target hpos
  rw [uses_of_remnants h.node? hua, if_pos hxa] at hu
  exact hne hu

/-- Phis and proxies go without a trace in the control flow. -/
theorem moves (hp : (g.cls? p).any followsPhi) :
    Moves g g' [] [] := by
  -- a phi or a proxy has no successors
  have hnone (x : NodeId) (n : Node) (hn : g.node? x = some n) (hgo : mayGo n.cls) :
      n.Complete ∧ n.links .successors = [] := by
    have hlayout : n.cls.layout.fields .successors = [] := NodeClass.successors_of_followsPhi hgo
    have hshaped := (hg.sound.fits x n hn).shaped
    exact ⟨hshaped.complete hlayout, hshaped.links_eq_nil hlayout⟩
  -- what is said of live nodes by their successors
  have hlive (P : Node → Prop) (x : NodeId) (hP : ∀ n m : Node, n.op = m.op →
      n.successors = m.successors → (P n ↔ P m))
      (hgone : ∀ n, g.node? x = some n → mayGo n.cls = true → ¬ P n) :
      (g'.isAlive x = true ∧ ∃ n, g'.node? x = some n ∧ P n) ↔
        g.isAlive x = true ∧ ∃ n, g.node? x = some n ∧ P n := by
    cases hn : g.node? x with
    | none => simp [h.node?, hn]
    | some n =>
      by_cases ha : g'.isAlive x
      · simp only [ha, ((h.isAlive x).1 ha).1, h.node?_of_isAlive hn ha, true_and, Option.some.injEq,
          exists_eq_left']
        exact hP _ n rfl rfl
      · refine iff_of_false (fun hx => ha hx.1) ?_
        rintro ⟨hga, m, hm, hPm⟩
        obtain rfl := Option.some.inj hm
        exact hgone n hn (h.mayGo_of_gone hp hga (by simpa using ha) (cls?_of_node? hn)) hPm
  refine ⟨.of_eq h.op? fun x hx => ((h.isAlive x).1 hx).1, h.keeps.bound.ge, fun k x => ?_,
    fun x c hc ha => ?_⟩
  · simp only [List.not_mem_nil, false_or, not_false_eq_true, and_true]
    cases k with
    | loose =>
      simp only [Notes, h.cls?, h.predecessor?]
      refine and_congr_left fun hx => ?_
      obtain ⟨c, hc, hfollower⟩ := (Option.any_eq_true _ _).1 hx.1
      rw [h.isAlive_eq hp hc (by revert hfollower; cases c <;> decide)]
    | gap =>
      refine hlive (fun n => ¬ n.Complete) x (fun n m hop hsucc => ?_) fun n hn hgo hcomplete => ?_
      · rw [Node.Complete, Node.Complete, hsucc, show n.layout = m.layout from congrArg Op.layout hop]
      · exact hcomplete (hnone x n hn hgo).1
    | unlisted =>
      simp only [Notes, h.cls?]
      by_cases hc : g.cls? x = some .forwardEnd
      · rw [h.isAlive_eq hp hc rfl, h.users_eq_nil_iff hg hp hc (.inl rfl)]
      · simp [hc]
    | held =>
      simp only [Notes, h.cls?]
      refine and_congr_right fun hc => not_congr (h.users_eq_nil_iff hg hp hc (.inr rfl))
    | quiet =>
      refine hlive (·.slotsAt .successors 1 = [none]) x (fun n m _ hsucc => ?_) fun n hn hgo => ?_
      · rw [Node.slotsAt, Node.slotsAt, show n.links .successors = m.links .successors from hsucc]
      · rw [Node.slotsAt, (hnone x n hn hgo).2]
        simp
  · rw [h.cls?] at hc
    by_cases hga : g.isAlive x
    · exact .inl (h.mayGo_of_gone hp hga ha hc)
    · exact .inr ⟨hc, by simpa using hga⟩

end

end Purges

end Graph

namespace Frame

open Graph

variable [Source] {g : Graph} {phi : NodeId}

/-- What a deletion does to a graph, in which the phi is gone in the end. -/
structure Prunes (phi : NodeId) (g g' : Graph) : Prop where
  grown : Extends g g'
  joints : ∀ merge x, Joint.Changes merge (g.joint? x) (g'.joint? x)
  gone : g'.isAlive phi = false

theorem prunes_of_purges {g' : Graph} (h : Purges g g' phi) (hg : g.Growing)
    (hexp : g.Expendable phi) (hp : (g.cls? phi).any followsPhi) : Prunes phi g g' := by
  have hmoves := h.moves hg hp
  refine ⟨⟨hmoves.growing hg (h.sound hg hexp), hmoves⟩, fun merge x => ?_, ?_⟩
  · by_cases ha : g'.isAlive x
    · obtain ⟨hga, -⟩ := (h.isAlive x).1 ha
      obtain ⟨n, hn⟩ := exists_node?_of_isAlive hga
      rw [joint?_of_node? hn hga, joint?_of_node? (h.node?_of_isAlive hn ha) ha]
      rcases h.eq_or_frameState hg.sound.consistent hexp hn ha with heq | hc
      · rw [heq]
        exact .refl ..
      · rw [Node.joint?, Node.joint?, show (n.keeping g'.isAlive).cls = n.cls from rfl, hc]
        exact .stays ⟨by simp [Joint.bare, show n.op.cls = _ from hc, show (n.keeping _).op = n.op from rfl],
          fun _ t ht => Node.mem_slotsAt_keeping ht, fun hne => absurd hc hne⟩
    · rw [joint?_eq_none_of_not_isAlive (g := g') (by simpa using ha)]
      cases hj : g.joint? x with
      | none => exact .absent
      | some j =>
        obtain ⟨hga, hop⟩ := of_joint? hj
        have hc : g.cls? x = some j.op.cls := by rw [cls?_eq_map_op?, hop, Option.map_some]
        exact .gone j (h.mayGo_of_gone hp hga (by simpa using ha) hc)
  · by_contra ha
    exact ((h.isAlive phi).1 (by simpa using ha)).2 .self

/-- Deleting a phi ends with a growing graph, or finds a phi in use by a node that stays. -/
theorem meets_deletePhi_growing (hg : g.Growing) {c : NodeClass} (hc : g.cls? phi = some c)
    (hgo : mayGo c) (ha : g.isAlive phi) :
    Meets (deletePhi phi) g (fun _ g' => Prunes phi g g') (fun e => ∃ id, e = .phiInUse id) := by
  have hp : (g.cls? phi).any followsPhi := by rw [hc]; exact hgo
  refine (meets_deletePhi hg.sound.consistent (fun x n _ hn => (hg.sound.fits x n hn).shaped) hp ha
    fun x hx => ?_).mono (fun _ g' h => prunes_of_purges h.1 hg h.2 hp) ?_
  · obtain ⟨cx, hcx, hf⟩ := (Option.any_eq_true _ _).1 (hx.followsPhi hp)
    exact hg.sound.predecessor?_eq_none hcx (by revert hf; cases cx <;> decide)
  · rintro e ⟨x, -, rfl, -⟩
    exact ⟨x, rfl⟩

end Frame

end SeaOfNodes
