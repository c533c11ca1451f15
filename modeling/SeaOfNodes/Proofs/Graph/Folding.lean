import SeaOfNodes.Lift.Cleanup
import SeaOfNodes.Proofs.Graph.Relinking

/-!
# Folding phis and proxies

A phi with one value, or a proxy, is the same as its value. Folding it puts the value in its place at
all users and deletes it. The value is older, so that phis and proxies still come after their values.
-/

namespace SeaOfNodes

/-- What folding a node into a value may do to another joint: its values change place by place, and
where the node stood there is the value. -/
structure Joint.Renames (id value : NodeId) (o o' : Option Joint) : Prop where
  bare : o'.map bare = o.map bare
  phi : ∀ j j', o = some j → o' = some j' → j.op.cls = .phi → j'.second.length = j.second.length
  state : ∀ j j', o = some j → o' = some j' → j.op.cls = .frameState →
    ∀ t, some t ∈ j'.first → some t ∈ j.first ∨ t = value ∧ some id ∈ j.first

namespace Joint.Renames

variable {id value : NodeId} {o o' o'' : Option Joint} {j : Joint}

theorem refl (o : Option Joint) : Renames id value o o where
  bare := rfl
  phi j j' hj hj' _ := by rw [Option.mem_unique hj hj']
  state j j' hj hj' _ t ht := .inl (by rwa [Option.mem_unique hj hj'])

theorem exists_eq (h : Renames id value o o') (hj : o = some j) : ∃ j', o' = some j' ∧ j'.bare = j.bare := by
  subst hj
  exact Option.map_eq_some_iff.1 h.bare

theorem trans (h : Renames id value o o') (h' : Renames id value o' o'') : Renames id value o o'' := by
  refine ⟨h'.bare.trans h.bare, fun j j'' hj hj'' hc => ?_, fun j j'' hj hj'' hc t ht => ?_⟩ <;>
    obtain ⟨j', hj', hbare⟩ := h.exists_eq hj <;> have hc' := hc <;> rw [← op_eq_of_bare hbare] at hc'
  · exact (h'.phi j' j'' hj' hj'' hc').trans (h.phi j j' hj hj' hc)
  · rcases h'.state j' j'' hj' hj'' hc' t ht with ht | ⟨rfl, hid⟩
    · exact h.state j j' hj hj' hc t ht
    · exact .inr ⟨rfl, (h.state j j' hj hj' hc id hid).elim (fun h => h) And.right⟩

end Joint.Renames

/-! ### Where a phi or a proxy may stand -/

variable {ct c : NodeClass}

/-- Phis and proxies stand where any value may. -/
theorem NodeClass.takes_of_mayGo {ct' : NodeClass} {role : Role} (h : c.takes role ct)
    (hgo : Graph.mayGo ct) (hv : ct'.isValue) : c.takes role ct' := by
  have hct : ct = .phi ∨ ct = .proxy := by simpa [Graph.mayGo] using hgo
  cases role with
  | value | condition => exact hv
  | state => rcases hct with rfl | rfl <;> cases h
  | association =>
    exfalso
    revert h
    rcases hct with rfl | rfl <;> cases c <;> decide

variable {spec : FieldSpec}

/-- Of the joints only phis, proxies and frame states hold values, each in one field. -/
theorem NodeClass.field_of_mayGo {field : Nat}
    (hspec : c.layout.inputs[field]? = some spec) (h : c.takes spec.role ct)
    (hgo : Graph.mayGo ct) :
    (c = .phi → field = 1) ∧ (c = .proxy → field = 0) ∧ c ≠ .loopEnd ∧ c ≠ .loopExit ∧ c ≠ .merge ∧
      c ≠ .loopBegin := by
  have key : ∀ p ∈ c.layout.inputs.zipIdx, c.takes p.1.role .phi ∨ c.takes p.1.role .proxy →
      (c = .phi → p.2 = 1) ∧ (c = .proxy → p.2 = 0) ∧ c ≠ .loopEnd ∧ c ≠ .loopExit ∧ c ≠ .merge ∧
        c ≠ .loopBegin := by
    cases c <;> decide
  refine key (spec, field) (List.mem_zipIdx_iff_getElem?.2 hspec) ?_
  have hct : ct = .phi ∨ ct = .proxy := by simpa [Graph.mayGo] using hgo
  rcases hct with rfl | rfl
  · exact .inl h
  · exact .inr h

/-- Writing a value for a phi or a proxy that was there. -/
theorem Node.Edit.renames {n n' : Node} {field : Nat} {id value : NodeId}
    (h : n.Edit n' .inputs field (some id) (some value))
    (hspec : n.layout.inputs[field]? = some spec) (htakes : n.cls.takes spec.role ct)
    (hgo : Graph.mayGo ct) : Joint.Renames id value n.joint? n'.joint? := by
  obtain ⟨hphi, hproxy, hend, hexit, hmerge, hloop⟩ := NodeClass.field_of_mayGo hspec htakes hgo
  have hcls : n'.cls = n.cls := congrArg Op.cls h.op
  have hslots {j : Nat} (hj : j ≠ field) := h.slotsAt_elsewhere hj
  unfold joint?
  rw [hcls, h.op]
  cases hc : n.cls with
  | phi =>
    obtain rfl := hphi hc
    rw [hslots (show 0 ≠ 1 by decide)]
    refine ⟨by simp [Joint.bare, show n.op.cls = .phi from hc], ?_, ?_⟩
    · rintro _ _ ⟨⟩ ⟨⟩ -
      simpa using h.swaps.length
    · rintro _ _ ⟨⟩ ⟨⟩ hc'
      cases hc.symm.trans hc'
  | proxy =>
    obtain rfl := hproxy hc
    rw [hslots (show 1 ≠ 0 by decide)]
    refine ⟨by simp [Joint.bare, show n.op.cls = .proxy from hc], ?_, ?_⟩ <;>
    · rintro _ _ ⟨⟩ ⟨⟩ hc'
      cases hc.symm.trans hc'
  | frameState =>
    refine ⟨by simp [Joint.bare, show n.op.cls = .frameState from hc], ?_, ?_⟩
    · rintro _ _ ⟨⟩ ⟨⟩ hc'
      cases hc.symm.trans hc'
    · rintro _ _ ⟨⟩ ⟨⟩ - t ht
      rcases h.mem_slotsAt ht with ⟨rfl, ht⟩ | ht
      · exact .inr ⟨Option.some.inj ht, h.swaps.old_mem id rfl⟩
      · exact .inl ht
  | loopEnd => exact absurd hc hend
  | loopExit => exact absurd hc hexit
  | merge => exact absurd hc hmerge
  | loopBegin => exact absurd hc hloop
  | _ => exact .refl _

/-! ### Folding -/

namespace Graph

variable [Source] {g g' : Graph} {id value : NodeId} {c : NodeClass}

/-- A node is folded into a value. -/
structure Folds (g g' : Graph) (id value : NodeId) : Prop where
  sound : g'.Sound
  op? : g'.op? = g.op?
  isAlive : ∀ x, g'.isAlive x = if x = id then false else g.isAlive x
  moves : Moves g g' [] []
  joints : ∀ x, x ≠ id → Joint.Renames id value (g.joint? x) (g'.joint? x)

/-- A phi or a proxy can be folded into an older value of its kind. -/
theorem meets_foldInto (hs : g.Sound) (ha : g.isAlive id) (hc : g.cls? id = some c)
    (hgo : mayGo c) (hvalue : g.IsValue value) (hva : g.isAlive value)
    (hlt : value.index < id.index) (hkind : ∀ kind, OfKind g.op? id kind → OfKind g.op? value kind) :
    Meets (foldInto id (some value)) g (fun _ g' => Folds g g' id value) (fun _ => False) := by
  obtain ⟨cv, hcv, hcvalue⟩ := hvalue
  have hne : value ≠ id := by
    rintro rfl
    exact absurd hlt (lt_irrefl _)
  refine (meets_replaceAtUsages (fun s => s.Sound ∧ s.op? = g.op? ∧ (∀ x, s.isAlive x = g.isAlive x) ∧ Moves g s [] [] ∧
      ∀ x, Joint.Renames id value (g.joint? x) (s.joint? x))
    ⟨hs, rfl, fun _ => rfl, .refl g, fun _ => .refl _⟩ (registered_of_cls? hc) (by simpa using hne)
    (fun s hs => hs.1.consistent) (by rintro s hs _ ⟨⟩; rw [hs.2.2.1, hva]) ?_).bind fun _ g1 h1 => ?_
  · rintro s s' user n n' field ⟨hs', hop, halive, hm, hjoints⟩ huser - he hr
    have hcls (x : NodeId) : s.cls? x = g.cls? x := by rw [cls?_eq_map_op?, hop, cls?_eq_map_op?]
    have hua : s.isAlive user := by
      rw [halive]
      exact hs.consistent.isAlive_user huser
    -- the field takes phis and proxies, and so it takes any value
    obtain ⟨spec, ct, hspec, hct, htakes⟩ := hs'.accepts hr.node (he.swaps.old_mem id rfl)
    obtain rfl : c = ct := Option.some.inj ((hc.symm.trans (hcls id).symm).trans hct)
    have hnotes : c ≠ .forwardEnd ∧ c ≠ .placeholder := by
      constructor <;> rintro rfl <;> cases hgo
    have hcv' : cv ≠ .forwardEnd ∧ cv ≠ .placeholder := by
      constructor <;> rintro rfl <;> cases hcvalue
    have hmoves := hr.moves_input he (by rintro _ ⟨⟩; rw [hct]; simpa using hnotes)
      (by rintro _ ⟨⟩; rw [hcls, hcv]; simpa using hcv'.2)
    refine ⟨?_, (hr.op? he).trans hop, fun x => (hr.isAlive x).trans (halive x),
      hm.trans (hmoves.of_not_notes ?_), fun x => ?_⟩
    · refine hr.sound he hs' (fun _ => hua) (by rintro _ ⟨⟩; rw [halive, hva]) ?_ (fun _ hgone => ?_)
        (fun _ _ h => h) ?_
      · rintro _ spec' ⟨⟩ hspec'
        obtain rfl : spec = spec' := Option.mem_unique hspec hspec'
        exact ⟨cv, by rw [hcls, hcv], NodeClass.takes_of_mayGo htakes hgo hcvalue⟩
      · refine he.filled (hs'.filled user n hr.node hua hgone)
          (fun _ => .inr (.inl ⟨id, rfl, hlt.le⟩)) fun _ => .exchange id rfl fun kind hk => ?_
        rw [hop] at hk ⊢
        exact hkind kind hk
      · rintro _ - ⟨⟩ hend
        rw [hcls, hcv] at hend
        exact absurd (Option.some.inj hend) hcv'.1
    · simp only [Option.toList_some, List.map_cons, List.map_nil, List.mem_singleton, forall_eq]
      rintro ⟨-, hend, -⟩
      rw [hcls, hcv] at hend
      exact hcv'.1 (Option.some.inj hend)
    · rw [hr.joint? hua, Function.update_apply]
      split
      · rename_i hx
        subst hx
        have hjoint := hjoints x
        rw [joint?_of_node? hr.node hua] at hjoint
        exact hjoint.trans (he.renames hspec htakes hgo)
      · exact hjoints x
  · obtain ⟨⟨hs1, hop, halive, hm, hjoints⟩, husers⟩ := h1
    have hc1 : g1.cls? id = some c := by rw [cls?_eq_map_op?, hop, ← cls?_eq_map_op?, hc]
    have hpred := hs1.predecessor?_eq_none hc1 (by revert hgo; cases c <;> decide)
    refine (meets_delete_sound hs1 (by rw [halive, ha]) husers hpred).imp fun _ g' h => ?_
    obtain ⟨n, hd⟩ := h
    obtain rfl : n.cls = c := Option.mem_unique (cls?_of_node? hd.node) hc1
    refine ⟨hd.sound hs1 fun _ _ h => h, hd.op?.trans hop, fun x => ?_, hm.trans (hd.moves hs1 hgo),
      fun x hx => ?_⟩
    · rw [hd.isAlive]
      split
      · rfl
      · rw [halive]
    · rw [hd.joint?, Function.update_of_ne hx]
      exact hjoints x

end Graph

end SeaOfNodes
