import SeaOfNodes.Proofs.Graph.Folding
import SeaOfNodes.Proofs.Lift.Woven

/-!
# Loops that come apart

Once all blocks are entered, every phi has its values and every exit its proxies. Parts of loops may
then go: a phi or a proxy is folded into its value, and an exit, a loop or a frame state is deleted
when nothing hangs on it any more. What is left stays tied together; only an exit that is about to go
may have lost proxies.
-/

namespace SeaOfNodes.Lift

open Graph

variable {clean : Bool} {opened opened' gone gone' : NodeId → Prop} {J J' J'' : NodeId → Option Joint}
  {id value x merge loopBegin : NodeId} {first second values : List (Option NodeId)} {index : Int32}

/-- How merges and loops are tied together when no block is entered any more. -/
structure Tied (clean : Bool) (opened : NodeId → Prop) (J : NodeId → Option Joint) : Prop where
  loops : Loops J
  exits : clean = true → ∀ x first second, ¬ opened x → J x = some ⟨.loopExit, first, second⟩ →
    ExitOk J x first second
  phis : ∀ merge x values, IsPhi J merge x values → Sides J merge values.length

theorem Woven.tied {g : Graph} (h : Woven clean g []) : Tied clean (fun _ => False) g.joint? :=
  ⟨h.loops, fun hc x first second _ hx => h.exits hc x first second hx, fun merge x values hx =>
    h.phis merge x values hx nofun⟩

theorem Tied.mono (h : Tied clean opened J) (ho : ∀ x, opened x → opened' x) :
    Tied clean opened' J :=
  { h with exits := fun hc x first second hx => h.exits hc x first second fun hxo => hx (ho x hxo) }

/-! ### What may go -/

/-- Parts of loops go, and of what holds no values only some nodes. -/
def Sheds (gone : NodeId → Prop) (J J' : NodeId → Option Joint) : Prop :=
  ∀ x, (J' x).map Joint.bare = (J x).map Joint.bare ∨ J' x = none ∧ ∀ j, J x = some j → j.firm = true → gone x

namespace Sheds

theorem refl (J : NodeId → Option Joint) : Sheds gone J J := fun _ => .inl rfl

section

variable (h : Sheds gone J J')

include h

theorem mono (hg : ∀ x, gone x → gone' x) : Sheds gone' J J' :=
  fun x => (h x).imp_right fun h => ⟨h.1, fun j hj hf => hg x (h.2 j hj hf)⟩

variable {j : Joint}

theorem kept (hj : j.firm) (hx : ¬ gone x) (hJ : J x = some j) : J' x = some j := by
  rcases h x with hbare | ⟨-, hgone⟩
  · exact Joint.eq_some_of_bare hbare hJ hj
  · exact absurd (hgone j hJ hj) hx

theorem bare (hJ : J' x = some j) : (J x).map Joint.bare = (J' x).map Joint.bare := by
  rcases h x with hbare | ⟨hnone, -⟩
  · exact hbare.symm
  · rw [hJ] at hnone
    cases hnone

theorem firm (hj : j.firm) (hJ : J' x = some j) : J x = some j :=
  Joint.eq_some_of_bare (h.bare hJ) hJ hj

theorem phi (hx : IsPhi J' merge x values) : ∃ values, IsPhi J merge x values :=
  hx.of_bare (h.bare hx.choose_spec)

theorem trans (h' : Sheds gone J' J'') : Sheds gone J J'' := by
  intro x
  rcases h' x with h2 | ⟨h2, hg2⟩ <;> rcases h x with h1 | ⟨h1, hg1⟩
  · exact .inl (h2.trans h1)
  · exact .inr ⟨by simpa [h1] using h2, hg1⟩
  · exact .inr ⟨h2, fun j hj hf => hg2 j (Joint.eq_some_of_bare h1 hj hf) hf⟩
  · exact .inr ⟨h2, hg1⟩

end

theorem anchored (h : Sheds (fun _ => False) J J') : Anchored J J' :=
  fun _ _ hj => ⟨h.firm (Joint.firm_of_isAnchor hj), h.kept (Joint.firm_of_isAnchor hj) id⟩

end Sheds

/-! ### Folding -/

/-- A phi or a proxy goes, and the values of others change. -/
structure Drops (id : NodeId) (J J' : NodeId → Option Joint) : Prop where
  gone : J' id = none
  mayGo : ∀ j, J id = some j → Graph.mayGo j.op.cls = true
  bare : ∀ x, x ≠ id → (J' x).map Joint.bare = (J x).map Joint.bare

section

variable (h : Drops id J J')

include h

theorem Drops.proxy_iff (hx : x ≠ id) : IsProxy J' merge x ↔ IsProxy J merge x :=
  ⟨.of_bare (h.bare x hx).symm, .of_bare (h.bare x hx)⟩

theorem Drops.phi_iff (hx : x ≠ id) :
    (∃ values, IsPhi J' merge x values) ↔ ∃ values, IsPhi J merge x values :=
  ⟨fun ⟨_, hphi⟩ => hphi.of_bare (h.bare x hx).symm, fun ⟨_, hphi⟩ => hphi.of_bare (h.bare x hx)⟩

theorem Drops.sheds : Sheds (fun _ => False) J J' := by
  intro x
  by_cases hx : x = id
  · subst hx
    refine .inr ⟨h.gone, fun j hj hf => ?_⟩
    simp [Joint.firm, h.mayGo j hj] at hf
  · exact .inl (h.bare x hx)

end

/-- A phi is folded, or a proxy at an exit that is about to go. -/
theorem Tied.fold (h : Tied clean opened J) (hgo : ∀ j, J id = some j → mayGo j.op.cls)
    (hid : J' id = none) (hJ : ∀ x, x ≠ id → Joint.Renames id value (J x) (J' x))
    (hproxy : ∀ x, IsProxy J x id → opened x) : Tied clean opened J' := by
  have hsheds := Drops.sheds ⟨hid, hgo, fun x hx => (hJ x hx).bare⟩
  have ha := hsheds.anchored
  refine ⟨h.loops.anchored ha, fun hc x first second hx hxJ => ?_, fun m x vs hx => ?_⟩
  · obtain ⟨⟨b, ends, hfirst, hb⟩, hstate⟩ :=
      h.exits hc x first second hx (hsheds.firm rfl hxJ)
    refine ⟨⟨b, ends, hfirst, hsheds.kept rfl not_false hb⟩, fun st hst => ?_⟩
    obtain ⟨op, values, rest, hj, hop, hvalues⟩ := hstate st hst
    have hne : st ≠ id := by
      rintro rfl
      have := hgo _ hj
      rw [hop] at this
      cases this
    obtain ⟨⟨op', values', rest'⟩, hj', hbare⟩ := (hJ st hne).exists_eq hj
    refine ⟨op', values', rest', hj', (congrArg Op.cls (Joint.op_eq_of_bare hbare)).trans hop, fun v hv => ?_⟩
    -- the folded node was no value of the state, since it is no proxy at this exit
    have hproxy' {v : NodeId} (hv : some v ∈ values) : IsProxy J x v ∧ v ≠ id := by
      refine ⟨hvalues v hv, ?_⟩
      rintro rfl
      exact hx (hproxy x (hvalues v hv))
    rcases (hJ st hne).state _ _ hj hj' hop v hv with hv | ⟨-, hv⟩
    · exact (hproxy' hv).1.of_bare (hJ v (hproxy' hv).2).bare
    · exact absurd rfl (hproxy' hv).2
  · obtain ⟨vs', kind, hx'⟩ := hsheds.phi hx
    obtain ⟨kind', hx⟩ := hx
    have hne : x ≠ id := by
      rintro rfl
      rw [hid] at hx
      cases hx
    rw [show vs.length = vs'.length from (hJ x hne).phi _ _ hx' hx rfl]
    exact (h.phis m x vs' ⟨kind, hx'⟩).anchored ha

/-! ### Deleting -/

theorem sheds_update_none (J : NodeId → Option Joint) (id : NodeId) :
    Sheds (· = id) J (Function.update J id none) := by
  intro x
  by_cases hx : x = id
  · exact .inr ⟨by rw [hx, Function.update_self], fun _ _ _ => hx⟩
  · exact .inl (by rw [Function.update_of_ne hx])

/-- A joint goes on which no other hangs. -/
theorem Tied.delete (h : Tied clean opened J)
    (hid : ∀ j, J id = some j → j.op.cls ≠ .loopEnd ∧ mayGo j.op.cls = false)
    (hphi : ∀ x vs, ¬ IsPhi J id x vs) (hend : ∀ x index, ¬ IsLoopEnd J id x index)
    (hexit : clean → ∀ x first second, x ≠ id → ¬ opened x →
      J x = some ⟨.loopExit, first, second⟩ → some id ∉ first ∧ some id ∉ second)
    (ho : ∀ x, x ≠ id → opened x → opened' x) : Tied clean opened' (Function.update J id none) := by
  have hback {x : NodeId} {j : Joint} (hx : Function.update J id none x = some j) :
      x ≠ id ∧ J x = some j := by
    by_cases hid : x = id
    · rw [hid, Function.update_self] at hx
      cases hx
    · rw [Function.update_of_ne hid] at hx
      exact ⟨hid, hx⟩
  have hkeep {x : NodeId} (hx : x ≠ id) : Function.update J id none x = J x := Function.update_of_ne hx ..
  have hends {b x : NodeId} {index : Int32} :
      IsLoopEnd (Function.update J id none) b x index ↔ IsLoopEnd J b x index := by
    refine ⟨fun hx => (hback hx).2, fun hx => (hkeep ?_).trans hx⟩
    rintro rfl
    exact (hid _ hx).1 rfl
  refine ⟨⟨fun b ends hb => h.loops.entered b ends (hback hb).2, fun b => ?_, fun b x index hx => ?_⟩,
    fun hc x first second hx hxJ => ?_, fun m x vs hx => ?_⟩
  · obtain ⟨back, hb⟩ := h.loops.counted b
    exact ⟨back, hb.congr fun _ _ => hends⟩
  · rw [hends] at hx
    obtain ⟨ends, hb⟩ := h.loops.back b x index hx
    refine ⟨ends, (hkeep ?_).trans hb⟩
    rintro rfl
    exact hend x index hx
  · obtain ⟨hne, hxJ⟩ := hback hxJ
    have hxo : ¬ opened x := fun hxo => hx (ho x hne hxo)
    obtain ⟨hfirst, hsecond⟩ := hexit hc x first second hne hxo hxJ
    obtain ⟨⟨b, ends, rfl, hb⟩, hstate⟩ := h.exits hc x first second hxo hxJ
    refine ⟨⟨b, ends, rfl, (hkeep ?_).trans hb⟩, fun st hst => ?_⟩
    · rintro rfl
      exact hfirst (List.mem_singleton.2 rfl)
    obtain ⟨op, values, rest, hj, hop, hvalues⟩ := hstate st hst
    have hne' : st ≠ id := by
      rintro rfl
      exact hsecond hst
    refine ⟨op, values, rest, (hkeep hne').trans hj, hop, fun v hv => ?_⟩
    obtain ⟨kind, first, hv⟩ := hvalues v hv
    refine ⟨kind, first, (hkeep ?_).trans hv⟩
    rintro rfl
    cases (hid _ hv).2
  · replace hx : IsPhi J m x vs := hx.imp fun _ hx => (hback hx).2
    have hm : m ≠ id := by
      rintro rfl
      exact hphi x vs hx
    exact (h.phis m x vs hx).congr (hkeep hm) fun _ _ => hends

/-- An exit that is open goes. -/
theorem Tied.deleteExit (h : Tied clean (· = id) J) (hid : J id = some ⟨.loopExit, first, second⟩) :
    Tied clean (fun _ => False) (Function.update J id none) := by
  refine h.delete (fun j hj => ?_) (fun x vs hx => ?_) (fun x index hx => ?_)
    (fun hc x first' second' hne _ hx => ?_) fun x hne hx => hne hx
  · rw [hid] at hj
    cases hj
    exact ⟨nofun, rfl⟩
  · obtain ⟨ends, hj | hj⟩ := (h.phis id x vs hx).joint <;> rw [hid] at hj <;> cases hj
  · obtain ⟨ends, hb⟩ := h.loops.back id x index hx
    rw [hid] at hb
    cases hb
  · obtain ⟨⟨b, ends, rfl, hb⟩, hstate⟩ := h.exits hc x first' second' hne hx
    refine ⟨fun hmem => ?_, fun hmem => ?_⟩
    · rw [← Option.some.inj (List.mem_singleton.1 hmem), hid] at hb
      cases hb
    · obtain ⟨op, values, rest, hj, hop, -⟩ := hstate id hmem
      rw [hid] at hj
      cases hj
      cases hop

/-- A loop goes that nothing is tied to. -/
theorem Tied.deleteLoop {ends : List (Option NodeId)} (h : Tied clean opened J)
    (hid : J id = some ⟨.loopBegin, ends, []⟩) (hphi : ∀ x vs, ¬ IsPhi J id x vs)
    (hend : ∀ x index, ¬ IsLoopEnd J id x index)
    (hexit : ∀ x second, J x ≠ some ⟨.loopExit, [some id], second⟩) :
    Tied clean opened (Function.update J id none) := by
  refine h.delete (fun j hj => ?_) hphi hend (fun hc x first second _ hxo hx => ?_) fun _ _ hx => hx
  · rw [hid] at hj
    cases hj
    exact ⟨nofun, rfl⟩
  · obtain ⟨⟨b, ends', rfl, hb⟩, hstate⟩ := h.exits hc x first second hxo hx
    refine ⟨fun hmem => ?_, fun hmem => ?_⟩
    · rw [← Option.some.inj (List.mem_singleton.1 hmem)] at hx
      exact hexit x second hx
    · obtain ⟨op, values, rest, hj, hop, -⟩ := hstate id hmem
      rw [hid] at hj
      cases hj
      cases hop

/-- A frame state goes that is the state after no exit. -/
theorem Tied.deleteState (h : Tied clean opened J) {j : Joint} (hid : J id = some j)
    (hc : j.op.cls = .frameState)
    (hexit : ∀ x first second, J x = some ⟨.loopExit, first, second⟩ → some id ∉ second) :
    Tied clean opened (Function.update J id none) := by
  have hne {op : Op} {ends rest : List (Option NodeId)} (hj : J id = some ⟨op, ends, rest⟩) :
      op.cls = .frameState := by
    rw [hid] at hj
    cases hj
    exact hc
  refine h.delete (fun j' hj => ?_) (fun x vs hx => ?_) (fun x index hx => ?_)
    (fun hc x first second _ hxo hx => ⟨fun hmem => ?_, hexit x first second hx⟩) fun _ _ hx => hx
  · obtain rfl := Option.mem_unique hid hj
    rw [hc]
    exact ⟨nofun, rfl⟩
  · obtain ⟨ends, hj | hj⟩ := (h.phis id x vs hx).joint <;> cases hne hj
  · obtain ⟨ends, hb⟩ := h.loops.back id x index hx
    cases hne hb
  · obtain ⟨⟨b, ends, rfl, hb⟩, -⟩ := h.exits hc x first second hxo hx
    rw [← Option.some.inj (List.mem_singleton.1 hmem)] at hb
    cases hne hb

end SeaOfNodes.Lift
