import SeaOfNodes.Proofs.Graph.Operations
import SeaOfNodes.Proofs.Graph.Verification

/-!
# Sound graphs

A graph is sound when it is consistent, every edge leads to a node of a class that its field may
hold, no live node lacks a required input or has an operand of a wrong kind, and an end belongs to
one merge only. Nodes that are about to go may be excepted from what is said of inputs. Verifying a
sound graph finds nothing.
-/

namespace SeaOfNodes.Graph

variable [Source] {g g' : Graph} {id x t : NodeId} {n n' m : Node} {d : Direction} {field : Nat}
  {old new : Option NodeId} {c : NodeClass} {gone gone' : NodeId → Prop}

/-- A sound graph, but for the inputs of nodes that are about to go. -/
structure SoundBut (gone : NodeId → Prop) (g : Graph) : Prop where
  consistent : g.Consistent
  /-- Edges lead to what their fields may hold. -/
  fits : ∀ id n, g.node? id = some n → n.Fits g.cls?
  /-- No live node lacks a required input or has an operand of a wrong kind. -/
  filled : ∀ id n, g.node? id = some n → g.isAlive id = true → ¬ gone id → n.Filled g.op? id
  /-- An end belongs to one merge only. -/
  ends : ∀ e u v, g.cls? e = some .forwardEnd →
    0 < g.uses .inputs u e → 0 < g.uses .inputs v e → u = v
  leaves : g.LeavesRegistered
  /-- A list of a class lists nodes of that class, each once. -/
  classes : ∀ c, (g.idsOf c).Nodup ∧ ∀ id ∈ g.idsOf c, g.cls? id = some c
  /-- Live nodes are listed under their class. -/
  enlisted : ∀ id c, g.cls? id = some c → g.isAlive id = true → id ∈ g.idsOf c

/-- A sound graph. -/
abbrev Sound (g : Graph) : Prop := g.SoundBut fun _ => False

section

variable (h : g.SoundBut gone)

include h

theorem SoundBut.mono (hg : ∀ x, gone x → gone' x) : g.SoundBut gone' :=
  { h with filled := fun id n hn ha hg' => h.filled id n hn ha fun hx => hg' (hg id hx) }

/-- What stands in a field of a sound graph is of a class that the field may hold. -/
theorem SoundBut.accepts (hn : g.node? id = some n) (ht : some t ∈ n.slotsAt d field) :
    ∃ spec ct, (n.layout.fields d)[field]? = some spec ∧ g.cls? t = some ct ∧
      n.cls.accepts d spec ct :=
  (h.fits id n hn).accepts ht

/-- A user has the node in a field that takes it. -/
theorem SoundBut.exists_field {c : NodeClass} (hc : g.cls? t = some c) (hu : id ∈ g.users t) :
    ∃ n field spec, g.node? id = some n ∧ some t ∈ n.slotsAt .inputs field ∧
      (n.layout.fields .inputs)[field]? = some spec ∧ n.cls.takes spec.role c := by
  obtain ⟨n, hn, huses⟩ := exists_node?_of_uses (h.consistent.uses_of_mem_users hu)
  obtain ⟨field, ht⟩ := Node.exists_mem_slotsAt huses
  obtain ⟨spec, ct, hspec, hct, htakes⟩ := h.accepts hn ht
  obtain rfl := Option.mem_unique hc hct
  exact ⟨n, field, spec, hn, ht, hspec, htakes⟩

/-- An input is of a class that the node takes. -/
theorem SoundBut.takes (hn : g.node? id = some n) (hu : 0 < n.uses .inputs t) :
    ∃ (spec : FieldSpec) (ct : _), g.cls? t = some ct ∧ n.cls.takes spec.role ct := by
  obtain ⟨field, ht⟩ := Node.exists_mem_slotsAt hu
  obtain ⟨spec, ct, -, hct, hacc⟩ := h.accepts hn ht
  exact ⟨spec, ct, hct, hacc⟩

/-- A successor is of a class to which control comes from the node before. -/
theorem SoundBut.isFollower (hu : 0 < g.uses .successors id t) :
    ∃ ct, g.cls? t = some ct ∧ ct.isFollower := by
  obtain ⟨n, hn, hu⟩ := exists_node?_of_uses hu
  obtain ⟨field, ht⟩ := Node.exists_mem_slotsAt hu
  obtain ⟨spec, ct, -, hct, hacc⟩ := h.accepts hn ht
  exact ⟨ct, hct, hacc⟩

/-- A node of a class without successor fields has no successors. -/
theorem SoundBut.uses_successors_eq_zero (hn : g.node? id = some n)
    (hc : n.layout.successors = []) (t : NodeId) : n.uses .successors t = 0 :=
  (h.fits id n hn).shaped.uses_eq_zero (d := .successors) hc t

/-- The live nodes of a class. -/
theorem SoundBut.mem_nodesOf :
    id ∈ g.nodesOf c ↔ g.isAlive id ∧ g.cls? id = some c := by
  rw [nodesOf, List.mem_filter, and_comm]
  exact and_congr_right fun ha => ⟨(h.classes c).2 id, fun hc => h.enlisted id c hc ha⟩

theorem SoundBut.nodup_nodesOf (c : NodeClass) : (g.nodesOf c).Nodup :=
  (h.classes c).1.sublist List.filter_sublist

end

/-! ### Changes -/

theorem sound_empty (name : String) : (Graph.empty name).Sound where
  consistent := consistent_empty name
  fits id n h := by simp [node?, get?_empty] at h
  filled id n h := by simp [node?, get?_empty] at h
  ends e u v h := by simp [cls?, node?, get?_empty] at h
  leaves := by simp [LeavesRegistered, Graph.empty]
  classes c := by simp [idsOf, Graph.empty, Vector.get]
  enlisted id c h := by simp [cls?, node?, get?_empty] at h

theorem Forgets.sound (h : Forgets g g') (hs : g.SoundBut gone) : g'.SoundBut gone where
  consistent := h.consistent hs.consistent
  fits id n hn := by rw [h.cls?]; exact hs.fits id n (by rwa [h.node?] at hn)
  filled id n hn ha := by
    rw [h.op?]
    exact hs.filled id n (by rwa [h.node?] at hn) (by rwa [h.isAlive] at ha)
  ends e u v := by
    have huses (w : NodeId) : g'.uses .inputs w e = g.uses .inputs w e := by
      rw [uses, h.node?, uses]
    rw [h.cls?, huses, huses]
    exact hs.ends e u v
  leaves p hp := by rw [h.node?]; exact hs.leaves p (h.leaves p hp)
  classes c := by rw [h.idsOf, h.cls?]; exact hs.classes c
  enlisted id c := by rw [h.idsOf, h.cls?, h.isAlive]; exact hs.enlisted id c

/-- A new node keeps a graph sound if its links fit, it lacks no required input, and it is not a
second merge of an end. -/
theorem Adds.sound (h : Adds g g' id n) (hs : g.SoundBut gone) (hfits : n.Fits g.cls?)
    (hfilled : ¬ gone id → n.Filled g.op? id)
    (hends : ∀ t, 0 < n.uses .inputs t → g.cls? t ≠ some .forwardEnd) : g'.SoundBut gone where
  consistent := h.consistent hs.consistent
  fits x m hm := by
    rw [h.node?] at hm
    split at hm
    · cases hm; exact hfits.mono h.keepsOps.cls
    · exact (hs.fits x m hm).mono h.keepsOps.cls
  filled x m hm ha := by
    rw [h.node?] at hm
    rw [h.isAlive] at ha
    split at hm
    · subst_vars; cases hm; exact fun hg => (hfilled hg).mono h.keepsOps.ops
    · exact fun hg => (hs.filled x m hm (by rwa [if_neg ‹_›] at ha) hg).mono h.keepsOps.ops
  ends e u v he hu hv := by
    -- the new node uses no end, and nothing uses the new node
    have hne : e ≠ id := by
      rintro rfl
      simp [h.uses_fresh hs.consistent] at hu
    rw [h.cls?, if_neg hne] at he
    have old {w : NodeId} (hw : 0 < g'.uses .inputs w e) : 0 < g.uses .inputs w e := by
      rw [h.uses] at hw
      split at hw
      · exact absurd he (hends e hw)
      · exact hw
    exact hs.ends e u v he (old hu) (old hv)
  leaves p hp := by
    rw [h.node?]
    rcases h.leaves p hp with hp | hp
    · split
      · rfl
      · exact hs.leaves p hp
    · simp [hp]
  classes c := by
    obtain ⟨kept, hkept, hids⟩ := h.idsOf
    have hsub : kept.Sublist (g.idsOf n.cls) := by
      rcases hkept with rfl | rfl
      · exact .refl _
      · exact List.filter_sublist
    rw [hids]
    split
    · subst_vars
      refine ⟨?_, fun x hx => ?_⟩
      · refine List.nodup_append.2 ⟨((hs.classes _).1).sublist hsub, by simp, ?_⟩
        rintro a ha b hb rfl
        have := (hs.classes _).2 a (hsub.subset ha)
        simp only [List.mem_singleton] at hb
        rw [hb, h.cls?_fresh] at this
        cases this
      · rcases List.mem_append.1 hx with hx | hx
        · exact h.keepsOps x _ ((hs.classes _).2 x (hsub.subset hx))
        · simp only [List.mem_singleton] at hx
          rw [h.cls?, if_pos hx]
    · exact ⟨(hs.classes c).1, fun x hx => h.keepsOps x c ((hs.classes c).2 x hx)⟩
  enlisted x c hc ha := by
    obtain ⟨kept, hkept, hids⟩ := h.idsOf
    rw [hids]
    have ha' := ha
    rw [h.cls?] at hc
    rw [h.isAlive] at ha'
    by_cases hx : x = id
    · rw [if_pos hx] at hc
      rw [if_pos (Option.some.inj hc).symm]
      simp [hx]
    · rw [if_neg hx] at hc ha'
      have hmem := hs.enlisted x c hc ha'
      split
      · subst_vars
        rcases hkept with rfl | rfl
        · simp [hmem]
        · simp [hmem, ha]
      · exact hmem

/-- Writing an edge keeps a graph sound if the field may hold the new node, the owner is still
filled, and a new end had no merge yet. -/
theorem Rewires.sound (h : Rewires g g' id d n n' old new) (he : n.Edit n' d field old new)
    (hs : g.SoundBut gone) (hid : new ≠ none → g.isAlive id)
    (hnew : ∀ t, new = some t → g.isAlive t)
    (haccepts : ∀ t spec, new = some t → (n.layout.fields d)[field]? = some spec →
      ∃ ct, g.cls? t = some ct ∧ n.cls.accepts d spec ct)
    (hfilled : g.isAlive id → ¬ gone' id → n'.Filled g.op? id)
    (hgone : ∀ x, x ≠ id → gone x → gone' x)
    (hends : ∀ t, d = .inputs → new = some t → g.cls? t = some .forwardEnd →
      ∀ u, g.uses .inputs u t = 0) : g'.SoundBut gone' where
  consistent := h.consistent he hs.consistent hid hnew
  fits x m hm := by
    rw [h.cls? he]
    rw [h.node?] at hm
    split at hm
    · cases hm; exact he.fits (hs.fits id n h.node) haccepts
    · exact hs.fits x m hm
  filled x m hm ha hx := by
    rw [h.node?] at hm
    rw [h.isAlive] at ha
    rw [h.op? he]
    split at hm
    · subst_vars; cases hm; exact hfilled ha hx
    · exact hs.filled x m hm ha fun hg => hx (hgone x ‹_› hg)
  ends e u v hc hu hv := by
    rw [h.cls? he] at hc
    have hcount (w : NodeId) := h.uses he .inputs w e
    by_cases hin : d = .inputs ∧ new = some e
    · -- the new end had no merge
      obtain ⟨rfl, rfl⟩ := hin
      have hzero := hends e rfl rfl hc
      have only {w : NodeId} (hw : 0 < g'.uses .inputs w e) : w = id := by
        by_contra hne
        have := hcount w
        simp only [hne, and_false, if_false, hzero w] at this
        omega
      rw [only hu, only hv]
    · have old {w : NodeId} (hw : 0 < g'.uses .inputs w e) : 0 < g.uses .inputs w e := by
        have := hcount w
        have hz : (if Direction.inputs = d ∧ w = id then occurs new e else 0) = 0 := by
          split
          · rename_i hd
            exact occurs_of_ne fun hnew => hin ⟨hd.1.symm, hnew⟩
          · rfl
        omega
      exact hs.ends e u v hc (old hu) (old hv)
  leaves p hp := by
    rw [h.keeps.leaves] at hp
    rw [h.node?, isSome_ite_node? h.node]
    exact hs.leaves p hp
  classes c := by rw [h.keeps.idsOf, h.cls? he]; exact hs.classes c
  enlisted x c := by rw [h.keeps.idsOf, h.cls? he, h.isAlive]; exact hs.enlisted x c

/-- Deleting keeps a graph sound; a deleted node need not be excepted any more. -/
theorem Deletes.sound (h : Deletes g g' id n) (hs : g.SoundBut gone)
    (hgone : ∀ x, x ≠ id → gone x → gone' x) : g'.SoundBut gone' where
  consistent := h.consistent hs.consistent
  fits x m hm := by
    rw [h.cls?]
    rw [h.node?] at hm
    split at hm
    · cases hm
      exact Node.fits_clear (Node.fits_clear (hs.fits id n h.node) _) _
    · exact hs.fits x m hm
  filled x m hm ha hx := by
    rw [h.node?] at hm
    rw [h.isAlive] at ha
    rw [h.op?]
    split at hm
    · rw [if_pos ‹_›] at ha; cases ha
    · exact hs.filled x m hm (by rwa [if_neg ‹_›] at ha) fun hg => hx (hgone x ‹_› hg)
  ends e u v hc hu hv := by
    rw [h.cls?] at hc
    have old {w : NodeId} (hw : 0 < g'.uses .inputs w e) : 0 < g.uses .inputs w e := by
      rw [h.uses] at hw
      split at hw
      · cases hw
      · exact hw
    exact hs.ends e u v hc (old hu) (old hv)
  leaves p hp := by
    rw [h.keeps.leaves] at hp
    rw [h.node?, isSome_ite_node? h.node]
    exact hs.leaves p hp
  classes c := by rw [h.keeps.idsOf, h.cls?]; exact hs.classes c
  enlisted x c hc ha := by
    rw [h.isAlive] at ha
    rw [h.cls?] at hc
    rw [h.keeps.idsOf]
    split at ha
    · cases ha
    · exact hs.enlisted x c hc ha

/-! ### Verifying -/

theorem Sound.nodeViolation?_eq_none (hs : g.Sound) (ha : g.isAlive id) :
    g.nodeViolation? id = none := by
  obtain ⟨e, he, halive⟩ := isAlive_iff.1 ha
  have hn := node?_of_get? he
  have hshaped := (hs.fits id _ hn).shaped
  have hc := hs.consistent
  refine (nodeViolation?_eq_none_iff he halive hshaped).2
    ⟨⟨fun field spec hspec hsingle => ?_, fun t ht => ?_⟩, fun t ht => ?_, fun t ht => ?_, fun p hp => ?_⟩
  · obtain ⟨link, hlink, hlist⟩ := hshaped.exists_link (d := .inputs) hspec
    have hpresent := (Node.forall₂_iff_getElem?.1 (hs.filled id _ hn ha not_false).present).2 field spec
      link hspec hlink hsingle
    cases link with
    | many targets => simp [Link.isList, hsingle] at hlist
    | one slot =>
      have hslot : slot ≠ none := fun h => hpresent (List.mem_singleton.2 h.symm)
      obtain ⟨t, rfl⟩ := Option.ne_none_iff_exists'.1 hslot
      exact ⟨t, hlink⟩
  · rw [← uses_of_node? hn] at ht
    refine ⟨hc.isAlive_target ht, ?_⟩
    rw [← hc.listed] at ht
    exact List.count_pos_iff.1 ht
  · rw [← uses_of_node? hn] at ht
    exact ⟨hc.isAlive_target ht, hc.predecessor id t ht⟩
  · rw [← users_of_get? he] at ht
    exact ⟨hc.isAlive_user ht, hc.uses_of_mem_users ht⟩
  · have hu := hc.uses_of_predecessor ((predecessor?_of_get? he).trans hp)
    exact ⟨hc.isAlive_of_uses hu, hu⟩

/-- Verifying a sound graph finds nothing. -/
theorem Sound.verify_eq_ok (hs : g.Sound) : g.verify = .ok () := by
  have : g.violation? = none := by
    rw [violation?, List.findSome?_eq_none_iff]
    intro id hid
    rw [nodes, List.mem_filter] at hid
    rw [hs.nodeViolation?_eq_none hid.2]
    rfl
  rw [verify, this]

end SeaOfNodes.Graph
