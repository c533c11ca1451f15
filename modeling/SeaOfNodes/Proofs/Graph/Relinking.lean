import SeaOfNodes.Proofs.Graph.Building
import SeaOfNodes.Proofs.Graph.Replacement

/-!
# Taking nodes out of a control flow

A node leaves the control flow in three steps: it leads nowhere any more, what came before it leads to
where it led, and it is deleted. In between, control does not come to some nodes, and others lack a
successor. What is unfinished is kept in a list, as while a control flow is built.
-/

namespace SeaOfNodes.Graph

variable {g g' : Graph} {id x t : NodeId} {n n' : Node} {field : Nat}
  {old new : Option NodeId} {c : NodeClass} {watched : Note → Bool}
  {made lost owed owed' : List (Note × NodeId)}

/-- The notes of the kinds that are watched are among some. -/
def Owes (g : Graph) (watched : Note → Bool) (owed : List (Note × NodeId)) : Prop :=
  ∀ k x, watched k = true → g.Notes k x → (k, x) ∈ owed

/-- What is owed after a node is deleted that leads nowhere: nothing at the node itself, but ends that
it had belong to no merge any more. -/
theorem Deletes.owes (h : Deletes g g' id n) (hw : watched .quiet = false) (ho : g.Owes watched owed)
    (hsucc : ∀ t, n.uses .successors t = 0)
    (hends : ∀ t, g.cls? t = some .forwardEnd → 0 < n.uses .inputs t → (.unlisted, t) ∈ owed')
    (hkeep : ∀ q ∈ owed, watched q.1 → q.2 ≠ id → q ∈ owed') : g'.Owes watched owed' := by
  intro k x hk hx
  have hold (hne : x ≠ id) (hx : g.Notes k x) : (k, x) ∈ owed' := hkeep _ (ho k x hk hx) hk hne
  have hne (ha : g'.isAlive x) : x ≠ id ∧ g.isAlive x := by
    rw [h.isAlive] at ha
    split at ha
    · cases ha
    · exact ⟨‹_›, ha⟩
  cases k with
  | loose =>
    obtain ⟨ha, hc, hp⟩ := hx
    refine hold (hne ha).1 ⟨(hne ha).2, by rwa [h.cls?] at hc, ?_⟩
    rwa [h.predecessor?, hsucc, if_neg (by omega)] at hp
  | gap =>
    obtain ⟨ha, m, hm, hgap⟩ := hx
    rw [h.node?, if_neg (hne ha).1] at hm
    exact hold (hne ha).1 ⟨(hne ha).2, m, hm, hgap⟩
  | unlisted =>
    obtain ⟨ha, hc, hu⟩ := hx
    rw [h.cls?] at hc
    by_cases huses : 0 < n.uses .inputs x
    · exact hends x hc huses
    · refine hold (hne ha).1 ⟨(hne ha).2, hc, users_eq_nil_iff.2 fun u => ?_⟩
      have := users_eq_nil_iff.1 hu u
      rw [h.listed] at this
      split at this <;> omega
  | held =>
    obtain ⟨hc, hu⟩ := hx
    rw [h.cls?] at hc
    have hu' : g.users x ≠ [] := fun hnil => hu (users_eq_nil_iff.2 fun u => by
      rw [h.listed, users_eq_nil_iff.1 hnil u]
      omega)
    exact hold (by rintro rfl; exact hu' h.unused) ⟨hc, hu'⟩
  | quiet => simp [hw] at hk

section

variable [Source]

/-- A successor of a node is written, and nothing else. Exception edges are not watched. -/
structure Relinks (g g' : Graph) (id : NodeId) (made lost : List (Note × NodeId)) : Prop where
  sound : g'.Sound
  others : ∀ x, x ≠ id → g'.node? x = g.node? x
  op? : g'.op? = g.op?
  isAlive : ∀ x, g'.isAlive x = g.isAlive x
  listed : ∀ x u, g'.listed x u = g.listed x u
  joints : g'.joint? = g.joint?
  loose : ∀ x, g'.Notes .loose x ↔ (.loose, x) ∈ made ∨ g.Notes .loose x ∧ (.loose, x) ∉ lost
  gap : ∀ x, g'.Notes .gap x → (.gap, x) ∈ made ∨ g.Notes .gap x ∧ (.gap, x) ∉ lost

theorem Relinks.cls? (h : Relinks g g' id made lost) (x : NodeId) : g'.cls? x = g.cls? x := by
  rw [cls?_eq_map_op?, h.op?, cls?_eq_map_op?]

theorem Relinks.users_eq_nil_iff (h : Relinks g g' id made lost) (x : NodeId) :
    g'.users x = [] ↔ g.users x = [] := by
  rw [Graph.users_eq_nil_iff, Graph.users_eq_nil_iff]
  simp only [h.listed]

/-- What is owed after successors are written. -/
theorem Relinks.owes (h : Relinks g g' id made lost) (hw : watched .quiet = false)
    (ho : g.Owes watched owed) (hmade : ∀ q ∈ made, q ∈ owed')
    (hkeep : ∀ q ∈ owed, watched q.1 → q ∉ lost → q ∈ owed') (hlost : ∀ q ∈ lost, q.1 = .loose ∨ q.1 = .gap) :
    g'.Owes watched owed' := by
  intro k x hk hx
  have hold (hx : g.Notes k x) (hl : (k, x) ∉ lost) : (k, x) ∈ owed' :=
    hkeep _ (ho k x hk hx) hk hl
  cases k with
  | loose => exact ((h.loose x).1 hx).elim (hmade _) fun hx => hold hx.1 hx.2
  | gap => exact (h.gap x hx).elim (hmade _) fun hx => hold hx.1 hx.2
  | unlisted =>
    obtain ⟨ha, hc, hu⟩ := hx
    refine hold ⟨by rwa [h.isAlive] at ha, by rwa [h.cls?] at hc, (h.users_eq_nil_iff x).1 hu⟩ fun hl => ?_
    simpa using hlost _ hl
  | held =>
    obtain ⟨hc, hu⟩ := hx
    refine hold ⟨by rwa [h.cls?] at hc, fun hn => hu ((h.users_eq_nil_iff x).2 hn)⟩ fun hl => ?_
    simpa using hlost _ hl
  | quiet => simp [hw] at hk

/-! ### Writing a successor -/

/-- What writing a successor notes: control comes to the old one no more, and if there is no new one,
the node may lack it. -/
def unlinked (id : NodeId) (old new : Option NodeId) : List (Note × NodeId) :=
  old.toList.map ((.loose, ·)) ++ if new = none then [(.gap, id)] else []

theorem Rewires.relinks (h : Rewires g g' id .successors n n' old new)
    (he : n.Edit n' .successors field old new) (hs : g.Sound) (hid : g.isAlive id)
    (hnew : ∀ t, new = some t → g.Notes .loose t) :
    Relinks g g' id (unlinked id old new) (new.toList.map ((.loose, ·))) where
  sound := h.sound_successor hs h.node he hid hnew
  others x hx := by rw [h.node?, if_neg hx]
  op? := h.op? he
  isAlive := h.isAlive
  listed x u := by simpa using h.listed x u
  joints := h.joint?_eq he.joint?_of_successors
  loose x := by
    have hmade : (Note.loose, x) ∈ unlinked id old new ↔ old = some x := by
      unfold unlinked
      split <;> simp [eq_comm]
    have hlost : (Note.loose, x) ∈ new.toList.map ((Note.loose, ·)) ↔ new = some x := by
      simp [eq_comm]
    rw [hmade, hlost]
    exact h.notes_loose hs he (fun t ht => (hnew t ht).2.2) x
  gap x := by
    rintro ⟨ha, m, hm, hgap⟩
    rw [h.isAlive] at ha
    rw [h.node?] at hm
    have hlost : (Note.gap, x) ∉ new.toList.map ((Note.loose, ·)) := by simp
    split at hm
    · subst_vars
      obtain rfl := Option.some.inj hm
      cases new with
      | none => exact .inl (by simp [unlinked])
      | some t => exact .inr ⟨⟨ha, n, h.node, fun hc => hgap (he.complete hc)⟩, hlost⟩
    · exact .inr ⟨⟨ha, m, hm, hgap⟩, hlost⟩

/-- Where control goes from a node. -/
def Leads (g : Graph) (id : NodeId) (next : Option NodeId) : Prop :=
  ∃ n, g.node? id = some n ∧ n.slotsAt .successors 0 = [next]

theorem slotsAt_next (hs : g.Sound) (hn : g.node? id = some n)
    (hfield : n.layout.fieldIndex? .successors "next" = some field) :
    n.slotsAt .successors 0 = [n.get (Position.of .successors field 0)] := by
  have := get_eq_of_slotsAt (hs.fits id n hn) (spec_of_next hfield) (by decide)
  obtain ⟨rfl, -⟩ := Node.successors_of_next hfield
  exact this

theorem meets_next?_sound (hs : g.Sound) (hc : g.cls? id = some c)
    (hnext : (c.layout.fieldIndex? .successors "next").isSome) :
    Meets (next? id) g (fun next g' => g' = g ∧ g.Leads id next) (fun _ => False) := by
  obtain ⟨n, hn, rfl⟩ := exists_node?_of_cls? hc
  refine meets_next?.2 ⟨fun m hm => ⟨fun field hfield => ?_, fun hnone => ?_⟩,
    fun hnone => by rw [hn] at hnone; cases hnone⟩
  · exact ⟨rfl, m, hm, slotsAt_next hs hm hfield⟩
  · obtain rfl : n = m := Option.mem_unique hn hm
    rw [show n.cls.layout.fieldIndex? .successors "next" = none from hnone] at hnext
    cases hnext

/-- Letting control go on to another node, or nowhere. -/
theorem meets_setNext_sound (hs : g.Sound) (hc : g.cls? id = some c) (ha : g.isAlive id)
    (hnext : (c.layout.fieldIndex? .successors "next").isSome) (hold : g.Leads id old)
    (hnew : ∀ t, new = some t → g.Notes .loose t) :
    Meets (setNext id new) g
      (fun _ g' => Relinks g g' id (unlinked id old new) (new.toList.map ((.loose, ·))) ∧
        g'.Leads id new ∧ (new ≠ none → ¬ g'.Notes .gap id))
      (fun _ => False) := by
  obtain ⟨n, hn, rfl⟩ := exists_node?_of_cls? hc
  obtain ⟨field, hfield⟩ := Option.isSome_iff_exists.1 hnext
  obtain ⟨m, hm, hslots⟩ := hold
  obtain rfl : n = m := Option.mem_unique hn hm
  refine Meets.bind (meets_setField_one hs hn hfield (spec_of_next hfield) (by decide)
    (fun t ht => (hnew t ht).1) fun _ t ht => (hnew t ht).2.2) fun old' g' h => ?_
  obtain ⟨hget, n', he, hslots', hr⟩ := h
  obtain rfl : old' = old := by
    rw [slotsAt_next hs hn hfield, ← hget] at hslots
    exact List.singleton_inj.1 hslots
  have hrel := hr.relinks he hs ha hnew
  have hnode : g'.node? id = some n' := by rw [hr.node?, if_pos rfl]
  refine ⟨hrel, ⟨n', hnode, ?_⟩, ?_⟩
  · obtain ⟨rfl, -⟩ := Node.successors_of_next hfield
    exact hslots'
  · rintro hne ⟨-, m, hm, hgap⟩
    obtain rfl : n' = m := Option.mem_unique hnode hm
    obtain ⟨t, rfl⟩ := Option.ne_none_iff_exists'.1 hne
    have hfits := hrel.sound.fits id n' hnode
    rw [funext hrel.cls?] at hfits
    exact hgap (he.complete_of_next (hs.fits id n hn) hfits hfield)

/-- Control comes no more to a node, but goes on to another one, or nowhere. -/
theorem meets_replaceAtPredecessor_sound (hs : g.Sound) (ha : g.isAlive id)
    (hnew : ∀ t, new = some t → g.Notes .loose t) :
    Meets (replaceAtPredecessor id new) g
      (fun _ g' => g.predecessor? id = none ∧ g' = g ∨ ∃ p, g.predecessor? id = some p ∧
        Relinks g g' p (unlinked p (some id) new) (new.toList.map ((.loose, ·))))
      (fun _ => False) := by
  refine (meets_replaceAtPredecessor hs.consistent (registered_of_isAlive ha)).mono
    (fun _ g' h => h.imp_right ?_) ?_
  · rintro ⟨p, n, n', hp, hreplace, hr⟩
    obtain ⟨field, hedit⟩ := Node.edit_of_replaceFirst hreplace
    have hpa := hs.consistent.isAlive_of_uses (hs.consistent.uses_of_predecessor hp)
    exact ⟨p, hp, hr.relinks hedit hs hpa hnew⟩
  · rintro _ ⟨p, hp, hfail⟩
    refine hfail (.inr ⟨?_, fun t ht => ⟨registered_of_isAlive (hnew t ht).1, (hnew t ht).2.2⟩⟩)
    rintro _ ⟨⟩
    exact hp

theorem Leads.relinks {next : Option NodeId} (h : g.Leads id next) (hr : Relinks g g' x made lost)
    (hne : id ≠ x) : g'.Leads id next := by
  obtain ⟨n, hn, hslots⟩ := h
  exact ⟨n, (hr.others id hne).trans hn, hslots⟩

/-- A node that leads nowhere has no successors, if it has no others. -/
theorem Leads.uses_eq_zero (h : g.Leads id none) (hs : g.Sound) (hc : g.cls? id = some c)
    (hsucc : c.layout.successors = [.next]) (hn : g.node? id = some n) (t : NodeId) :
    n.uses .successors t = 0 := by
  obtain ⟨m, hm, hslots⟩ := h
  obtain rfl : n = m := Option.mem_unique hn hm
  by_contra hne
  obtain ⟨field, ht⟩ := Node.exists_mem_slotsAt (Nat.pos_of_ne_zero hne)
  obtain ⟨spec, -, hspec, -⟩ := hs.accepts hn ht
  obtain rfl : n.cls = c := Option.mem_unique (cls?_of_node? hn) hc
  have hlayout : n.layout.fields .successors = [.next] := hsucc
  rw [hlayout] at hspec
  match field with
  | 0 => simp [hslots] at ht
  | _ + 1 => simp at hspec

/-- A node that leads nowhere, but should, lacks a successor. -/
theorem Leads.gap (h : g.Leads id none) (hs : g.Sound) (ha : g.isAlive id)
    (hc : g.cls? id = some c) (hnext : (c.layout.fieldIndex? .successors "next").isSome) :
    g.Notes .gap id := by
  obtain ⟨n, hn, hslots⟩ := h
  obtain rfl : n.cls = c := Option.mem_unique (cls?_of_node? hn) hc
  obtain ⟨field, hfield⟩ := Option.isSome_iff_exists.1 hnext
  have hspec := spec_of_next hfield
  obtain ⟨rfl, -⟩ := Node.successors_of_next hfield
  obtain ⟨x, hx⟩ := (hs.fits id n hn).exists_one hspec (by decide)
  refine ⟨ha, n, hn, fun hcomplete => ?_⟩
  have hnone := (Node.forall₂_iff_getElem?.1 hcomplete).2 0 .next (.one x) hspec hx (by decide)
  rw [Node.slotsAt_of_getElem? hx] at hslots
  exact hnone (by rw [hslots]; exact List.mem_singleton.2 rfl)

theorem Leads.predecessor?_eq (h : g.Leads id (some t)) (hs : g.Sound) : g.predecessor? t = some id := by
  obtain ⟨n, hn, hslots⟩ := h
  have hmem : some t ∈ n.slotsAt .successors 0 := by rw [hslots]; exact List.mem_singleton.2 rfl
  exact hs.consistent.predecessor id t (uses_pos_of_slot hn hmem)

end

end SeaOfNodes.Graph
