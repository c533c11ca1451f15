import SeaOfNodes.Proofs.Graph.Soundness

/-!
# What is unfinished in a control flow

While a control flow is built, some of its nodes are not in place yet: control does not come to
them, they lack a successor, or they are ends of no merge. `Moves` says which of these notes a change
of the graph adds and which it takes away. Every change that lifting makes is one of a few moves.
-/

namespace SeaOfNodes

/-- What may be noted of a node. -/
inductive Note
  /-- Control comes to it from a node before it, but there is none yet. -/
  | loose
  /-- It lacks a successor that it needs. -/
  | gap
  /-- It is an end of no merge. -/
  | unlisted
  /-- It is a placeholder that is used as an input. -/
  | held
  /-- It has room for an exception edge, and none there. -/
  | quiet
deriving DecidableEq

namespace Graph

variable {g g' g'' : Graph} {id x t : NodeId} {n n' m : Node} {d : Direction} {field : Nat}
  {old new : Option NodeId} {c : NodeClass} {gone gone' : NodeId → Prop}
  {made lost : List (Note × NodeId)}

/-- A note holds of a node. -/
def Notes (g : Graph) : Note → NodeId → Prop
  | .loose, id => g.isAlive id = true ∧ (g.cls? id).any (·.isFollower) ∧ g.predecessor? id = none
  | .gap, id => g.isAlive id = true ∧ ∃ n, g.node? id = some n ∧ ¬ n.Complete
  | .unlisted, id => g.isAlive id = true ∧ g.cls? id = some .forwardEnd ∧ g.users id = []
  | .held, id => g.cls? id = some .placeholder ∧ g.users id ≠ []
  | .quiet, id => g.isAlive id = true ∧ ∃ n, g.node? id = some n ∧ n.slotsAt .successors 1 = [none]

theorem Notes.registered {k : Note} (h : g.Notes k id) : (g.node? id).isSome := by
  cases k with
  | loose | gap | unlisted | quiet =>
    obtain ⟨n, hn⟩ := exists_node?_of_isAlive h.1
    simp [hn]
  | held => exact registered_of_cls? h.1

/-- A class whose nodes may go while a control flow is built. -/
def mayGo (c : NodeClass) : Bool := c = .phi || c = .proxy

/-- Some notes are added and some taken away. Operations stay, and only phis and proxies go. -/
structure Moves (g g' : Graph) (made lost : List (Note × NodeId)) : Prop where
  keepsOps : KeepsOps g g'
  bound : g.bound ≤ g'.bound
  notes : ∀ k x, g'.Notes k x ↔ (k, x) ∈ made ∨ g.Notes k x ∧ (k, x) ∉ lost
  deleted : ∀ x c, g'.cls? x = some c → g'.isAlive x = false →
    mayGo c = true ∨ g.cls? x = some c ∧ g.isAlive x = false

theorem Moves.refl (g : Graph) : Moves g g [] [] :=
  ⟨.refl g, le_rfl, fun _ _ => by simp, fun _ _ hc ha => .inr ⟨hc, ha⟩⟩

/-- A change without notes before another one. -/
theorem Moves.trans (h : Moves g g' [] []) (h' : Moves g' g'' made lost) :
    Moves g g'' made lost where
  keepsOps := h.keepsOps.trans h'.keepsOps
  bound := h.bound.trans h'.bound
  notes k x := by rw [h'.notes, h.notes]; simp
  deleted x c hc ha := by
    rcases h'.deleted x c hc ha with hgo | ⟨hc', ha'⟩
    · exact .inl hgo
    · exact h.deleted x c hc' ha'

/-- Notes that do not hold cannot be taken away. -/
theorem Moves.of_not_notes (h : Moves g g' made lost) (hl : ∀ a ∈ lost, ¬ g.Notes a.1 a.2) :
    Moves g g' made [] :=
  { h with
    notes := fun k x => by
      rw [h.notes]
      refine or_congr_right ⟨fun hx => ⟨hx.1, by simp⟩, fun hx => ⟨hx.1, fun hmem => ?_⟩⟩
      exact hl _ hmem hx.1 }

theorem Forgets.moves (h : Forgets g g') : Moves g g' [] [] where
  keepsOps := h.keepsOps
  bound := h.bound.ge
  notes k x := by
    cases k <;> simp [Notes, h.node?, h.isAlive, h.cls?, h.users, h.predecessor?]
  deleted x c hc ha := .inr ⟨by rwa [h.cls?] at hc, by rwa [h.isAlive] at ha⟩

/-! ### New nodes -/

/-- The notes that hold of a new node. -/
def newNotes (n : Node) (id : NodeId) : List (Note × NodeId) :=
  (if n.cls.isFollower then [(.loose, id)] else []) ++
    (if n.Complete then [] else [(.gap, id)]) ++
    (if n.cls = .forwardEnd then [(.unlisted, id)] else []) ++
    if n.slotsAt .successors 1 = [none] then [(.quiet, id)] else []

/-- The placeholders that a new node uses. -/
def heldBy (g : Graph) (n : Node) : List (Note × NodeId) :=
  ((n.targets .inputs).filter fun t => g.cls? t = some .placeholder).map ((.held, ·))

theorem Adds.users_fresh (h : Adds g g' id n) (hg : g.Consistent) : g'.users id = [] := by
  rw [users_eq_nil_iff]
  intro u
  rw [(h.consistent hg).listed, h.uses_fresh hg]

theorem Adds.predecessor?_fresh (h : Adds g g' id n) : g'.predecessor? id = none := by
  rw [h.predecessor?, if_neg]
  · simp [Graph.predecessor?, h.get?_fresh]
  · intro hu
    have := h.alive .successors id hu
    simp [h.not_isAlive] at this

theorem Adds.users_eq_nil_iff (h : Adds g g' id n) (x : NodeId) :
    g'.users x = [] ↔ g.users x = [] ∧ n.uses .inputs x = 0 := by
  rw [Graph.users_eq_nil_iff, Graph.users_eq_nil_iff]
  constructor
  · intro hall
    refine ⟨fun u => ?_, ?_⟩
    · have := hall u
      rw [h.listed] at this
      omega
    · have := hall id
      rw [h.listed, if_pos rfl] at this
      omega
  · rintro ⟨hall, hzero⟩ u
    rw [h.listed, hall u, hzero]
    simp

/-- A new node brings its own notes, and control comes to its successors. -/
theorem Adds.moves (h : Adds g g' id n) (hg : g.Consistent)
    (hends : ∀ t, 0 < n.uses .inputs t → g.cls? t ≠ some .forwardEnd) :
    Moves g g' (newNotes n id ++ heldBy g n) ((n.targets .successors).map ((.loose, ·))) where
  keepsOps := h.keepsOps
  bound := by rw [h.bound]; omega
  notes k x := by
    have hnone (k : Note) (y : NodeId) (hy : y = id) : ¬ g.Notes k y := by
      subst hy
      intro hk
      have := hk.registered
      simp [Graph.node?, h.get?_fresh] at this
    by_cases hx : x = id
    · subst hx
      have hheld (k : Note) : (k, x) ∉ heldBy g n := by
        simp only [heldBy, List.mem_map, List.mem_filter, Prod.mk.injEq, not_exists, not_and]
        rintro t ⟨ht, -⟩ - rfl
        have := h.alive .inputs t (Node.mem_targets.1 ht)
        simp [h.not_isAlive] at this
      have hnode : g'.node? x = some n := by rw [h.node?, if_pos rfl]
      have halive : g'.isAlive x := by rw [h.isAlive, if_pos rfl]
      simp only [hnone k x rfl, false_and, or_false, List.mem_append, hheld, newNotes]
      cases k with
      | loose =>
        simp [Notes, halive, h.cls?, h.predecessor?_fresh]
      | gap =>
        simp [Notes, halive, hnode]
      | unlisted =>
        simp [Notes, halive, h.cls?, h.users_fresh hg]
      | held => simp [Notes, h.users_fresh hg]
      | quiet =>
        simp [Notes, halive, hnode]
    · have hown (k : Note) : (k, x) ∉ newNotes n id := by
        simp only [newNotes, List.mem_append, not_or]
        refine ⟨⟨⟨?_, ?_⟩, ?_⟩, ?_⟩ <;> split <;> simp [hx]
      have hnode : g'.node? x = g.node? x := by rw [h.node?, if_neg hx]
      have halive : g'.isAlive x = g.isAlive x := by rw [h.isAlive, if_neg hx]
      have hcls : g'.cls? x = g.cls? x := by rw [h.cls?, if_neg hx]
      simp only [List.mem_append, hown, false_or]
      cases k with
      | loose =>
        simp only [Notes, halive, hcls, h.predecessor?, heldBy, List.mem_map, Prod.mk.injEq,
          reduceCtorEq, false_and, and_false, exists_false, false_or, true_and, exists_eq_right,
          Node.mem_targets]
        split <;> simp_all
      | gap => simp [Notes, halive, hnode, heldBy]
      | unlisted =>
        simp only [Notes, halive, hcls, h.users_eq_nil_iff x, heldBy, List.mem_map, Prod.mk.injEq,
          reduceCtorEq, false_and, and_false, exists_false, false_or, not_false_eq_true, and_true]
        constructor
        · rintro ⟨ha, hc, hu, -⟩
          exact ⟨ha, hc, hu⟩
        · rintro ⟨ha, hc, hu⟩
          refine ⟨ha, hc, hu, ?_⟩
          by_contra hne
          exact hends x (Nat.pos_of_ne_zero hne) hc
      | held =>
        have hmem : (Note.held, x) ∈ heldBy g n ↔ 0 < n.uses .inputs x ∧ g.cls? x = some .placeholder := by
          simp [heldBy, Node.mem_targets]
        simp only [Notes, hcls, ne_eq, h.users_eq_nil_iff x, hmem, List.mem_map, Prod.mk.injEq,
          reduceCtorEq, false_and, and_false, exists_false, not_false_eq_true, and_true]
        rw [Nat.pos_iff_ne_zero]
        tauto
      | quiet => simp [Notes, halive, hnode, heldBy]
  deleted x c hc ha := by
    rw [h.isAlive] at ha
    rw [h.cls?] at hc
    split at ha
    · cases ha
    · exact .inr ⟨by rwa [if_neg ‹_›] at hc, ha⟩

/-! ### Writing edges -/

theorem users_eq_nil_congr (h : ∀ u, g'.listed x u = g.listed x u) : g'.users x = [] ↔ g.users x = [] := by
  simp only [Graph.users_eq_nil_iff, h]

theorem Rewires.users_eq_nil_iff_of_successors (h : Rewires g g' id .successors n n' old new)
    (x : NodeId) : g'.users x = [] ↔ g.users x = [] :=
  users_eq_nil_congr fun u => by simpa using h.listed x u

/-- What is noted of the edited node is what holds of it now. -/
theorem Rewires.own_iff (h : Rewires g g' id d n n' old new) {P : Node → Prop} {q : Prop}
    (hq : P n' ↔ P n ∧ q) : (g'.isAlive x ∧ ∃ m, g'.node? x = some m ∧ P m) ↔
      (g.isAlive x ∧ ∃ m, g.node? x = some m ∧ P m) ∧ (x = id → q) := by
  rw [h.isAlive, h.node?]
  by_cases hx : x = id
  · simp [hx, h.node, hq, and_assoc]
  · simp [hx]

section

variable [Source] (hs : g.SoundBut gone)

include hs

/-- Control comes to the new successor, and to the old one no more. -/
theorem Rewires.notes_loose (h : Rewires g g' id .successors n n' old new)
    (he : n.Edit n' .successors field old new)
    (hnew : ∀ t, new = some t → g.predecessor? t = none) (x : NodeId) :
    g'.Notes .loose x ↔ old = some x ∨ g.Notes .loose x ∧ new ≠ some x := by
  have huses (o : NodeId) (ho : old = some o) : 0 < g.uses .successors id o := by
    rw [uses_of_node? h.node]
    exact (ho ▸ he).uses_old_pos
  simp only [Notes, h.isAlive, h.cls? he, h.predecessor?, reduceCtorEq, false_or]
  by_cases hx : new = some x
  · -- the new successor had no predecessor, so that it is not the old one
    have hne : old ≠ some x := fun ho => by
      simpa [hnew x hx] using hs.consistent.predecessor id x (huses x ho)
    have : old ≠ new := by rwa [hx]
    simp [hx, hne]
  · by_cases ho : old = some x
    · obtain ⟨ct, hct, hf⟩ := hs.isFollower (huses x ho)
      have hne : old ≠ new := by rw [ho]; exact fun h => hx h.symm
      simp [hx, ho, hct, hf, hs.consistent.isAlive_target (huses x ho), ho ▸ hne]
    · by_cases heq : old = new <;> simp [hx, ho, heq]

variable (h : Rewires g g' id .successors n n' old (some t))
  (he : n.Edit n' .successors field old (some t)) (ht : g.Notes .loose t)

include h he ht

/-- A node in hand becomes a successor; with that, a note on its new predecessor goes. -/
theorem Rewires.moves_successor {k : Note} (hk : k = .gap ∨ k = .quiet)
    (hgap : ¬ n'.Complete ↔ ¬ n.Complete ∧ k ≠ .gap)
    (hquiet : n'.slotsAt .successors 1 = [none] ↔ n.slotsAt .successors 1 = [none] ∧ k ≠ .quiet) :
    Moves g g' (old.toList.map ((.loose, ·))) [(k, id), (.loose, t)] where
  keepsOps := h.keepsOps he
  bound := h.keeps.bound.ge
  notes k' x := by
    cases k' with
    | loose =>
      rw [h.notes_loose hs he (by rintro _ ⟨⟩; exact ht.2.2)]
      rcases hk with rfl | rfl <;> simp [eq_comm]
    | gap =>
      rw [Notes, h.own_iff hgap]
      rcases hk with rfl | rfl <;> simp [Notes]
    | unlisted =>
      rcases hk with rfl | rfl <;> simp [Notes, h.isAlive, h.cls? he, h.users_eq_nil_iff_of_successors]
    | held =>
      rcases hk with rfl | rfl <;> simp [Notes, h.cls? he, h.users_eq_nil_iff_of_successors]
    | quiet =>
      rw [Notes, h.own_iff hquiet]
      rcases hk with rfl | rfl <;> simp [Notes]
  deleted x c hc ha := .inr ⟨by rwa [h.cls? he] at hc, by rwa [h.isAlive] at ha⟩

/-- Letting control go on to a node: it has a predecessor now, and its predecessor a successor. -/
theorem Rewires.moves_next (hfield : n.layout.fieldIndex? .successors "next" = some field) :
    Moves g g' (old.toList.map ((.loose, ·))) [(.gap, id), (.loose, t)] := by
  have hfits' : n'.Fits g.cls? := he.fits (hs.fits id n h.node) fun v spec hv hspec => by
    cases hv
    exact (Option.any_eq_true _ _).1 ht.2.1
  have hcomplete : n'.Complete := he.complete_of_next (hs.fits id n h.node) hfits' hfield
  obtain ⟨rfl, -⟩ := Node.successors_of_next hfield
  have hslots : n'.slotsAt .successors 1 = n.slotsAt .successors 1 := by
    rw [Node.slotsAt, he.elsewhere 1 (by omega), Node.slotsAt]
  exact h.moves_successor hs he ht (.inl rfl) (by simp [hcomplete]) (by simp [hslots])

/-- Giving a node an exception edge. -/
theorem Rewires.moves_exceptionEdge
    (hfield : n.layout.fieldIndex? .successors "exception_edge" = some field) :
    Moves g g' (old.toList.map ((.loose, ·))) [(.quiet, id), (.loose, t)] := by
  have hcomplete := he.complete_iff_of_exception_edge hfield
  obtain ⟨rfl, -⟩ := Node.successors_of_exception_edge hfield
  have hslots : n'.slotsAt .successors 1 ≠ [none] := fun hs' => by
    have hcount := he.swaps.count t
    rw [hs'] at hcount
    have hzero : (n.slotsAt .successors 1).count (some t) = 0 := by
      have hu : n.uses .successors t = 0 := by
        rw [← uses_of_node? h.node, hs.consistent.uses_successors, if_neg (by simp [ht.2.2])]
      by_contra hne
      have := Node.mem_slots_of_mem_slotsAt (List.count_pos_iff.1 (Nat.pos_of_ne_zero hne))
      have := List.count_pos_iff.2 this
      unfold Node.uses at hu
      omega
    have hold : old = some t := by
      by_contra hne
      simp [hzero, occurs_of_ne hne] at hcount
    have := List.count_pos_iff.2 (he.swaps.old_mem t hold)
    omega
  exact h.moves_successor hs he ht (.inr rfl) (by simp [hcomplete]) (by simp [hslots])

end

/-- Writing an input, where neither ends nor placeholders are exchanged for others. -/
theorem Rewires.moves_input (h : Rewires g g' id .inputs n n' old new)
    (he : n.Edit n' .inputs field old new)
    (hold : ∀ t, old = some t → g.cls? t ≠ some .forwardEnd ∧ g.cls? t ≠ some .placeholder)
    (hnew : ∀ t, new = some t → g.cls? t ≠ some .placeholder) :
    Moves g g' [] (new.toList.map ((.unlisted, ·))) where
  keepsOps := h.keepsOps he
  bound := h.keeps.bound.ge
  notes k x := by
    have hpred : g'.predecessor? x = g.predecessor? x := by simp [h.predecessor?]
    have hcomplete := he.complete_iff_of_inputs
    have hlisted (u : NodeId) := h.listed x u
    simp only [true_and] at hlisted
    have hsucc : n'.links .successors = n.links .successors := he.other .successors (by decide)
    have hslots : n'.slotsAt .successors 1 = n.slotsAt .successors 1 := by
      rw [Node.slotsAt, hsucc, Node.slotsAt]
    cases k with
    | loose => simp [Notes, h.isAlive, h.cls? he, hpred]
    | gap =>
      rw [Notes, h.own_iff (q := True) (by simp [hcomplete])]
      simp [Notes]
    | unlisted =>
      simp only [Notes, h.isAlive, h.cls? he, List.not_mem_nil, false_or]
      by_cases hc : g.cls? x = some .forwardEnd
      · have ho : occurs old x = 0 := occurs_of_ne fun ho => (hold x ho).1 hc
        have husers : g'.users x = [] ↔ g.users x = [] ∧ new ≠ some x := by
          rw [Graph.users_eq_nil_iff, Graph.users_eq_nil_iff]
          constructor
          · intro hall
            refine ⟨fun u => ?_, ?_⟩
            · have := hlisted u
              rw [hall u, ho] at this
              simp only [ite_self] at this
              omega
            · rintro rfl
              have := hlisted id
              rw [hall id, ho] at this
              simp at this
          · rintro ⟨hall, hne⟩ u
            have := hlisted u
            rw [hall u, ho, occurs_of_ne hne] at this
            simpa using this
        simp [hc, husers]
        tauto
      · simp [hc]
    | held =>
      have husers (hc : g.cls? x = some .placeholder) : g'.users x = [] ↔ g.users x = [] :=
        users_eq_nil_congr fun u => by
          simpa [occurs_of_ne fun ho => (hold x ho).2 hc, occurs_of_ne fun hn => hnew x hn hc] using hlisted u
      simp [Notes, h.cls? he, and_congr_right fun hc => not_congr (husers hc)]
    | quiet =>
      rw [Notes, h.own_iff (q := True) (by simp [hslots])]
      simp [Notes]
  deleted x c hc ha := .inr ⟨by rwa [h.cls? he] at hc, by rwa [h.isAlive] at ha⟩

/-! ### Deleting -/

/-- Phis and proxies go without a trace in the control flow. -/
theorem Deletes.moves (h : Deletes g g' id n) [Source] (hs : g.SoundBut gone) (hgo : mayGo n.cls) :
    Moves g g' [] [] := by
  have hcls : n.cls = .phi ∨ n.cls = .proxy := by simpa [mayGo] using hgo
  have hlayout : n.layout.successors = [] := by
    show n.cls.layout.successors = []
    rcases hcls with hc | hc <;> rw [hc] <;> rfl
  have hshaped := (hs.fits id n h.node).shaped
  have hlinks := hshaped.links_eq_nil (d := .successors) hlayout
  have hcomplete := hshaped.complete hlayout
  have hsucc (t : NodeId) : n.uses .successors t = 0 := hs.uses_successors_eq_zero h.node hlayout t
  have hinput {t : NodeId} (ht : 0 < n.uses .inputs t) :
      g.cls? t ≠ some .forwardEnd ∧ g.cls? t ≠ some .placeholder := by
    obtain ⟨spec, ct, hct, htakes⟩ := hs.takes h.node ht
    rw [hct]
    refine ⟨?_, ?_⟩ <;> rintro ⟨⟩
    · rcases NodeClass.takes_forwardEnd htakes with hc | hc <;> simp [hc] at hcls
    · simp [NodeClass.takes_placeholder htakes] at hcls
  have husers {x : NodeId} (hc : g.cls? x = some .forwardEnd ∨ g.cls? x = some .placeholder) :
      g'.users x = [] ↔ g.users x = [] := by
    have hzero : n.uses .inputs x = 0 := by
      by_contra hne
      have := hinput (Nat.pos_of_ne_zero hne)
      tauto
    exact users_eq_nil_congr fun u => by simp [h.listed, hzero]
  have hid : g.cls? id = some n.cls := cls?_of_node? h.node
  refine ⟨h.keepsOps, h.keeps.bound.ge, fun k x => ?_, fun x c hc ha => ?_⟩
  · simp only [List.not_mem_nil, false_or, not_false_eq_true, and_true]
    by_cases hx : x = id
    · subst hx
      have hnot : (g.cls? x).any (·.isFollower) = false := by
        rw [hid]
        rcases hcls with hc | hc <;> rw [hc] <;> rfl
      have hne : g.cls? x ≠ some .forwardEnd ∧ g.cls? x ≠ some .placeholder := by
        rw [hid]
        rcases hcls with hc | hc <;> rw [hc] <;> decide
      cases k with
      | loose => simp [Notes, h.isAlive, hnot]
      | gap => simp [Notes, h.isAlive, h.node, hcomplete]
      | unlisted => simp [Notes, h.isAlive, hne]
      | held => simp [Notes, h.cls?, hne]
      | quiet =>
        simp [Notes, h.isAlive, h.node, Node.slotsAt, hlinks]
    · cases k with
      | loose => simp [Notes, h.isAlive, h.cls?, h.predecessor?, hsucc, hx]
      | gap => simp [Notes, h.isAlive, h.node?, hx]
      | unlisted =>
        simp only [Notes, h.isAlive, h.cls?, hx, if_false]
        exact and_congr_right fun _ => and_congr_right fun hc => husers (.inl hc)
      | held =>
        simp only [Notes, h.cls?]
        exact and_congr_right fun hc => not_congr (husers (.inr hc))
      | quiet => simp [Notes, h.isAlive, h.node?, hx]
  · rw [h.cls?] at hc
    by_cases hx : x = id
    · subst hx
      obtain rfl : n.cls = c := Option.mem_unique hid hc
      exact .inl hgo
    · rw [h.isAlive, if_neg hx] at ha
      exact .inr ⟨hc, ha⟩

end Graph

end SeaOfNodes
