import SeaOfNodes.Proofs.Graph.EdgeSymmetry
import SeaOfNodes.Proofs.Node.Shape

/-!
# Sharing nodes with inputs

A node with inputs is searched among the users of one of its inputs only, the one with the fewest
users. In a consistent graph that is enough: a live node with the same inputs is a user of every one
of them, so none of them is without users, and whichever is chosen lists it.
-/

namespace SeaOfNodes.Graph

variable {g g' : Graph} {id x t : NodeId} {n m : Node}

/-- The node `id` is alive and like `n`. -/
def LiveAlike (g : Graph) (n : Node) (id : NodeId) : Prop :=
  g.isAlive id = true ∧ ∃ m, g.node? id = some m ∧ m.Alike n

/-- Where every node has the shape of its class, a live node like `n` is a live copy of `n`. -/
theorem liveAlike_iff (hg : ∀ x m, g.node? x = some m → m.Shaped) (hn : n.Shaped) :
    g.LiveAlike n id ↔ g.isAlive id ∧ g.node? id = some n := by
  refine and_congr_right fun _ => ⟨?_, fun h => ⟨n, h, .refl n⟩⟩
  rintro ⟨m, hm, halike⟩
  rw [hm, halike.eq (hg id m hm) hn]

/-! ### The search -/

/-- The users are searched to the end. -/
theorem meets_findAmong_none (n : Node) (users : List NodeId) :
    Ensures (findAmong n users) g
      (fun r _ => r = none → ∀ u ∈ users, ∀ m, g.node? u = some m → ¬ m.Alike n) := by
  induction users with
  | nil => exact fun _ u hu => absurd hu List.not_mem_nil
  | cons user rest ih =>
    unfold findAmong
    refine meets_bind.2 (meets_node.2 ⟨fun m hm => ?_, fun _ => trivial⟩)
    split
    · exact fun h => absurd h (by simp)
    · rename_i hsame
      refine ih.imp fun r _ h hr u hu m' hm' => ?_
      rcases List.mem_cons.1 hu with rfl | hu
      · obtain rfl : m = m' := Option.mem_unique hm hm'
        exact fun halike => hsame (Node.sameStructure_iff.2 halike)
      · exact h hr u hu m' hm'

/-- No input is chosen only if there is none to choose from, or one of them has no users. -/
theorem meets_fewestUsed_none (hp : g.Packed) (inputs : List NodeId) (best : Option (NodeId × Nat)) :
    Ensures (fewestUsed inputs best) g
      (fun r _ => r = none → inputs = [] ∧ best = none ∨ ∃ t ∈ inputs, g.users t = []) := by
  induction inputs generalizing best with
  | nil => exact fun h => .inl ⟨rfl, Option.map_eq_none_iff.1 h⟩
  | cons input rest ih =>
    unfold fewestUsed
    refine meets_bind.2 (meets_entry.2 ⟨fun e he => ?_, fun _ => trivial⟩)
    have go (b : NodeId × Nat) : Ensures (fewestUsed rest (some b)) g
        (fun r _ => r = none →
          input :: rest = [] ∧ best = none ∨ ∃ t ∈ input :: rest, g.users t = []) :=
      (ih (some b)).imp fun r _ h hr => by
        rcases h hr with ⟨-, hb⟩ | ⟨t, ht, hnil⟩
        · simp at hb
        · exact .inr ⟨t, List.mem_cons_of_mem _ ht, hnil⟩
    by_cases hcount : e.usages.size = 0
    · have hnil : g.users input = [] := by
        rw [users_of_get? he, ← List.length_eq_zero_iff, ← (hp input e he).size, hcount]
      simp only [if_pos hcount]
      exact fun _ => .inr ⟨input, by simp, hnil⟩
    · simp only [if_neg hcount]
      cases best with
      | none => exact go _
      | some b =>
        simp only
        split
        · exact go _
        · exact go _

theorem LiveAlike.mem_users (hg : g.Consistent) (h : g.LiveAlike n id) (ht : 0 < n.uses .inputs t) :
    id ∈ g.users t := by
  obtain ⟨-, m, hm, halike⟩ := h
  rw [← List.count_pos_iff]
  show 0 < g.listed t id
  rwa [hg.listed, uses_of_node? hm, halike.uses]

/-- Among nodes with inputs, the search finds a live node alike exactly if there is one. -/
theorem meets_findEqual_inputs (hg : g.Consistent) (hleaf : n.op.isLeaf = false)
    (hin : ∃ t, 0 < n.uses .inputs t) (halive : ∀ t, 0 < n.uses .inputs t → g.isAlive t) :
    Meets (findEqual n) g
      (fun r g' => g' = g ∧ (∀ id, r = some id → g.LiveAlike n id) ∧
        (r = none → ∀ id, ¬ g.LiveAlike n id))
      (fun _ => False) := by
  unfold findEqual
  rw [if_neg (by simp [hleaf])]
  refine meets_bind.2 (((meets_fewestUsed _ none).and (meets_fewestUsed_none hg.packed _ none)).mono
    (fun r g' h => ?_) fun _ he => he.1 fun t ht =>
      registered_of_isAlive (halive t (Node.mem_targets.1 ht)))
  obtain ⟨⟨rfl, hmem⟩, hnone⟩ := h
  cases r with
  | none =>
    refine ⟨rfl, by simp, fun _ id hid => ?_⟩
    -- a node alike would be a user of every input, and there is one
    rcases hnone rfl with ⟨hnil, -⟩ | ⟨t, ht, hnil⟩
    · obtain ⟨t, ht⟩ := hin
      exact absurd (Node.mem_targets.2 ht) (by simp [hnil])
    · have := hid.mem_users hg (Node.mem_targets.1 ht)
      simp [hnil] at this
  | some t =>
    have ht : 0 < n.uses .inputs t := by simpa [Node.mem_targets] using hmem t rfl
    refine meets_bind.2 (meets_entry.2 ⟨fun e he => ?_, fun hget => ?_⟩)
    · rw [← users_of_get? he]
      refine ((meets_findAmong n _).and (meets_findAmong_none n _)).mono (fun r g'' h' => ?_)
        fun _ he => he.1 fun u hu => registered_of_isAlive (hg.isAlive_user hu)
      obtain ⟨⟨rfl, hfound⟩, hrest⟩ := h'
      refine ⟨rfl, fun id hid => ?_, fun hr id hid => ?_⟩
      · obtain ⟨hu, m, hm, hsame⟩ := hfound id hid
        exact ⟨hg.isAlive_user hu, m, hm, Node.sameStructure_iff.1 hsame⟩
      · have hmem' := hid.mem_users hg ht
        obtain ⟨-, m, hm, halike⟩ := hid
        exact hrest hr id hmem' m hm halike
    · have := halive t ht
      simp [isAlive, hget] at this

/-! ### Asking for a node -/

theorem Adds.liveAlike_iff (h : Adds g g' id n) :
    g'.LiveAlike m x ↔ x = id ∧ n.Alike m ∨ x ≠ id ∧ g.LiveAlike m x := by
  unfold LiveAlike
  rw [h.isAlive, h.node?]
  by_cases hx : x = id <;> simp [hx]

/-- A node with inputs is added only if no live node is like it. -/
theorem meets_intern_inputs (hg : g.Consistent) (hshaped : n.Shaped)
    (hv : n.op.isValueNumberable) (hin : ∃ t, 0 < n.uses .inputs t)
    (halive : ∀ t, 0 < n.uses .inputs t → g.isAlive t) :
    Meets (intern n) g
      (fun id g' => g' = g ∧ g.LiveAlike n id ∨ (∀ x, ¬ g.LiveAlike n x) ∧ Adds g g' id n)
      (fun _ => False) := by
  have hleaf : n.op.isLeaf = false := hshaped.isLeaf_eq_false hin.choose_spec
  have hall (d : Direction) (t : NodeId) (ht : 0 < n.uses d t) : g.isAlive t := by
    cases d with
    | inputs => exact halive t ht
    | successors => simp [hshaped.uses_successors_eq_zero hv] at ht
  have hcan : g.CanAdd n :=
    ⟨fun d t ht => registered_of_isAlive (hall d t ht),
      fun t ht => by simp [hshaped.uses_successors_eq_zero hv] at ht⟩
  unfold intern
  simp only [hv]
  refine (meets_findEqual_inputs hg hleaf hin halive).bind fun r g1 h => ?_
  obtain ⟨rfl, hfound, hnone⟩ := h
  cases r with
  | some id => exact .inl ⟨rfl, hfound id rfl⟩
  | none =>
    refine meets_bind.2 ((meets_addFresh hg.packed n).mono (fun id g2 hadds => ?_) fun e he => ?_)
    · simp only [hleaf]
      exact .inr ⟨hnone rfl, hadds⟩
    · rcases he with ⟨d, t, m, ht, -, hdead, -⟩ | hno
      · rw [hall d t ht] at hdead
        cases hdead
      · exact hno hcan

/-- Sharing of nodes with inputs is sound and complete. The search for a node like `n` changes
nothing, finds a live one if there is one, and finds nothing else. Asking for `n` gives a live node
like it, a new one only if there was none; asking again right away gives the same node and changes
nothing. Where all nodes have the shape of their class, like means equal. -/
theorem sharing_complete (hg : g.Consistent) (hshaped : n.Shaped)
    (hin : ∃ t, 0 < n.uses .inputs t) (halive : ∀ t, 0 < n.uses .inputs t → g.isAlive t = true) :
    (∃ r, findEqual n g = .ok (r, g) ∧ (r.isSome ↔ ∃ id, g.LiveAlike n id) ∧
      ∀ id, r = some id → g.LiveAlike n id) ∧
    (n.op.isValueNumberable = true → ∃ id g₁, intern n g = .ok (id, g₁) ∧ g₁.LiveAlike n id ∧
      ((∃ x, g.LiveAlike n x) → g₁ = g) ∧ ((¬ ∃ x, g.LiveAlike n x) → Adds g g₁ id n) ∧
      intern n g₁ = .ok (id, g₁)) ∧
    ((∀ x m, g.node? x = some m → m.Shaped) →
      ∀ id, g.LiveAlike n id ↔ g.isAlive id = true ∧ g.node? id = some n) := by
  refine ⟨?_, fun hv => ?_, fun hall id => liveAlike_iff hall hshaped⟩
  · have hleaf : n.op.isLeaf = false := hshaped.isLeaf_eq_false hin.choose_spec
    obtain ⟨r, _, hrun, rfl, hfound, hnone⟩ := (meets_findEqual_inputs hg hleaf hin halive).exists_ok
    refine ⟨r, hrun, ⟨fun hr => ?_, fun ⟨id, hid⟩ => ?_⟩, hfound⟩
    · obtain ⟨id, rfl⟩ := Option.isSome_iff_exists.1 hr
      exact ⟨id, hfound id rfl⟩
    · by_contra hr
      exact hnone (by simpa using hr) id hid
  · obtain ⟨id, g₁, hrun, h⟩ := (meets_intern_inputs hg hshaped hv hin halive).exists_ok
    rcases h with ⟨rfl, hid⟩ | ⟨hno, hadds⟩
    · exact ⟨id, g₁, hrun, hid, fun _ => rfl, fun hnot => absurd ⟨id, hid⟩ hnot, hrun⟩
    · have hself : g₁.LiveAlike n id := hadds.liveAlike_iff.2 (.inl ⟨rfl, .refl n⟩)
      -- the new node is the only one alike, so it is the one that is found
      have halive₁ (t : NodeId) (ht : 0 < n.uses .inputs t) : g₁.isAlive t = true := by
        rw [hadds.isAlive, halive t ht, ite_self]
      obtain ⟨id', _, hrun', h'⟩ :=
        (meets_intern_inputs (hadds.consistent hg) hshaped hv hin halive₁).exists_ok
      rcases h' with ⟨rfl, hid'⟩ | ⟨hno', -⟩
      · rcases hadds.liveAlike_iff.1 hid' with ⟨rfl, -⟩ | ⟨-, hid'⟩
        · exact ⟨id', _, hrun, hself, fun h => absurd h (not_exists.2 hno), fun _ => hadds, hrun'⟩
        · exact absurd hid' (hno id')
      · exact absurd hself (hno' id)

/-- A sum with its operands exchanged is another node, new when it is first asked for. -/
theorem sharing_complete_sum : ∃ g,
    Call.runAll [.intern (.int 3), .intern (.int 4), .intern (.binary .add .int ⟨0⟩ ⟨1⟩)]
      (empty "") = .ok ((), g) ∧
    ∃ id g₁, intern (.binary .add .int ⟨1⟩ ⟨0⟩) g = .ok (id, g₁) ∧
      Adds g g₁ id (.binary .add .int ⟨1⟩ ⟨0⟩) ∧
      intern (.binary .add .int ⟨1⟩ ⟨0⟩) g₁ = .ok (id, g₁) := by
  let calls : List Call :=
    [.intern (.int 3), .intern (.int 4), .intern (.binary .add .int ⟨0⟩ ⟨1⟩)]
  obtain ⟨⟨_, g⟩, hrun, htest⟩ := exists_ok_of_any (r := Call.runAll calls (empty ""))
    (p := fun r => r.2.isAlive ⟨0⟩ && r.2.isAlive ⟨1⟩ &&
      (findEqual (.binary .add .int ⟨1⟩ ⟨0⟩) r.2).toOption.any (·.1 == none))
    (by decide +kernel)
  simp only [Bool.and_eq_true] at htest
  obtain ⟨⟨h₀, h₁⟩, hnone⟩ := htest
  have hg : g.Consistent := Call.consistent_of_runAll (by simp [calls, Call.WiresDeleted]) hrun
  have halive (t : NodeId) (ht : 0 < (Node.binary .add .int ⟨1⟩ ⟨0⟩).uses .inputs t) :
      g.isAlive t = true := by
    have hmem : t ∈ ([⟨1⟩, ⟨0⟩] : List NodeId) := Node.mem_targets.2 ht
    simp only [List.mem_cons, List.not_mem_nil, or_false] at hmem
    rcases hmem with rfl | rfl
    exacts [h₁, h₀]
  obtain ⟨⟨r, hfind, hiff, -⟩, hintern, -⟩ :=
    sharing_complete hg (by decide) ⟨⟨0⟩, by decide⟩ halive
  obtain ⟨id, g₁, hid, -, -, hadds, hagain⟩ := hintern rfl
  have hno : ¬ ∃ x, g.LiveAlike (.binary .add .int ⟨1⟩ ⟨0⟩) x := by
    rw [← hiff]
    simpa [hfind, Except.toOption] using hnone
  exact ⟨g, hrun, id, g₁, hid, hadds hno, hagain⟩

end SeaOfNodes.Graph
