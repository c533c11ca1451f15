import SeaOfNodes.Proofs.Graph.Register

/-!
# Both ends of every edge agree

A graph is consistent when each node is listed as a user of another as often as it has it as an
input, when a node is a successor of its predecessor and of no other slot, when deleted nodes have
no edges at all, and when usage lists are packed. Each change of a graph keeps it consistent, unless
it gives an edge to or from a deleted node.
-/

namespace SeaOfNodes.Graph

variable {g g' : Graph} {id x t : NodeId} {n n' m : Node} {d : Direction} {field : Nat}
  {old new : Option NodeId}

/-- Both ends of every edge agree. -/
structure Consistent (g : Graph) : Prop where
  /-- A node is listed as a user as often as it has the input. -/
  listed : ∀ n t, g.listed t n = g.uses .inputs n t
  /-- A successor has the node as its predecessor. -/
  predecessor : ∀ n t, 0 < g.uses .successors n t → g.predecessor? t = some n
  /-- A predecessor has the node in exactly one successor slot. -/
  successor : ∀ n t, g.predecessor? t = some n → g.uses .successors n t = 1
  /-- A deleted node has no edges. -/
  deleted : ∀ n, (g.node? n).isSome → g.isAlive n = false →
    (∀ d t, g.uses d n t = 0) ∧ g.users n = [] ∧ g.predecessor? n = none
  /-- Every usage list is packed. -/
  packed : g.Packed

namespace Consistent

section

variable (h : g.Consistent)

include h

theorem isAlive_of_uses (hu : 0 < g.uses d id t) : g.isAlive id := by
  obtain ⟨n, hn, -⟩ := exists_node?_of_uses hu
  by_contra ha
  have := (h.deleted id (by simp [hn]) (by simpa using ha)).1 d t
  omega

theorem uses_of_predecessor (hp : g.predecessor? t = some id) : 0 < g.uses .successors id t := by
  rw [h.successor id t hp]
  exact Nat.one_pos

theorem isAlive_of_mem_users (hu : x ∈ g.users t) : g.isAlive t := by
  obtain ⟨n, hn⟩ := exists_node?_of_mem_users hu
  by_contra ha
  simp [(h.deleted t (by simp [hn]) (by simpa using ha)).2.1] at hu

theorem isAlive_of_predecessor (hp : g.predecessor? t = some id) :
    g.isAlive t := by
  by_contra ha
  obtain ⟨n, hn⟩ := exists_node?_of_predecessor? hp
  simp [(h.deleted t (by simp [hn]) (by simpa using ha)).2.2] at hp

/-- What an edge leads to is alive. -/
theorem isAlive_target (hu : 0 < g.uses d id t) : g.isAlive t := by
  cases d with
  | inputs =>
    rw [← h.listed] at hu
    exact h.isAlive_of_mem_users (List.count_pos_iff.1 hu)
  | successors => exact h.isAlive_of_predecessor (h.predecessor id t hu)

theorem isAlive_of_slot {field : Nat} (hn : g.node? id = some n) (ht : some t ∈ n.slotsAt d field) :
    g.isAlive t :=
  h.isAlive_target (uses_pos_of_slot hn ht)

theorem registered_target (hu : 0 < g.uses d id t) : (g.node? t).isSome := by
  obtain ⟨m, hm⟩ := exists_node?_of_isAlive (h.isAlive_target hu)
  simp [hm]

/-- A user has the node as an input. -/
theorem uses_of_mem_users (hu : x ∈ g.users t) : 0 < g.uses .inputs x t := by
  rw [← h.listed]
  exact List.count_pos_iff.2 hu

theorem mem_users_iff : x ∈ g.users t ↔ 0 < g.uses .inputs x t := by
  rw [← h.listed, Graph.listed, List.count_pos_iff]

theorem isAlive_user (hu : x ∈ g.users t) : g.isAlive x :=
  h.isAlive_of_uses (h.uses_of_mem_users hu)

theorem uses_successors_le (n t : NodeId) : g.uses .successors n t ≤ 1 := by
  by_cases hu : 0 < g.uses .successors n t
  · exact (h.successor n t (h.predecessor n t hu)).le
  · omega

theorem uses_successors (n t : NodeId) :
    g.uses .successors n t = if g.predecessor? t = some n then 1 else 0 := by
  split
  · exact h.successor n t ‹_›
  · by_contra hne
    exact ‹¬ _› (h.predecessor n t (by omega))

end

/-- The two halves on successors in one: a node stands in a successor slot once if the owner is its
predecessor, and otherwise not at all. -/
theorem of_uses (listed : ∀ n t, g.listed t n = g.uses .inputs n t)
    (successors : ∀ n t, g.uses .successors n t = if g.predecessor? t = some n then 1 else 0)
    (deleted : ∀ n, (g.node? n).isSome → g.isAlive n = false →
      (∀ d t, g.uses d n t = 0) ∧ g.users n = [] ∧ g.predecessor? n = none)
    (packed : g.Packed) : g.Consistent where
  listed := listed
  predecessor n t hu := by
    rw [successors] at hu
    by_contra hne
    simp [hne] at hu
  successor n t hp := by rw [successors, if_pos hp]
  deleted := deleted
  packed := packed

end Consistent

theorem users_eq_nil_iff : g.users x = [] ↔ ∀ u, g.listed x u = 0 := by
  constructor
  · intro h u; simp [listed, h]
  · intro h
    rw [List.eq_nil_iff_forall_not_mem]
    intro u hu
    have := List.count_pos_iff.2 hu
    have := h u
    unfold listed at this
    omega

/-! ### The graph without nodes -/

theorem get?_empty (name : String) (x : NodeId) : (Graph.empty name).get? x = none := by
  simp [get?, Arena.get?, Graph.empty, Arena.empty]

theorem consistent_empty (name : String) : (Graph.empty name).Consistent where
  listed n t := by simp [Graph.listed, users, uses, node?, get?_empty]
  predecessor n t h := by simp [uses, node?, get?_empty] at h
  successor n t h := by simp [predecessor?, get?_empty] at h
  deleted n h := by simp [node?, get?_empty] at h
  packed x e h := by simp [get?_empty] at h

/-! ### Changes -/

theorem Forgets.consistent (h : Forgets g g') (hg : g.Consistent) : g'.Consistent := by
  have huses (d : Direction) (n t : NodeId) : g'.uses d n t = g.uses d n t := by
    rw [uses, h.node?, uses]
  exact {
    listed := fun n t => by rw [Graph.listed, h.users, huses]; exact hg.listed n t
    predecessor := fun n t hu => by rw [h.predecessor?]; exact hg.predecessor n t (by rwa [huses] at hu)
    successor := fun n t hp => by rw [huses]; exact hg.successor n t (by rwa [h.predecessor?] at hp)
    deleted := fun n hr ha => by
      rw [h.node?] at hr
      rw [h.isAlive] at ha
      simpa [huses, h.users, h.predecessor?] using hg.deleted n hr ha
    packed := h.packed hg.packed }

section

variable (h : Rewires g g' id d n n' old new) (he : n.Edit n' d field old new)

include h he

theorem Rewires.uses (d' : Direction) (x t : NodeId) :
    g'.uses d' x t + (if d' = d ∧ x = id then occurs old t else 0) =
      g.uses d' x t + if d' = d ∧ x = id then occurs new t else 0 := by
  by_cases hx : x = id
  · subst hx
    have h1 : g'.uses d' x t = n'.uses d' t := uses_of_node? (by rw [h.node?, if_pos rfl]) ..
    have h2 : g.uses d' x t = n.uses d' t := uses_of_node? h.node ..
    by_cases hd : d' = d
    · subst hd
      simpa [h1, h2] using he.uses_add t
    · simpa [h1, h2, hd] using he.uses_other hd t
  · have : g'.node? x = g.node? x := by rw [h.node?, if_neg hx]
    simp [hx, Graph.uses, this]

/-- A rewritten slot keeps a graph consistent if no deleted node gets an edge. -/
theorem Rewires.consistent (hg : g.Consistent) (hid : new ≠ none → g.isAlive id)
    (hnew : ∀ t, new = some t → g.isAlive t) : g'.Consistent := by
  have huses := h.uses he
  -- the two ends of the slot change by the same amount
  have hlisted (n t : NodeId) : g'.listed t n = g'.uses .inputs n t := by
    have h1 := h.listed t n
    have h2 := huses .inputs n t
    have h3 := hg.listed n t
    simp only [eq_comm (a := Direction.inputs)] at h2
    omega
  have hpred (n t : NodeId) : g'.uses .successors n t = if g'.predecessor? t = some n then 1 else 0 := by
    have h2 := huses .successors n t
    have h3 := hg.uses_successors n t
    have hpred := h.predecessor? t
    cases d with
    | inputs => simpa [hpred] using h2.trans h3
    | successors =>
      by_cases hon : old = new
      · subst hon
        simp only [or_true, if_true] at hpred
        rw [hpred]
        omega
      · have hold := h.old_pred rfl hon
        have hnew := h.new_pred rfl hon
        simp only [reduceCtorEq, false_or, if_neg hon] at hpred
        by_cases hnt : new = some t
        · have hot : old ≠ some t := fun e => hon (e.trans hnt.symm)
          rw [if_pos hnt] at hpred
          rw [hnew t hnt] at h3
          rw [hpred]
          by_cases hn : n = id
          · subst hn
            simpa [hnt, occurs_of_ne hot, h3] using h2
          · simpa [hn, Ne.symm hn, h3] using h2
        · rw [if_neg hnt] at hpred
          by_cases hot : old = some t
          · rw [if_pos hot] at hpred
            rw [hold t hot] at h3
            rw [hpred]
            by_cases hn : n = id
            · subst hn
              simpa [hot, occurs_of_ne hnt, h3] using h2
            · simpa [hn, Ne.symm hn, h3] using h2
          · rw [if_neg hot] at hpred
            rw [hpred, ← h3]
            simpa [occurs_of_ne hnt, occurs_of_ne hot] using h2
  refine .of_uses hlisted hpred (fun x hr ha => ?_) h.packed
  rw [h.node?, isSome_ite_node? h.node] at hr
  rw [h.isAlive] at ha
  obtain ⟨hbare, husers, hnone⟩ := hg.deleted x hr ha
  have hx : ∀ t, x = id → occurs new t = 0 := by
    rintro t rfl
    cases new with
    | none => rfl
    | some t' => rw [hid (by simp)] at ha; cases ha
  have hnx : occurs new x = 0 := by
    apply occurs_of_ne
    intro e
    rw [hnew x e] at ha
    cases ha
  refine ⟨fun d' t => ?_, users_eq_nil_iff.2 fun u => ?_, ?_⟩
  · have h1 := huses d' x t
    have h2 := hbare d' t
    split_ifs at h1 with hc
    · have := hx t hc.2; omega
    · omega
  · have h1 := h.listed x u
    have h2 := users_eq_nil_iff.1 husers u
    split_ifs at h1 <;> omega
  · rw [h.predecessor?, hnone]
    split_ifs with h1 h2
    · rfl
    · rw [h2] at hnx; simp at hnx
    · rfl
    · rfl

/-- What is written into a slot is an edge. -/
theorem Rewires.uses_new_pos (hnew : new = some t) : 0 < g'.uses d id t := by
  have h1 := h.uses he d id t
  by_cases hon : old = some t
  · have h2 : 0 < g.uses d id t := by
      rw [uses_of_node? h.node]
      exact (hon ▸ he).uses_old_pos
    simp only [hon, hnew, occurs_self] at h1
    omega
  · simp [hnew, occurs_of_ne hon] at h1
    omega

end

theorem Adds.uses (h : Adds g g' id n) (d : Direction) (x t : NodeId) :
    g'.uses d x t = if x = id then n.uses d t else g.uses d x t := by
  rw [Graph.uses, h.node?]
  split <;> rfl

theorem Adds.get?_fresh (h : Adds g g' id n) : g.get? id = none :=
  get?_eq_none_of_bound_le h.fresh.ge

theorem Adds.not_isAlive (h : Adds g g' id n) : g.isAlive id = false := by
  simp [Graph.isAlive, h.get?_fresh]

/-- Nothing has a new node as an input or a successor. -/
theorem Adds.uses_fresh (h : Adds g g' id n) (hg : g.Consistent) (d : Direction) (x : NodeId) :
    g'.uses d x id = 0 := by
  rw [h.uses]
  by_contra hne
  have hpos := Nat.pos_of_ne_zero hne
  split at hpos
  · simpa [h.not_isAlive] using h.alive d id hpos
  · simpa [h.not_isAlive] using hg.isAlive_target hpos

/-- A new node keeps a graph consistent. -/
theorem Adds.consistent (h : Adds g g' id n) (hg : g.Consistent) : g'.Consistent := by
  have hlisted (t : NodeId) : g.listed t id = 0 := by
    rw [hg.listed, Graph.uses, Graph.node?, h.get?_fresh]; rfl
  have hpred (x t : NodeId) : g'.uses .successors x t = if g'.predecessor? t = some x then 1 else 0 := by
    rw [h.uses, h.predecessor?]
    by_cases ht : 0 < n.uses .successors t
    · obtain ⟨hnone, hone⟩ := h.unpreceded t ht
      by_cases hx : x = id
      · simp [hx, hone]
      · simp [hx, Ne.symm hx, ht, hg.uses_successors, hnone]
    · by_cases hx : x = id
      · have hne : g.predecessor? t ≠ some id := fun hp => by
          have := hg.successor id t hp
          simp [Graph.uses, Graph.node?, h.get?_fresh] at this
        simp [hx, hne, show n.uses .successors t = 0 by omega]
      · simp [hx, ht, hg.uses_successors]
  refine .of_uses (fun x t => ?_) hpred (fun x hr ha => ?_) h.packed
  · rw [h.listed, h.uses]
    split
    · subst_vars; rw [hlisted]; omega
    · exact hg.listed x t
  · rw [h.isAlive] at ha
    have hx : x ≠ id := fun e => by simp [e] at ha
    rw [if_neg hx] at ha
    rw [h.node?, if_neg hx] at hr
    obtain ⟨hbare, husers, hnone⟩ := hg.deleted x hr ha
    -- the new node refers to nodes that are alive only
    have hnot (d : Direction) : n.uses d x = 0 := by
      by_contra hne
      rw [h.alive d x (by omega)] at ha
      cases ha
    refine ⟨fun d t => by rw [h.uses, if_neg hx, hbare], users_eq_nil_iff.2 fun u => ?_, ?_⟩
    · rw [h.listed, users_eq_nil_iff.1 husers, hnot]; simp
    · rw [h.predecessor?, hnot, hnone]; simp

theorem Clears.uses (h : Clears g g' id d n) (d' : Direction) (x t : NodeId) :
    g'.uses d' x t = if d' = d ∧ x = id then 0 else g.uses d' x t := by
  rw [Graph.uses, h.node?]
  by_cases hx : x = id
  · simp [hx, Node.uses_clear_ite, uses_of_node? h.node]
  · simp [hx, Graph.uses]

/-- Where a node loses its successors, they lose their predecessor. -/
theorem Consistent.uses_successors_drop (hg : g.Consistent) (hn : g.node? id = some n) (x t : NodeId) :
    (if x = id then 0 else g.uses .successors x t) =
      if (if 0 < n.uses .successors t then none else g.predecessor? t) = some x then 1 else 0 := by
  rw [← uses_of_node? hn, hg.uses_successors, hg.uses_successors]
  by_cases hx : x = id
  · subst hx
    by_cases hp : g.predecessor? t = some x <;> simp [hp]
  · by_cases hp : g.predecessor? t = some id
    · simp [hx, hp, Ne.symm hx]
    · simp [hx, hp]

theorem Clears.predecessor?_eq (h : Clears g g' id .successors n) (hg : g.Consistent) (x : NodeId) :
    g'.predecessor? x = (g.predecessor? x).filter (· ≠ id) := by
  rw [h.predecessor?, ← uses_of_node? h.node, hg.uses_successors]
  cases hp : g.predecessor? x with
  | none => simp
  | some p => by_cases hpid : p = id <;> simp [hpid, Option.filter]

/-- Dropping edges of a node keeps a graph consistent. -/
theorem Clears.consistent (h : Clears g g' id d n) (hg : g.Consistent) : g'.Consistent := by
  have hpred (x t : NodeId) : g'.uses .successors x t = if g'.predecessor? t = some x then 1 else 0 := by
    rw [h.uses, h.predecessor?]
    cases d with
    | inputs => simpa using hg.uses_successors x t
    | successors => simpa using hg.uses_successors_drop h.node x t
  refine .of_uses (fun x t => ?_) hpred (fun x hr ha => ?_) h.packed
  · rw [h.listed, h.uses, hg.listed]
    by_cases hx : x = id
    · cases d <;> simp [hx, uses_of_node? h.node]
    · simp [hx]
  · rw [h.isAlive] at ha
    rw [h.node?, isSome_ite_node? h.node] at hr
    obtain ⟨hbare, husers, hnone⟩ := hg.deleted x hr ha
    refine ⟨fun d t => by rw [h.uses, hbare]; simp, users_eq_nil_iff.2 fun u => ?_, ?_⟩
    · rw [h.listed, users_eq_nil_iff.1 husers]; simp
    · rw [h.predecessor?, hnone]; simp

theorem Deletes.uses (h : Deletes g g' id n) (d : Direction) (x t : NodeId) :
    g'.uses d x t = if x = id then 0 else g.uses d x t := by
  rw [Graph.uses, h.node?]
  by_cases hx : x = id
  · cases d <;> simp [hx, Node.uses_clear_ite]
  · simp [hx, Graph.uses]

/-- Deleting a node keeps a graph consistent. -/
theorem Deletes.consistent (h : Deletes g g' id n) (hg : g.Consistent) : g'.Consistent := by
  have hpred (x t : NodeId) : g'.uses .successors x t = if g'.predecessor? t = some x then 1 else 0 := by
    rw [h.uses, h.predecessor?, hg.uses_successors_drop h.node]
  refine .of_uses (fun x t => ?_) hpred (fun x hr ha => ?_) h.packed
  · rw [h.listed, h.uses, hg.listed]
    by_cases hx : x = id
    · subst hx; simp [uses_of_node? h.node]
    · simp [hx]
  · by_cases hx : x = id
    · subst hx
      have hself : n.uses .successors x = 0 := by
        rw [← uses_of_node? h.node, hg.uses_successors, h.unpreceded]; rfl
      refine ⟨fun d t => by rw [h.uses, if_pos rfl], users_eq_nil_iff.2 fun u => ?_, ?_⟩
      · rw [h.listed, users_eq_nil_iff.1 h.unused]; simp
      · rw [h.predecessor?, hself, h.unpreceded]; simp
    · rw [h.isAlive, if_neg hx] at ha
      rw [h.node?, if_neg hx] at hr
      obtain ⟨hbare, husers, hnone⟩ := hg.deleted x hr ha
      refine ⟨fun d t => by rw [h.uses, hbare]; simp, users_eq_nil_iff.2 fun u => ?_, ?_⟩
      · rw [h.listed, users_eq_nil_iff.1 husers]; simp
      · rw [h.predecessor?, hnone]; simp

/-! ### Writing a field for one node -/

/-- Writing cannot fail, if the new node is there, and no other node leads to it where it becomes a
successor. -/
theorem Consistent.meets_setField (hg : g.Consistent) (hn : g.node? id = some n) {name : String}
    (hfield : n.layout.fieldIndex? d name = some field) (hlt : field < 65536) {x : Option NodeId}
    (hx : (n.links d)[field]? = some (.one x)) (hnew : ∀ t, new = some t → g.isAlive t)
    (hpred : d = .successors → ∀ t, new = some t → g.predecessor? t = none) :
    Meets (setField id d name new) g (fun old g' => old = x ∧
      Rewires g g' id d n (n.withLinks d ((n.links d).set field (.one new))) old new) (fun _ => False) := by
  have hget := Node.get_of_one hlt hx
  have hput := Node.put_of_one hlt hx new
  unfold setField
  refine meets_bind.2 (meets_fieldIndex.2 ⟨fun m hm => ?_, fun hnone => by simp [hn] at hnone⟩)
  obtain rfl : n = m := Option.mem_unique hn hm
  refine ⟨fun f hf => ?_, fun hnone => by simp [hfield] at hnone⟩
  obtain rfl : field = f := Option.mem_unique hfield hf
  refine (meets_setEdge hg.packed id _ new).mono (fun old g' h => ?_) fun e he => ?_
  · obtain ⟨m, n', hput', rfl, -, hr⟩ := h
    obtain rfl : n = m := Option.mem_unique hn hr.node
    obtain rfl := Except.ok.inj (hput.symm.trans hput')
    exact ⟨hget, hr⟩
  · refine he ⟨hnew, n, _, hn, hput, ?_⟩
    have hold (o : NodeId) (ho : n.get (Position.of d field 0) = some o) : 0 < g.uses d id o := by
      rw [uses_of_node? hn]
      exact Node.uses_pos_of_get ho
    cases d with
    | inputs =>
      exact ⟨fun o ho => by rw [hg.listed]; exact hold o ho,
        fun t ht => registered_of_isAlive (hnew t ht)⟩
    | successors =>
      exact .inr ⟨fun o ho => hg.predecessor id o (hold o ho),
        fun t ht => ⟨registered_of_isAlive (hnew t ht), hpred rfl t ht⟩⟩

end SeaOfNodes.Graph
