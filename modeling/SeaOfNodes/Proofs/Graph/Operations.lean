import SeaOfNodes.Proofs.Graph.Consistency

/-!
# The operations of nodes

A handle names a node of the same operation for good: no change of a graph turns one operation into
another, and deleting a node leaves its operation to be read.
-/

namespace SeaOfNodes.Graph

variable {g g' : Graph} {id x t : NodeId} {n n' : Node} {d : Direction} {field : Nat}
  {old new : Option NodeId} {c : NodeClass}

/-- The class of a node, alive or deleted. -/
def cls? (g : Graph) (id : NodeId) : Option NodeClass := (g.node? id).map (·.cls)

theorem cls?_of_node? (h : g.node? id = some n) : g.cls? id = some n.cls := by
  rw [cls?, h]
  rfl

theorem exists_node?_of_cls? (h : g.cls? id = some c) : ∃ n, g.node? id = some n ∧ n.cls = c :=
  Option.map_eq_some_iff.1 h

theorem registered_of_cls? (h : g.cls? id = some c) : (g.node? id).isSome := by
  obtain ⟨n, hn, -⟩ := exists_node?_of_cls? h
  simp [hn]

/-- The operation of a node, alive or deleted. -/
def op? (g : Graph) (id : NodeId) : Option Op := (g.node? id).map (·.op)

theorem op?_of_node? (h : g.node? id = some n) : g.op? id = some n.op := by
  rw [op?, h]
  rfl

theorem cls?_eq_map_op? (g : Graph) (id : NodeId) : g.cls? id = (g.op? id).map Op.cls := by
  rw [cls?, op?, Option.map_map]
  rfl

theorem cls?_congr (h : g'.op? = g.op?) : g'.cls? = g.cls? := by
  funext x
  rw [cls?_eq_map_op?, h, cls?_eq_map_op?]

theorem cls?_of_op? {op : Op} (h : g.op? id = some op) : g.cls? id = some op.cls := by
  rw [cls?_eq_map_op?, h]
  rfl

/-- Handles keep naming nodes of the same operation, and nodes that are gone do not come back. -/
structure KeepsOps (g g' : Graph) : Prop where
  ops : ∀ id op, g.op? id = some op → g'.op? id = some op
  alive : ∀ id op, g.op? id = some op → g'.isAlive id = true → g.isAlive id = true

theorem KeepsOps.cls (h : KeepsOps g g') (id : NodeId) (c : NodeClass) (hc : g.cls? id = some c) :
    g'.cls? id = some c := by
  rw [cls?_eq_map_op?] at hc ⊢
  obtain ⟨op, hop, rfl⟩ := Option.map_eq_some_iff.1 hc
  rw [h.ops id op hop]
  rfl

instance : CoeFun (KeepsOps g g') fun _ => ∀ id c, g.cls? id = some c → g'.cls? id = some c :=
  ⟨KeepsOps.cls⟩

theorem KeepsOps.refl (g : Graph) : KeepsOps g g := ⟨fun _ _ => id, fun _ _ _ => id⟩

theorem KeepsOps.trans {g'' : Graph} (h : KeepsOps g g') (h' : KeepsOps g' g'') : KeepsOps g g'' :=
  ⟨fun id op hop => h'.ops id op (h.ops id op hop), fun id op hop ha =>
    h.alive id op hop (h'.alive id op (h.ops id op hop) ha)⟩

theorem KeepsOps.of_eq (h : g'.op? = g.op?) (ha : ∀ id, g'.isAlive id → g.isAlive id) :
    KeepsOps g g' :=
  ⟨fun id op hop => by rwa [h], fun id _ _ => ha id⟩

theorem KeepsOps.node?_eq_none (h : KeepsOps g g') (hid : g'.node? id = none) : g.node? id = none := by
  by_contra hne
  obtain ⟨n, hn⟩ := Option.ne_none_iff_exists'.1 hne
  have := h.ops id _ (op?_of_node? hn)
  simp [op?, hid] at this

/-! ### Changes -/

theorem Forgets.op? (h : Forgets g g') : g'.op? = g.op? := by
  funext x
  rw [Graph.op?, h.node?, Graph.op?]

theorem Forgets.keepsOps (h : Forgets g g') : KeepsOps g g' :=
  .of_eq h.op? fun x hx => by rwa [h.isAlive] at hx

theorem Forgets.cls? (h : Forgets g g') : g'.cls? = g.cls? := cls?_congr h.op?

theorem Adds.cls? (h : Adds g g' id n) (x : NodeId) :
    g'.cls? x = if x = id then some n.cls else g.cls? x := by
  rw [Graph.cls?, h.node?]
  split <;> rfl

theorem Adds.cls?_fresh (h : Adds g g' id n) : g.cls? id = none := by
  simp [Graph.cls?, Graph.node?, h.get?_fresh]

theorem Adds.op? (h : Adds g g' id n) (x : NodeId) :
    g'.op? x = if x = id then some n.op else g.op? x := by
  rw [Graph.op?, h.node?]
  split <;> rfl

theorem Adds.keepsOps (h : Adds g g' id n) : KeepsOps g g' := by
  have hne {x : NodeId} {op : Op} (hop : g.op? x = some op) : x ≠ id := by
    rintro rfl
    simp [Graph.op?, Graph.node?, h.get?_fresh] at hop
  refine ⟨fun x op hop => ?_, fun x op hop ha => ?_⟩
  · rwa [h.op?, if_neg (hne hop)]
  · rwa [h.isAlive, if_neg (hne hop)] at ha

/-- A node is written that keeps its operation. -/
theorem op?_of_write (hn : g.node? id = some n) (hop : n'.op = n.op)
    (h : ∀ x, g'.node? x = if x = id then some n' else g.node? x) : g'.op? = g.op? := by
  funext x
  rw [op?, h, op?]
  split
  · subst_vars
    rw [hn]
    exact congrArg some hop
  · rfl

theorem Clears.op? (h : Clears g g' id d n) : g'.op? = g.op? :=
  op?_of_write h.node (Node.op_withLinks ..) h.node?

section

variable (h : Rewires g g' id d n n' old new) (he : n.Edit n' d field old new)

include h he

theorem Rewires.op? : g'.op? = g.op? := op?_of_write h.node he.op h.node?

theorem Rewires.cls? : g'.cls? = g.cls? := cls?_congr (h.op? he)

theorem Rewires.keepsOps :
    KeepsOps g g' :=
  .of_eq (h.op? he) fun x hx => by rwa [h.isAlive] at hx

end

theorem Deletes.op? (h : Deletes g g' id n) : g'.op? = g.op? :=
  op?_of_write h.node ((Node.op_withLinks ..).trans (Node.op_withLinks ..)) h.node?

theorem Deletes.cls? (h : Deletes g g' id n) : g'.cls? = g.cls? := cls?_congr h.op?

theorem Deletes.keepsOps (h : Deletes g g' id n) : KeepsOps g g' :=
  .of_eq h.op? fun x hx => by
    rw [h.isAlive] at hx
    split at hx
    · cases hx
    · exact hx

end SeaOfNodes.Graph
