import SeaOfNodes.Graph.Edges
import SeaOfNodes.Proofs.Graph.UsageList
import SeaOfNodes.Proofs.Node.Shape
import SeaOfNodes.Proofs.Outcome

/-!
# What a graph says of a node

A graph is read through four views of a handle: its node, whether it is alive, its users and its
predecessor. Each elementary change of a graph changes the views of one handle.
-/

namespace SeaOfNodes.Graph

variable {g g' : Graph} {id x t user : NodeId} {e : Entry}

/-- The users of a node, one entry per input edge. -/
def users (g : Graph) (id : NodeId) : List NodeId := ((g.get? id).map (·.usages.toList)).getD []

/-- How often `user` is listed as a user of `t`. -/
def listed (g : Graph) (t user : NodeId) : Nat := (g.users t).count user

/-- The predecessor of a node. -/
def predecessor? (g : Graph) (id : NodeId) : Option NodeId := (g.get? id).bind (·.predecessor)

/-- How often `t` stands in the slots of a node in one direction. -/
def uses (g : Graph) (d : Direction) (id t : NodeId) : Nat := ((g.node? id).map (·.uses d t)).getD 0

/-- Every usage list is packed. -/
def Packed (g : Graph) : Prop := ∀ id e, g.get? id = some e → e.usages.Packed

/-! ### Reading -/

theorem isSome_get?_iff : (g.get? id).isSome ↔ id.index < g.bound := by
  simp [get?, Arena.get?, bound, Arena.size]

theorem node?_of_get? (h : g.get? id = some e) : g.node? id = some e.node := by
  simp [node?, h]

theorem users_of_get? (h : g.get? id = some e) : g.users id = e.usages.toList := by
  simp [users, h]

theorem predecessor?_of_get? (h : g.get? id = some e) : g.predecessor? id = e.predecessor := by
  simp [predecessor?, h]

theorem isAlive_of_get? (h : g.get? id = some e) : g.isAlive id = e.alive := by
  simp [isAlive, h]

theorem uses_of_node? {n : Node} (h : g.node? id = some n) (d : Direction) (t : NodeId) :
    g.uses d id t = n.uses d t := by
  simp [uses, h]

/-- A node that becomes another one stays registered. -/
theorem isSome_ite_node? {n : Node} (h : g.node? id = some n) (n' : Node) (x : NodeId) :
    (if x = id then some n' else g.node? x).isSome = (g.node? x).isSome := by
  split
  · subst_vars; rw [h]; rfl
  · rfl

theorem uses_pos_of_slot {n : Node} {d : Direction} {field : Nat} {t : NodeId} (h : g.node? id = some n)
    (ht : some t ∈ n.slotsAt d field) : 0 < g.uses d id t := by
  rw [uses_of_node? h]
  exact List.count_pos_iff.2 (Node.mem_slots_of_mem_slotsAt ht)

theorem get?_of_node? {n : Node} (h : g.node? id = some n) : ∃ e, g.get? id = some e ∧ e.node = n :=
  Option.map_eq_some_iff.1 h

theorem shaped_of_all (h : g.entries.items.all (fun e => decide e.node.Shaped)) (x : NodeId)
    (n : Node) (hn : g.node? x = some n) : n.Shaped := by
  obtain ⟨e, he, rfl⟩ := get?_of_node? hn
  exact of_decide_eq_true (Array.all_eq_true_iff_forall_mem.1 h e (Array.mem_of_getElem? he))

theorem isAlive_iff : g.isAlive id ↔ ∃ e, g.get? id = some e ∧ e.alive := by
  simp [isAlive, Option.any_eq_true_iff_get, Option.isSome_iff_exists]
  constructor
  · rintro ⟨⟨e, he⟩, ha⟩
    exact ⟨e, he, by simpa [he] using ha⟩
  · rintro ⟨e, he, ha⟩
    exact ⟨⟨e, he⟩, by simpa [he] using ha⟩

theorem exists_node?_of_isAlive (h : g.isAlive id) : ∃ n, g.node? id = some n := by
  obtain ⟨e, he, -⟩ := isAlive_iff.1 h
  exact ⟨_, node?_of_get? he⟩

theorem registered_of_isAlive (h : g.isAlive id) : (g.node? id).isSome := by
  obtain ⟨n, hn⟩ := exists_node?_of_isAlive h
  simp [hn]

theorem index_lt_of_isAlive (h : g.isAlive id) : id.index < g.bound := by
  obtain ⟨e, he, -⟩ := isAlive_iff.1 h
  exact isSome_get?_iff.1 (by simp [he])

theorem mem_nodes {x : NodeId} : x ∈ g.nodes ↔ g.isAlive x := by
  rw [nodes, List.mem_filter, Arena.handles, List.mem_map]
  refine ⟨fun h => h.2, fun h => ⟨⟨x.index, ?_, rfl⟩, h⟩⟩
  exact List.mem_range.2 (index_lt_of_isAlive h)

theorem exists_node?_of_predecessor? (h : g.predecessor? t = some x) : ∃ n, g.node? t = some n := by
  cases he : g.get? t with
  | none => simp [predecessor?, he] at h
  | some e => exact ⟨_, node?_of_get? he⟩

theorem exists_node?_of_mem_users (h : user ∈ g.users t) : ∃ n, g.node? t = some n := by
  cases he : g.get? t with
  | none => simp [users, he] at h
  | some e => exact ⟨_, node?_of_get? he⟩

/-! ### One entry changes -/

/-- The graph with one entry changed. -/
def update (g : Graph) (id : NodeId) (f : Entry → Entry) : Graph :=
  { g with entries := g.entries.modify id f }

theorem get?_update (g : Graph) (id : NodeId) (f : Entry → Entry) (x : NodeId) :
    (g.update id f).get? x = if x = id then (g.get? x).map f else g.get? x := by
  show (g.entries.items.modify id.index f)[x.index]? = if x = id then (g.entries.items[x.index]?).map f else _
  rw [Array.getElem?_modify]
  by_cases h : x = id
  · simp [h]
  · have : id.index ≠ x.index := fun e => h (by cases x; cases id; simp_all)
    simp [h, this]
    rfl

@[simp] theorem bound_update (g : Graph) (id : NodeId) (f : Entry → Entry) :
    (g.update id f).bound = g.bound := by
  simp [update, bound, Arena.size, Arena.modify]

/-- The nodes listed under a class, some of which may be deleted. -/
def idsOf (g : Graph) (c : NodeClass) : List NodeId := (g.classes.get c.index).ids

/-- The name, the lists of nodes, and which handles name nodes, stay. -/
structure KeepsLists (g g' : Graph) : Prop where
  name : g'.name = g.name
  bound : g'.bound = g.bound
  idsOf : ∀ c, g'.idsOf c = g.idsOf c
  leaves : g'.leaves = g.leaves

/-- The books other than the entries, and which handles name nodes, stay. -/
structure Keeps (g g' : Graph) : Prop extends KeepsLists g g' where
  deletedCount : g'.deletedCount = g.deletedCount

theorem KeepsLists.trans {g1 g2 g3 : Graph} (h : KeepsLists g1 g2) (h' : KeepsLists g2 g3) :
    KeepsLists g1 g3 :=
  ⟨h'.name.trans h.name, h'.bound.trans h.bound, fun c => (h'.idsOf c).trans (h.idsOf c), h'.leaves.trans h.leaves⟩

theorem Keeps.refl (g : Graph) : Keeps g g := ⟨⟨rfl, rfl, fun _ => rfl, rfl⟩, rfl⟩

theorem Keeps.trans {g1 g2 g3 : Graph} (h : Keeps g1 g2) (h' : Keeps g2 g3) : Keeps g1 g3 :=
  ⟨h.toKeepsLists.trans h'.toKeepsLists, h'.deletedCount.trans h.deletedCount⟩

theorem keeps_update (g : Graph) (id : NodeId) (f : Entry → Entry) : Keeps g (g.update id f) :=
  ⟨⟨rfl, bound_update g id f, fun _ => rfl, rfl⟩, rfl⟩

/-! What a change leaves of an entry it leaves of the views. -/

section

variable {f : Entry → Entry}

theorem node?_update (h : ∀ e, (f e).node = e.node) (x : NodeId) :
    (g.update id f).node? x = g.node? x := by
  rw [node?, get?_update, node?]
  split <;> simp [Function.comp_def, h]

theorem isAlive_update (h : ∀ e, (f e).alive = e.alive) (x : NodeId) :
    (g.update id f).isAlive x = g.isAlive x := by
  rw [isAlive, get?_update, isAlive]
  split
  · cases g.get? x <;> simp [h]
  · rfl

theorem predecessor?_update (h : ∀ e, (f e).predecessor = e.predecessor) (x : NodeId) :
    (g.update id f).predecessor? x = g.predecessor? x := by
  rw [predecessor?, get?_update, predecessor?]
  split
  · cases g.get? x <;> simp [h]
  · rfl

theorem users_update (h : ∀ e, (f e).usages = e.usages) (x : NodeId) :
    (g.update id f).users x = g.users x := by
  rw [users, get?_update, users]
  split <;> simp [Function.comp_def, h]

theorem packed_update (hp : g.Packed) (h : ∀ e, g.get? id = some e → (f e).usages.Packed) :
    (g.update id f).Packed := by
  intro x e he
  rw [get?_update] at he
  split at he
  · obtain ⟨e', he', rfl⟩ := Option.map_eq_some_iff.1 he
    subst_vars
    exact h _ he'
  · exact hp x e he

end

/-! ### Elementary steps -/

section

variable {post : PUnit → Graph → Prop} {fail : Fault → Prop}

@[simp] theorem meets_fail {α : Type} {cause : Fault} {post : α → Graph → Prop} :
    Meets (Graph.fail cause : GraphM α) g post fail ↔ fail cause := Iff.rfl

theorem meets_entry {post : Entry → Graph → Prop} :
    Meets (entry id) g post fail ↔
      (∀ e, g.get? id = some e → post e g) ∧ (g.get? id = none → fail .outOfRange) := by
  rw [entry, meets_bind, meets_get]
  cases g.get? id <;> simp

theorem meets_node {post : Node → Graph → Prop} :
    Meets (node id) g post fail ↔
      (∀ n, g.node? id = some n → post n g) ∧ (g.node? id = none → fail .outOfRange) := by
  rw [node, meets_bind, meets_entry, node?]
  cases g.get? id <;> simp

theorem meets_node_of {n : Node} {post : Node → Graph → Prop} (hn : g.node? id = some n) :
    Meets (node id) g post fail ↔ post n g := by
  simp [meets_node, hn]

theorem meets_label {post : NodeLabel → Graph → Prop} :
    Meets (label id) g post fail ↔
      (∀ n, g.node? id = some n → post (n.label id) g) ∧ (g.node? id = none → fail .outOfRange) := by
  rw [label, meets_bind, meets_node]
  rfl

theorem meets_requireAlive {wiring : Wiring} :
    Meets (requireAlive wiring id) g post fail ↔
      (g.isAlive id → post ⟨⟩ g) ∧
      (∀ n, g.node? id = some n → g.isAlive id = false → fail (.deletedNode wiring (n.label id))) ∧
      (g.node? id = none → fail (.unknownNode wiring id)) := by
  rw [requireAlive, meets_bind, meets_get, node?, isAlive]
  cases g.get? id with
  | none => simp
  | some e => cases h : e.alive <;> simp [h]

theorem meets_modifyEntry {f : Entry → Entry} :
    Meets (modifyEntry id f) g post fail ↔ post ⟨⟩ (g.update id f) := Iff.rfl

/-- The graph with one more event. -/
def recorded (g : Graph) (event : Event) : Graph := { g with events := g.events.map (·.push event) }

theorem meets_record {event : Event} :
    Meets (record event) g post fail ↔ post ⟨⟩ (g.recorded event) := Iff.rfl

@[simp] theorem listed_recorded (g : Graph) (event : Event) (x u : NodeId) :
    (g.recorded event).listed x u = g.listed x u := rfl

theorem keeps_recorded (g : Graph) (event : Event) : Keeps g (g.recorded event) :=
  ⟨⟨rfl, rfl, fun _ => rfl, rfl⟩, rfl⟩

end

end SeaOfNodes.Graph
