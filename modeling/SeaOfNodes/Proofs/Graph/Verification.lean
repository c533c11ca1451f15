import SeaOfNodes.Graph.Verify
import SeaOfNodes.Proofs.Graph.View
import SeaOfNodes.Proofs.Node.Rename

/-!
# What verifying finds

Verifying passes over the live nodes twice. The first pass looks at each edge from both of its ends,
but only asks whether the other end knows of it; the second one counts, and enters each successor in
a table of owners. Nothing slips between the two: a graph passes exactly if required inputs are there,
no live node is tied to a dead one, both ends of every edge agree as often as there is an edge, usage
lists are packed, and no node stands in two successor slots.
-/

namespace SeaOfNodes

/-- Every input field that needs a node has one. -/
def Node.HasRequired (n : Node) : Prop :=
  ∀ (field : Nat) (spec : FieldSpec), n.layout.inputs[field]? = some spec → spec.shape = .single →
    ∃ t, n.inputs[field]? = some (.one (some t))

namespace Graph

variable {g : Graph} {id t : NodeId} {e : Entry} {n : Node}

/-! ### One edge -/

theorem inputViolation?_eq_none_iff {p : Position} {spec : FieldSpec} {slot : Option NodeId}
    (hspec : n.fieldSpec? p = some spec) :
    g.inputViolation? id n (p, slot) = none ↔ (spec.shape = .single → slot ≠ none) ∧
      ∀ t, slot = some t → g.isAlive t ∧ id ∈ g.users t := by
  unfold inputViolation? isAlive users
  rw [hspec]
  cases slot with
  | none => simp
  | some t =>
    cases he : g.get? t with
    | none => simp [he]
    | some e => cases ha : e.alive <;> simp [he, ha, UsageList.mem_toList_iff_contains]

theorem successorViolation?_eq_none_iff :
    g.successorViolation? id t = none ↔ g.isAlive t ∧ g.predecessor? t = some id := by
  unfold successorViolation? isAlive predecessor?
  cases g.get? t with
  | none => simp
  | some e => cases ha : e.alive <;> simp [ha]

theorem usageViolation?_eq_none_iff :
    g.usageViolation? id t = none ↔ g.isAlive t ∧ 0 < g.uses .inputs t id := by
  unfold usageViolation? isAlive uses node?
  cases g.get? t with
  | none => simp
  | some e => cases ha : e.alive <;> simp [ha, Node.mem_targets]

theorem predecessorViolation?_eq_none_iff :
    g.predecessorViolation? id t = none ↔ g.isAlive t ∧ 0 < g.uses .successors t id := by
  unfold predecessorViolation? isAlive uses node?
  cases g.get? t with
  | none => simp
  | some e => cases ha : e.alive <;> simp [ha, Node.mem_targets]

/-! ### One node -/

/-- The slots of the inputs pass one by one if required fields are filled, and inputs are alive and
know their user. -/
theorem inputViolations_eq_none_iff (hn : n.Shaped) :
    (n.walk .inputs).findSome? (g.inputViolation? id n) = none ↔
      n.HasRequired ∧ ∀ t, 0 < n.uses .inputs t → g.isAlive t ∧ id ∈ g.users t := by
  have hlen : n.inputs.length ≤ 65536 :=
    (hn.length_links .inputs).le.trans ((NodeClass.length_fields_le n.cls .inputs).trans (by decide))
  have hfield {field : Nat} {spec : FieldSpec} (hspec : n.layout.inputs[field]? = some spec)
      (index : Nat) : n.fieldSpec? (.of .inputs field index) = some spec := by
    have hlt : field < 65536 :=
      lt_of_lt_of_le (List.getElem?_eq_some_iff.1 hspec).1 ((hn.length_links .inputs) ▸ hlen)
    simpa [Node.fieldSpec?, Position.of, Nat.mod_eq_of_lt hlt, Layout.fields] using hspec
  rw [List.findSome?_eq_none_iff]
  constructor
  · refine fun h => ⟨fun field spec hspec hsingle => ?_, fun t ht => ?_⟩
    · obtain ⟨link, hlink, hlist⟩ := hn.exists_link (d := .inputs) hspec
      cases link with
      | many targets => simp [Link.isList, hsingle] at hlist
      | one slot =>
        obtain ⟨index, hwalk⟩ := Links.exists_mem_walk (d := .inputs) hlink (List.mem_singleton_self slot)
        have hpresent := ((inputViolation?_eq_none_iff (hfield hspec index)).1 (h _ hwalk)).1 hsingle
        obtain ⟨t, rfl⟩ := Option.ne_none_iff_exists'.1 hpresent
        exact ⟨t, hlink⟩
    · obtain ⟨link, hmem, hslot⟩ := List.mem_flatMap.1 (List.count_pos_iff.1 ht)
      obtain ⟨field, hlink⟩ := List.mem_iff_getElem?.1 hmem
      obtain ⟨spec, hspec, -⟩ := hn.exists_field (d := .inputs) hlink
      obtain ⟨index, hwalk⟩ := Links.exists_mem_walk (d := .inputs) hlink hslot
      exact ((inputViolation?_eq_none_iff (hfield hspec index)).1 (h _ hwalk)).2 t rfl
  · rintro ⟨hrequired, hinputs⟩ ⟨p, slot⟩ hp
    obtain ⟨hd, link, hlink, hslot⟩ := Links.mem_walk hlen hp
    obtain ⟨spec, hspec, hlist⟩ := hn.exists_field (d := .inputs) hlink
    refine (inputViolation?_eq_none_iff (?_ : n.fieldSpec? p = some spec)).2 ⟨fun hsingle => ?_, fun t ht => ?_⟩
    · rw [Node.fieldSpec?, show p.direction = .inputs from hd]
      exact hspec
    · obtain ⟨t, ht⟩ := hrequired _ spec hspec hsingle
      obtain rfl : link = .one (some t) := Option.mem_unique hlink ht
      rw [show slot = some t from List.mem_singleton.1 hslot]
      exact Option.some_ne_none t
    · obtain rfl : slot = some t := ht
      exact hinputs t (List.count_pos_iff.2 (List.mem_flatMap.2 ⟨link, List.mem_of_getElem? hlink, hslot⟩))

/-- The first pass over a node. -/
theorem nodeViolation?_eq_none_iff (he : g.get? id = some e) (ha : e.alive)
    (hn : e.node.Shaped) :
    g.nodeViolation? id = none ↔
      (e.node.HasRequired ∧ ∀ t, 0 < e.node.uses .inputs t → g.isAlive t ∧ id ∈ g.users t) ∧
      (∀ t, 0 < e.node.uses .successors t → g.isAlive t ∧ g.predecessor? t = some id) ∧
      (∀ t ∈ e.usages.toList, g.isAlive t ∧ 0 < g.uses .inputs t id) ∧
      ∀ t, e.predecessor = some t → g.isAlive t ∧ 0 < g.uses .successors t id := by
  simp only [nodeViolation?, he, ha, Bool.not_true, Bool.false_eq_true, if_false,
    Option.orElse_eq_none, inputViolations_eq_none_iff hn, List.findSome?_eq_none_iff,
    successorViolation?_eq_none_iff, Node.mem_targets, usageViolation?_eq_none_iff,
    Option.bind_eq_none_iff, predecessorViolation?_eq_none_iff]

/-- The inputs of a node are counted one by one, each once. -/
theorem countViolation?_eq_none_iff :
    g.countViolation? id n = none ↔
      ∀ t, 0 < n.uses .inputs t → g.listed t id = n.uses .inputs t := by
  have hlisted (t : NodeId) : ((g.get? t).map (·.usages.countOf id)).getD 0 = g.listed t id := by
    unfold listed users UsageList.countOf
    cases g.get? t <;> rfl
  simp only [countViolation?, List.findSome?_eq_none_iff, List.mem_eraseDups, Node.mem_targets,
    hlisted, Node.count_targets, ite_eq_left_iff, reduceCtorEq, imp_false, not_not]

/-! ### The table of owners -/

/-- The successors of a node are entered in the table unless one of them has an owner already, be it
the node itself. -/
theorem ends_claimSuccessors (id : NodeId) (successors : List NodeId) (owners : List (NodeId × NodeId))
    (howners : (owners.map (·.1)).Nodup) :
    Ends (claimSuccessors id successors owners)
      (fun owners' => (owners'.map (·.1)).Nodup ∧
        (owners'.map (·.1)).Perm (successors ++ owners.map (·.1)))
      (fun _ => ¬ (successors ++ owners.map (·.1)).Nodup) := by
  induction successors generalizing owners with
  | nil => exact ⟨howners, .rfl⟩
  | cons t rest ih =>
    rw [claimSuccessors]
    cases hlookup : owners.lookup t with
    | some owner =>
      have hmem : t ∈ owners.map (·.1) := by
        obtain ⟨before, after, heq, -⟩ := List.lookup_eq_some_iff.1 hlookup
        simp [heq]
      intro hnodup
      rw [List.cons_append, List.nodup_cons] at hnodup
      exact hnodup.1 (List.mem_append_right _ hmem)
    | none =>
      have hmem : t ∉ owners.map (·.1) := by
        rintro hmem
        obtain ⟨entry, hentry, rfl⟩ := List.mem_map.1 hmem
        simpa using List.lookup_eq_none_iff.1 hlookup entry hentry
      have hperm : (rest ++ t :: owners.map (·.1)).Perm (t :: rest ++ owners.map (·.1)) :=
        List.perm_middle
      refine (ih ((t, id) :: owners) (List.nodup_cons.2 ⟨hmem, howners⟩)).mono
        (fun owners' h => ⟨h.1, h.2.trans hperm⟩) fun _ h hnodup => h (hperm.nodup_iff.2 hnodup)

/-- The nodes in the successor slots of a node. -/
def successorsOf (g : Graph) (id : NodeId) : List NodeId :=
  ((g.node? id).map (·.targets .successors)).getD []

/-- The second pass over the nodes. -/
theorem bookViolation?_eq_none_iff (ids : List NodeId) (owners : List (NodeId × NodeId))
    (howners : (owners.map (·.1)).Nodup) :
    g.bookViolation? ids owners = none ↔
      (∀ id ∈ ids, ∀ e, g.get? id = some e → e.usages.Packed ∧
        ∀ t, 0 < e.node.uses .inputs t → g.listed t id = e.node.uses .inputs t) ∧
      (ids.flatMap g.successorsOf ++ owners.map (·.1)).Nodup := by
  induction ids generalizing owners with
  | nil => simpa [bookViolation?] using howners
  | cons id rest ih =>
    rw [bookViolation?]
    cases he : g.get? id with
    | none =>
      have hnone : g.successorsOf id = [] := by simp [successorsOf, node?, he]
      simp [ih owners howners, he, hnone]
    | some e =>
      have hsuccessors : g.successorsOf id = e.node.targets .successors := by
        simp [successorsOf, node?, he]
      dsimp only
      rw [List.flatMap_cons, hsuccessors, List.append_assoc, List.forall_mem_cons]
      have hnode : (∀ e', g.get? id = some e' → e'.usages.Packed ∧
          ∀ t, 0 < e'.node.uses .inputs t → g.listed t id = e'.node.uses .inputs t) ↔
          e.usages.isPacked = true ∧ g.countViolation? id e.node = none := by
        simp [he, UsageList.packed_iff, countViolation?_eq_none_iff]
      rw [hnode]
      cases hpacked : e.usages.isPacked with
      | false => simp
      | true =>
        cases hcount : g.countViolation? id e.node with
        | some v => simp
        | none =>
          have hclaims := ends_claimSuccessors id (e.node.targets .successors) owners howners
          -- what the rest adds to the table comes behind what this node adds
          have hswap : (rest.flatMap g.successorsOf ++
              (e.node.targets .successors ++ owners.map (·.1))).Perm
                (e.node.targets .successors ++ (rest.flatMap g.successorsOf ++ owners.map (·.1))) := by
            rw [← List.append_assoc, ← List.append_assoc]
            exact List.perm_append_comm.append_right _
          cases hclaim : claimSuccessors id (e.node.targets .successors) owners with
          | error v =>
            have hshared := hclaims.of_error hclaim
            simp only [reduceCtorEq, Bool.not_true, Bool.false_eq_true, if_false, true_and, false_iff,
              not_and]
            exact fun _ hnodup => hshared ((hswap.nodup_iff.2 hnodup).sublist
              (List.sublist_append_right _ _))
          | ok owners' =>
            obtain ⟨howners', hperm⟩ := hclaims.of_ok hclaim
            simp only [Bool.not_true, Bool.false_eq_true, if_false, true_and]
            rw [ih owners' howners', ((hperm.append_left _).trans hswap).nodup_iff]

/-! ### Verifying -/

/-- Both ends of the edges of a live node agree, and none of them is dead. -/
structure Agrees (g : Graph) (id : NodeId) (e : Entry) : Prop where
  required : e.node.HasRequired
  /-- An input lists the node as often as the node has the input. -/
  input : ∀ t, 0 < e.node.uses .inputs t →
    g.isAlive t = true ∧ g.listed t id = e.node.uses .inputs t
  user : ∀ t ∈ e.usages.toList, g.isAlive t = true ∧ 0 < g.uses .inputs t id
  successor : ∀ t, 0 < e.node.uses .successors t → g.isAlive t = true ∧ g.predecessor? t = some id
  predecessor : ∀ t, e.predecessor = some t → g.isAlive t = true ∧ 0 < g.uses .successors t id
  packed : e.usages.Packed

/-- A node agrees exactly if it passes both times. -/
theorem agrees_iff (he : g.get? id = some e) (ha : e.alive) (hn : e.node.Shaped) :
    g.Agrees id e ↔ g.nodeViolation? id = none ∧ e.usages.Packed ∧
      ∀ t, 0 < e.node.uses .inputs t → g.listed t id = e.node.uses .inputs t := by
  rw [nodeViolation?_eq_none_iff he ha hn]
  constructor
  · intro h
    have hlisted (t : NodeId) (ht : 0 < e.node.uses .inputs t) : id ∈ g.users t := by
      rw [← (h.input t ht).2] at ht
      exact List.count_pos_iff.1 ht
    exact ⟨⟨⟨h.required, fun t ht => ⟨(h.input t ht).1, hlisted t ht⟩⟩, h.successor, h.user,
      h.predecessor⟩, h.packed, fun t ht => (h.input t ht).2⟩
  · rintro ⟨⟨⟨hrequired, hinput⟩, hsuccessor, huser, hpredecessor⟩, hpacked, hcount⟩
    exact ⟨hrequired, fun t ht => ⟨(hinput t ht).1, hcount t ht⟩, huser, hsuccessor, hpredecessor,
      hpacked⟩

/-- Verifying accepts a graph exactly if every live node agrees with the others about its edges, and
no node stands in two successor slots of live nodes. -/
theorem verifyEdges_eq_ok_iff (hshaped : ∀ x n, g.node? x = some n → n.Shaped) :
    g.verifyEdges = .ok () ↔
      (∀ id e, g.get? id = some e → e.alive = true → g.Agrees id e) ∧
        (g.nodes.flatMap g.successorsOf).Nodup := by
  have hok : g.verifyEdges = .ok () ↔ g.violation? = none ∧ g.bookViolation? g.nodes [] = none := by
    rw [← Option.orElse_eq_none, verifyEdges]
    cases g.violation? <|> g.bookViolation? g.nodes [] <;> simp
  rw [hok, bookViolation?_eq_none_iff g.nodes [] .nil, violation?, List.findSome?_eq_none_iff,
    List.map_nil, List.append_nil, ← and_assoc]
  refine and_congr_left fun _ => ?_
  have hagrees {id : NodeId} {e : Entry} (he : g.get? id = some e) (ha : e.alive = true) :=
    agrees_iff he ha (hshaped id e.node (node?_of_get? he))
  constructor
  · rintro ⟨hfirst, hsecond⟩ id e he ha
    have hid : id ∈ g.nodes := mem_nodes.2 (isAlive_iff.2 ⟨e, he, ha⟩)
    exact (hagrees he ha).2 ⟨Option.map_eq_none_iff.1 (hfirst id hid), hsecond id hid e he⟩
  · intro h
    have hlive {id : NodeId} (hid : id ∈ g.nodes) {e : Entry} (he : g.get? id = some e) :=
      (hagrees he ((isAlive_of_get? he).symm.trans (mem_nodes.1 hid))).1 (h id e he
        ((isAlive_of_get? he).symm.trans (mem_nodes.1 hid)))
    refine ⟨fun id hid => ?_, fun id hid e he => (hlive hid he).2⟩
    obtain ⟨e, he, -⟩ := isAlive_iff.1 (mem_nodes.1 hid)
    rw [(hlive hid he).1, Option.map_none]

/-- A number, its sum with itself and a deleted node. The sum is listed as a user of the number as
often as given. -/
def doubled (times : Nat) : Graph :=
  { name := ""
    entries := ⟨#[{ node := .int 1, usages := (List.replicate times ⟨1⟩).foldl .add .empty },
      { node := .binary .add .int ⟨0⟩ ⟨0⟩ }, { node := .merge, alive := false }]⟩ }

/-- The sum may be listed twice, and not three times. -/
theorem verifyEdges_eq_ok_iff_doubled :
    ((∀ x n, (doubled 2).node? x = some n → n.Shaped) ∧
      ∀ id e, (doubled 2).get? id = some e → e.alive = true → (doubled 2).Agrees id e) ∧
    (∀ x n, (doubled 3).node? x = some n → n.Shaped) ∧
      ¬ ∀ id e, (doubled 3).get? id = some e → e.alive = true → (doubled 3).Agrees id e := by
  have htwo := shaped_of_all (g := doubled 2) (by decide +kernel)
  have hthree := shaped_of_all (g := doubled 3) (by decide +kernel)
  refine ⟨⟨htwo, ((verifyEdges_eq_ok_iff htwo).1 (by decide +kernel)).1⟩, hthree, fun h => ?_⟩
  have hok := (verifyEdges_eq_ok_iff hthree).2 ⟨h, by decide +kernel⟩
  exact absurd hok (by decide +kernel)

end Graph

end SeaOfNodes
