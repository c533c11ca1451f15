import SeaOfNodes.Proofs.Graph.Duplication

/-!
# Copying a graph

Copying all live nodes of a graph to an empty one cannot fail. The copies are numbered in the order
of the nodes, and the copy of a node is the node with every slot led over to the copy of what it
holds; the copied graph is consistent, so its users and predecessors are the images of those of the
graph.
-/

namespace SeaOfNodes.Graph

variable {g g' : Graph} {id : NodeId} {n : Node} {map : Renaming} {nodes : List (NodeId × Node)}
  {q : NodeId × Node}

/-! ### The numbers of the copies -/

/-- The map gives the nodes the numbers from zero on and nothing else a number, and there are no other
nodes in the graph. -/
structure Numbered (map : Renaming) (nodes : List (NodeId × Node)) (g : Graph) : Prop where
  get? : ∀ i q, nodes[i]? = some q → map.get? q.1 = some ⟨i⟩
  domain : ∀ x, x ∉ nodes.map (·.1) → map.get? x = none
  bound : g.bound = nodes.length
  alive : ∀ x, g.isAlive x = true ↔ x.index < nodes.length

theorem Numbered.exists_of_get? (h : Numbered map nodes g) {x x' : NodeId}
    (hx : map.get? x = some x') : ∃ q, nodes[x'.index]? = some q ∧ q.1 = x := by
  have hmem : x ∈ nodes.map (·.1) := by
    by_contra hno
    rw [h.domain x hno] at hx
    cases hx
  obtain ⟨q, hq, rfl⟩ := List.mem_map.1 hmem
  obtain ⟨i, hi⟩ := List.mem_iff_getElem?.1 hq
  obtain rfl : ⟨i⟩ = x' := Option.mem_unique (h.get? i q hi) hx
  exact ⟨q, hi, rfl⟩

theorem Numbered.injective (h : Numbered map nodes g) (x y z : NodeId) (hx : map.get? x = some z)
    (hy : map.get? y = some z) : x = y := by
  obtain ⟨q, hq, rfl⟩ := h.exists_of_get? hx
  obtain ⟨q', hq', rfl⟩ := h.exists_of_get? hy
  rw [hq] at hq'
  cases hq'
  rfl

theorem Numbered.add (h : Numbered map nodes g) (hq : q.1 ∉ nodes.map (·.1)) (ha : Adds g g' id n) :
    Numbered (map.insert q.1 id) (nodes ++ [q]) g' := by
  obtain rfl : id = ⟨nodes.length⟩ := by
    cases id
    exact congrArg Handle.mk (ha.fresh.trans h.bound)
  exact {
    get? := fun i q' hi => by
      rw [get?_insert]
      rcases Nat.lt_or_ge i nodes.length with hlt | hge
      · rw [List.getElem?_append_left hlt] at hi
        have hne : q'.1 ≠ q.1 := by
          rintro he
          exact hq (he ▸ List.mem_map.2 ⟨q', List.mem_of_getElem? hi, rfl⟩)
        rw [if_neg hne, h.get? i q' hi]
      · rw [List.getElem?_append_right hge, List.getElem?_singleton] at hi
        split at hi
        · cases hi
          rw [if_pos rfl, show i = nodes.length by omega]
        · cases hi
    domain := fun x hx => by
      rw [List.map_append, List.mem_append, not_or] at hx
      rw [get?_insert, if_neg (by simpa using hx.2), h.domain x hx.1]
    bound := by rw [ha.bound, h.bound, List.length_append, List.length_singleton]
    alive := fun x => by
      rw [ha.isAlive, List.length_append, List.length_singleton]
      split
      · subst_vars; simp
      · rename_i hne
        have : x.index ≠ nodes.length := fun e => hne (by cases x; exact congrArg Handle.mk e)
        rw [h.alive]
        omega }

theorem maintained_numbered : Maintained .oneToOne Numbered :=
  fun _ _ _ _ _ _ hq hc h => h.add hq (hc.adds fun _ => rfl)

theorem numbered_empty (name : String) : Numbered .empty [] (empty name) where
  get? := by simp
  domain _ _ := rfl
  bound := rfl
  alive x := by simp [isAlive, get?_empty]

/-! ### The live nodes -/

theorem snapshot_nodes (g : Graph) : ∃ nodes, g.snapshot g.nodes .empty = .ok nodes ∧
    nodes.map (·.1) = g.nodes ∧ Selects g g.nodes .empty nodes := by
  obtain ⟨nodes, hrun, hids, hnode⟩ :=
    exists_snapshot .empty fun x (hx : x ∈ g.nodes) => registered_of_isAlive (mem_nodes.1 hx)
  have hall : (g.nodes.filter fun id => (Renaming.empty.get? id).isNone) = g.nodes :=
    List.filter_eq_self.2 fun _ _ => rfl
  rw [hall] at hids
  refine ⟨nodes, hrun, hids, hids ▸ g.nodup_nodes, hnode, fun x => ?_⟩
  rw [hids]
  exact (and_iff_left rfl).symm

/-- Copying the live nodes to an empty graph cannot fail. -/
theorem meets_copyNodes (hg : g.Consistent) (hshaped : ∀ x n, g.node? x = some n → n.Shaped)
    (hsel : Selects g g.nodes .empty nodes) (name : String) :
    Meets (duplicateNodes nodes .empty .oneToOne false) (empty name)
      (fun map copy => IsDuplicate g (empty name) copy g.nodes .empty map map.get? ∧
        ∃ s, Numbered map nodes s ∧ SameNodes s copy) (fun _ => False) := by
  have hnone {x y : NodeId} {P : Prop} (h : Renaming.empty.get? x = some y) : P :=
    nomatch (show none = some y from h)
  have hclaim (map : Renaming) (s : Graph) (h : Cloned .oneToOne .empty (empty name) map nodes s) :
      s.Claimable .successors (nodes.flatMap fun q => claims map.get? .successors q.2) :=
    h.claimable hsel hg (fun _ _ => hnone) (fun _ _ _ _ _ _ _ _ => rfl) (fun _ _ _ _ _ => hnone)
      fun _ _ _ _ _ _ _ _ _ => hnone
  exact (meets_duplicateNodes false Numbered (consistent_empty name) (by simp [node?, get?_empty])
    hshaped (fun _ _ => hnone) hsel nofun maintained_numbered (numbered_empty name)
    (fun _ => by simp [LeavesRegistered, empty]) (fun _ : True => hclaim)
    fun _ _ x t _ ht => .inl (mem_nodes.2 (hg.isAlive_target ht))).mono (fun _ _ h => h)
      fun _ hno => hno trivial

theorem Numbered.index_lt (hnum : Numbered map nodes g') (hids : nodes.map (·.1) = g.nodes)
    {x y x' y' : NodeId} (hx : map.get? x = some x') (hy : map.get? y = some y')
    (hxy : x.index < y.index) : x'.index < y'.index := by
  obtain ⟨q, hq, rfl⟩ := hnum.exists_of_get? hx
  obtain ⟨q', hq', rfl⟩ := hnum.exists_of_get? hy
  obtain ⟨hi, hqi⟩ := List.getElem?_eq_some_iff.1 hq
  obtain ⟨hj, hqj⟩ := List.getElem?_eq_some_iff.1 hq'
  have hsorted := pairwise_nodes g
  rw [← hids, List.pairwise_map, List.pairwise_iff_getElem] at hsorted
  by_contra hle
  rcases Nat.lt_or_ge y'.index x'.index with hlt | hge
  · have := hsorted y'.index x'.index hj hi hlt
    rw [hqi, hqj] at this
    omega
  · rw [show x'.index = y'.index by omega, hq'] at hq
    cases hq
    omega

/-! ### Both ends of the copied edges -/

/-- Two consistent graphs, with the live nodes of the first led onto those of the second, each
renamed. -/
structure Mirrors (map : Renaming) (g copy : Graph) : Prop where
  source : g.Consistent
  target : copy.Consistent
  domain : ∀ x, (map.get? x).isSome ↔ g.isAlive x = true
  injective : ∀ x y z, map.get? x = some z → map.get? y = some z → x = y
  onto : ∀ x', copy.isAlive x' = true → ∃ x, map.get? x = some x'
  node : ∀ x x' n, map.get? x = some x' → g.node? x = some n →
    copy.node? x' = some (n.rename map.get?)

namespace Mirrors

variable {copy : Graph} (h : Mirrors map g copy) {x x' t t' : NodeId}
include h

theorem exists_get? (hx : g.isAlive x) : ∃ x', map.get? x = some x' :=
  Option.isSome_iff_exists.1 ((h.domain x).2 hx)

theorem uses (hx : map.get? x = some x') (ht : map.get? t = some t') (d : Direction) :
    copy.uses d x' t' = g.uses d x t := by
  obtain ⟨n, hn⟩ := exists_node?_of_isAlive ((h.domain x).1 (by simp [hx]))
  rw [uses_of_node? (h.node x x' n hx hn), uses_of_node? hn]
  exact Node.uses_rename n d ht fun y hy => h.injective y t t' hy ht

/-- The predecessor of a copy is the copy of the predecessor. -/
theorem predecessor? (hx : map.get? x = some x') :
    copy.predecessor? x' = (g.predecessor? x).bind map.get? := by
  cases hp : g.predecessor? x with
  | some p =>
    have huses := h.source.uses_of_predecessor hp
    obtain ⟨p', hp'⟩ := h.exists_get? (h.source.isAlive_of_uses huses)
    rw [Option.bind_some, hp']
    refine h.target.predecessor p' x' ?_
    rwa [h.uses hp' hx]
  | none =>
    rw [Option.bind_none]
    by_contra hne
    obtain ⟨p', hp'⟩ := Option.ne_none_iff_exists'.1 hne
    have huses := h.target.uses_of_predecessor hp'
    obtain ⟨p, hpp'⟩ := h.onto p' (h.target.isAlive_of_uses huses)
    rw [h.uses hpp' hx] at huses
    rw [h.source.predecessor p x huses] at hp
    cases hp

/-- The users of a copy are the copies of the users. -/
theorem users_perm (hx : map.get? x = some x') :
    ((copy.users x').map some).Perm ((g.users x).map map.get?) := by
  have hcount (u u' : NodeId) (hu : map.get? u = some u') :
      (copy.users x').count u' = (g.users x).count u := by
    show copy.listed x' u' = g.listed x u
    rw [h.target.listed, h.source.listed, h.uses hu hx]
  rw [List.perm_iff_count]
  intro image
  cases image with
  | none =>
    have hnone : none ∉ (g.users x).map map.get? := by
      rintro hmem
      obtain ⟨u, hu, hnone⟩ := List.mem_map.1 hmem
      obtain ⟨u', hu'⟩ := h.exists_get? (h.source.isAlive_user hu)
      rw [hu'] at hnone
      cases hnone
    rw [List.count_eq_zero.2 hnone, List.count_eq_zero]
    simp
  | some u' =>
    rw [List.count_map_of_injective _ _ (Option.some_injective _)]
    by_cases hu : ∃ u, map.get? u = some u'
    · obtain ⟨u, hu⟩ := hu
      rw [hcount u u' hu, List.count, List.count, List.countP_map]
      refine List.countP_congr fun y _ => ?_
      simp only [Function.comp_apply, beq_iff_eq]
      exact ⟨fun e => e ▸ hu, fun hy => h.injective y u u' hy hu⟩
    · have hcopy : u' ∉ copy.users x' := fun hmem => hu (h.onto u' (h.target.isAlive_user hmem))
      have hsource : some u' ∉ (g.users x).map map.get? := fun hmem => by
        obtain ⟨u, -, he⟩ := List.mem_map.1 hmem
        exact hu ⟨u, he⟩
      rw [List.count_eq_zero.2 hcopy, List.count_eq_zero.2 hsource]

end Mirrors

/-! ### The copy of a graph -/

/-- The map leads the live nodes of `g` in order onto the nodes of `copy`, all of them alive, and
with the nodes their slots, predecessors and users. -/
structure IsCopy (map : Renaming) (g copy : Graph) : Prop where
  domain : ∀ x, (map.get? x).isSome ↔ g.isAlive x = true
  increasing : ∀ x y x' y', map.get? x = some x' → map.get? y = some y' → x.index < y.index →
    x'.index < y'.index
  onto : ∀ x', (∃ x, map.get? x = some x') ↔ x'.index < g.nodes.length
  bound : copy.bound = g.nodes.length
  alive : ∀ x', copy.isAlive x' = true ↔ x'.index < copy.bound
  deletedCount : copy.deletedCount = 0
  node : ∀ x x' n, map.get? x = some x' → g.node? x = some n →
    copy.node? x' = some (n.rename map.get?) ∧ ∀ d t, 0 < n.uses d t → (map.get? t).isSome
  predecessor : ∀ x x', map.get? x = some x' →
    copy.predecessor? x' = (g.predecessor? x).bind map.get? ∧
      ∀ p, g.predecessor? x = some p → (map.get? p).isSome
  users : ∀ x x', map.get? x = some x' →
    ((copy.users x').map some).Perm ((g.users x).map map.get?)
  name : copy.name = g.name
  start : copy.start = g.start.bind map.get?

/-- Copying a graph gives an isomorphic one. -/
theorem copyWithMap_isCopy (hg : g.Consistent) (hshaped : ∀ x n, g.node? x = some n → n.Shaped) :
    ∃ copy map, g.copyWithMap = .ok (copy, map) ∧ copy.Consistent ∧ IsCopy map g copy := by
  obtain ⟨nodes, hsnapshot, hids, hsel⟩ := g.snapshot_nodes
  obtain ⟨map, copy, hrun, ⟨hdup, s, hnum, hsame⟩, hevolves⟩ :=
    (((meets_copyNodes hg hshaped hsel g.name).and (evolving_iff.1
      (evolving_duplicateNodes nodes .empty .oneToOne false) _ (tidy_empty g.name))).mono
        (fun _ _ h => h) fun _ h => h.1).exists_ok
  have hlen : nodes.length = g.nodes.length := by rw [← hids, List.length_map]
  have hbound : copy.bound = nodes.length := by rw [hsame.bound, hnum.bound]
  have halive (x : NodeId) : copy.isAlive x = true ↔ x.index < nodes.length := by
    rw [hsame.isAlive, hnum.alive]
  have hdomain (x : NodeId) : (map.get? x).isSome ↔ g.isAlive x = true := by
    rw [hdup.domain, mem_nodes]
    exact or_iff_left nofun
  have honto (x' : NodeId) : (∃ x, map.get? x = some x') ↔ x'.index < g.nodes.length := by
    rw [← hlen]
    constructor
    · rintro ⟨x, hx⟩
      obtain ⟨q, hq, -⟩ := hnum.exists_of_get? hx
      exact (List.getElem?_eq_some_iff.1 hq).1
    · intro hlt
      exact ⟨_, hnum.get? x'.index _ (List.getElem?_eq_getElem hlt)⟩
  have hdeleted : copy.deletedCount = 0 := by
    have hcounted := hevolves.tidy.indexed.counted
    rw [nodes_eq_range, List.filter_eq_self.2 fun x hx => ?_] at hcounted
    · simpa using hcounted
    · obtain ⟨i, hi, rfl⟩ := List.mem_map.1 hx
      exact (halive ⟨i⟩).2 (hbound ▸ List.mem_range.1 hi)
  have hmirrors : Mirrors map g copy := {
    source := hg
    target := hdup.consistent
    domain := hdomain
    injective := hnum.injective
    onto := fun x' hx' => (honto x').2 (hlen ▸ (halive x').1 hx')
    node := fun x x' n hx hn => by
      have hx' := mem_nodes.2 ((hdomain x).1 (by simp [hx]))
      obtain ⟨new, hnew, -, hnode, -⟩ := hdup.copy x n ⟨hx', rfl⟩ hn
      rwa [← Option.some.inj (hnew.symm.trans hx)] }
  have hc := hdup.consistent
  refine ⟨{ copy with start := g.start.bind map.get? }, map, ?_,
    ⟨hc.listed, hc.predecessor, hc.successor, hc.deleted, hc.packed⟩, {
      domain := hdomain
      increasing := fun x y x' y' hx hy => hnum.index_lt hids hx hy
      onto := honto
      bound := hbound.trans hlen
      alive := fun x' => (halive x').trans (by rw [← hbound]; rfl)
      deletedCount := hdeleted
      node := fun x x' n hx hn => ⟨hmirrors.node x x' n hx hn, fun d t ht =>
        (hdomain t).2 (hg.isAlive_target (by rwa [uses_of_node? hn]))⟩
      predecessor := fun x x' hx => ⟨hmirrors.predecessor? hx, fun p hp => (hdomain p).2
        (hg.isAlive_of_uses (hg.uses_of_predecessor hp))⟩
      users := fun x x' hx => hmirrors.users_perm hx
      name := hevolves.name
      start := rfl }⟩
  unfold copyWithMap
  rw [hsnapshot]
  show (duplicateNodes nodes .empty .oneToOne false (empty g.name) >>= fun r =>
    pure ({ r.2 with start := g.start.bind r.1.get? }, r.1)) = _
  rw [hrun]
  rfl

/-- Two equal constants are left of three, and a phi has one of them twice, with nothing between. -/
def phiCalls : List Call :=
  [.addFresh (.int 3), .addFresh (.int 3), .addFresh (.int 3), .delete ⟨1⟩, .addFresh .loopBegin,
    .add (.begin (some ⟨3⟩)),
    .addFresh ⟨.phi .int, [.one (some ⟨3⟩), .many [some ⟨2⟩, none, some ⟨2⟩]], []⟩]

theorem copyWithMap_isCopy_phi : ∃ g copy map, Call.runAll phiCalls (empty "") = .ok ((), g) ∧
    g.copyWithMap = .ok (copy, map) ∧ copy.Consistent ∧ IsCopy map g copy := by
  obtain ⟨⟨_, g⟩, hrun, htest⟩ := exists_ok_of_any (r := Call.runAll phiCalls (empty ""))
    (p := fun r => r.2.entries.items.all fun e => decide e.node.Shaped) (by decide +kernel)
  have hg : g.Consistent := Call.consistent_of_runAll (by simp [phiCalls, Call.WiresDeleted]) hrun
  obtain ⟨copy, map, hcopy, hc, hiso⟩ := copyWithMap_isCopy hg (shaped_of_all htest)
  exact ⟨g, copy, map, hrun, hcopy, hc, hiso⟩

end SeaOfNodes.Graph
