import SeaOfNodes.Proofs.Graph.EdgeSymmetry
import SeaOfNodes.Proofs.Graph.Operations

/-!
# How a graph evolves

Whatever is done to a graph, a handle keeps naming a node of the same operation, a deleted node does
not come back, and what is remembered for an operation is a node of that operation. A remembered
node stays the remembered one until it is deleted. The lists of the classes stay in order and name
every live node, and the deleted nodes are counted. This holds of every call that returns, also where
the call leaves the two ends of an edge apart.
-/

namespace SeaOfNodes.Graph

variable {g g' g'' : Graph} {id x : NodeId} {n n' : Node} {d : Direction} {field : Nat}
  {old new : Option NodeId} {α β : Type}

/-! ### The books of nodes -/

/-- The list of a class names nodes of the class in the order of their handles, all live ones among
them, and the deleted nodes are counted. -/
structure Indexed (g : Graph) : Prop where
  ascending : ∀ c, (g.idsOf c).Pairwise (·.index < ·.index)
  classes : ∀ c, ∀ x ∈ g.idsOf c, g.cls? x = some c
  enlisted : ∀ x c, g.cls? x = some c → g.isAlive x = true → x ∈ g.idsOf c
  counted : g.deletedCount + g.nodes.length = g.bound

theorem indexed_empty (name : String) : (empty name).Indexed where
  ascending c := by simp [idsOf, empty, Vector.get]
  classes c := by simp [idsOf, empty, Vector.get]
  enlisted x c h := by simp [cls?, node?, get?_empty] at h
  counted := rfl

theorem pairwise_nodes (g : Graph) : g.nodes.Pairwise fun x y => x.index < y.index := by
  refine List.Pairwise.filter _ (List.pairwise_map.2 ?_)
  exact List.pairwise_lt_range

theorem nodup_nodes (g : Graph) : g.nodes.Nodup :=
  (pairwise_nodes g).imp fun h e => by simp [e] at h

theorem nodes_eq_range (g : Graph) : g.nodes = ((List.range g.bound).map Handle.mk).filter g.isAlive :=
  rfl

theorem Indexed.of_keeps (h : g.Indexed) (hk : Keeps g g') (hop : g'.op? = g.op?)
    (ha : ∀ x, g'.isAlive x = g.isAlive x) : g'.Indexed where
  ascending c := by rw [hk.idsOf]; exact h.ascending c
  classes c x hx := by
    rw [cls?_eq_map_op?, hop, ← cls?_eq_map_op?]
    exact h.classes c x (by rwa [hk.idsOf] at hx)
  enlisted x c hc hx := by
    rw [cls?_eq_map_op?, hop, ← cls?_eq_map_op?] at hc
    rw [hk.idsOf]
    exact h.enlisted x c hc (by rwa [ha] at hx)
  counted := by
    rw [nodes_eq_range, funext ha, hk.bound, hk.deletedCount, ← nodes_eq_range]
    exact h.counted

theorem Deletes.indexed (h : Deletes g g' id n) (hg : g.Indexed) : g'.Indexed where
  ascending c := by rw [h.keeps.idsOf]; exact hg.ascending c
  classes c x hx := by rw [h.cls?]; exact hg.classes c x (by rwa [h.keeps.idsOf] at hx)
  enlisted x c hc hx := by
    rw [h.cls?] at hc
    rw [h.keeps.idsOf]
    refine hg.enlisted x c hc ?_
    rw [h.isAlive] at hx
    split at hx
    · cases hx
    · exact hx
  counted := by
    have hnodes : g'.nodes = g.nodes.erase id := by
      rw [g.nodup_nodes.erase_eq_filter, nodes_eq_range, nodes_eq_range, h.keeps.bound,
        List.filter_filter]
      refine List.filter_congr fun x _ => ?_
      rw [h.isAlive]
      by_cases hx : x = id <;> simp [hx]
    have hmem := mem_nodes.2 h.alive
    have hpos := List.length_pos_of_mem hmem
    have hcounted := hg.counted
    rw [hnodes, List.length_erase_of_mem hmem, h.deletedCount, h.keeps.bound]
    omega

theorem Adds.indexed (h : Adds g g' id n) (hg : g.Indexed) : g'.Indexed := by
  obtain ⟨kept, hkept, hids⟩ := h.idsOf
  have hsub : kept.Sublist (g.idsOf n.cls) := by
    rcases hkept with rfl | rfl
    · exact .refl _
    · exact List.filter_sublist
  have hlt (x : NodeId) (hx : x ∈ kept) : x.index < id.index := by
    have hc := hg.classes _ x (hsub.subset hx)
    obtain ⟨m, hm, -⟩ := Option.map_eq_some_iff.1 hc
    obtain ⟨e, he, -⟩ := get?_of_node? hm
    rw [h.fresh, ← isSome_get?_iff, he]
    rfl
  have hnew : g'.cls? id = some n.cls := by rw [h.cls?, if_pos rfl]
  refine ⟨fun c => ?_, fun c x hx => ?_, fun x c hc hx => ?_, ?_⟩
  · rw [hids]
    split
    · exact List.pairwise_append.2 ⟨(hg.ascending _).sublist hsub, List.pairwise_singleton ..,
        fun x hx y hy => List.mem_singleton.1 hy ▸ hlt x hx⟩
    · exact hg.ascending c
  · rw [hids] at hx
    split at hx
    · subst_vars
      rcases List.mem_append.1 hx with hx | hx
      · exact h.keepsOps.cls x _ (hg.classes _ x (hsub.subset hx))
      · rwa [List.mem_singleton.1 hx]
    · exact h.keepsOps.cls x c (hg.classes c x hx)
  · rw [hids]
    by_cases hxid : x = id
    · subst hxid
      obtain rfl : n.cls = c := Option.mem_unique hnew hc
      simp
    · rw [h.cls?, if_neg hxid] at hc
      have hold := hg.enlisted x c hc (by rwa [h.isAlive, if_neg hxid] at hx)
      split
      · subst_vars
        refine List.mem_append_left _ ?_
        rcases hkept with rfl | rfl
        · exact hold
        · exact List.mem_filter.2 ⟨hold, hx⟩
      · exact hold
  · have hid : (⟨g.bound⟩ : NodeId) = id := by rw [← h.fresh]
    have hnodes : g'.nodes = g.nodes ++ [id] := by
      rw [nodes_eq_range, nodes_eq_range, h.bound, List.range_succ, List.map_append, List.filter_append]
      congr 1
      · refine List.filter_congr fun x hx => ?_
        obtain ⟨i, hi, rfl⟩ := List.mem_map.1 hx
        have hne : (⟨i⟩ : NodeId) ≠ id := by
          rintro rfl
          exact (List.mem_range.1 hi).ne h.fresh
        rw [h.isAlive, if_neg hne]
      · simp [hid, h.isAlive]
    have hcounted := hg.counted
    rw [hnodes, h.deletedCount, h.bound, List.length_append, List.length_singleton]
    omega

/-! ### Tidy graphs -/

/-- Usage lists are packed, each remembered node is of the operation it is remembered for, and the
books of nodes are kept. -/
structure Tidy (g : Graph) : Prop where
  packed : g.Packed
  leaves : ∀ p ∈ g.leaves, g.op? p.2 = some p.1
  indexed : g.Indexed

theorem tidy_empty (name : String) : (empty name).Tidy :=
  ⟨(consistent_empty name).packed, fun _ h => absurd h List.not_mem_nil, indexed_empty name⟩

theorem Tidy.op?_of_lookup (hg : g.Tidy) {op : Op} (h : g.leaves.lookup op = some id) :
    g.op? id = some op := by
  obtain ⟨l1, l2, hl, -⟩ := List.lookup_eq_some_iff.1 h
  exact hg.leaves (op, id) (by simp [hl])

/-- Operations stay, deleted nodes stay deleted, and remembered nodes stay remembered while they are
alive. -/
structure Evolves (g g' : Graph) : Prop where
  tidy : g'.Tidy
  name : g'.name = g.name
  ops : KeepsOps g g'
  leaf : ∀ op id, g.leaves.lookup op = some id → g'.isAlive id = true →
    g'.leaves.lookup op = some id

namespace Evolves

theorem refl (hg : g.Tidy) : Evolves g g := ⟨hg, rfl, .refl g, fun _ _ h _ => h⟩

theorem trans (hg : g.Tidy) (h : Evolves g g') (h' : Evolves g' g'') : Evolves g g'' where
  tidy := h'.tidy
  name := h'.name.trans h.name
  ops := h.ops.trans h'.ops
  leaf op id hid ha :=
    have hop := h.ops.ops id op (hg.op?_of_lookup hid)
    h'.leaf op id (h.leaf op id hid (h'.ops.alive id op hop ha)) ha

/-- A change that leaves alone what is remembered. -/
theorem of_leaves (hg : g.Tidy) (hp : g'.Packed) (hops : KeepsOps g g')
    (hl : g'.leaves = g.leaves) (hi : g'.Indexed) (hname : g'.name = g.name) : Evolves g g' where
  tidy := ⟨hp, fun p hp => hops.ops _ _ (hg.leaves p (hl ▸ hp)), hi⟩
  name := hname
  ops := hops
  leaf op id h _ := by rwa [hl]

/-- A change of edges. -/
theorem of_keeps (hg : g.Tidy) (hp : g'.Packed) (hop : g'.op? = g.op?)
    (ha : ∀ x, g'.isAlive x = g.isAlive x) (hk : Keeps g g') : Evolves g g' :=
  .of_leaves hg hp (.of_eq hop fun x hx => by rwa [ha] at hx) hk.leaves (hg.indexed.of_keeps hk hop ha)
    hk.name

end Evolves

/-! ### Changes -/

theorem KeepsNodes.evolves (h : KeepsNodes g g') (hp : g'.Packed) (hg : g.Tidy) : Evolves g g' :=
  .of_keeps hg hp (by funext x; rw [Graph.op?, h.node?, Graph.op?]) h.isAlive h.keeps

theorem Rewires.evolves (h : Rewires g g' id d n n' old new) (he : n.Edit n' d field old new)
    (hg : g.Tidy) : Evolves g g' :=
  .of_keeps hg h.packed (h.op? he) h.isAlive h.keeps

theorem Clears.evolves (h : Clears g g' id d n) (hg : g.Tidy) : Evolves g g' :=
  .of_keeps hg h.packed h.op? h.isAlive h.keeps

theorem Deletes.evolves (h : Deletes g g' id n) (hg : g.Tidy) : Evolves g g' :=
  .of_leaves hg h.packed h.keepsOps h.keeps.leaves (h.indexed hg.indexed) h.keeps.name

/-! ### Steps -/

/-- A tidy graph has evolved. -/
def Evolved (g g' : Graph) : Prop := g.Tidy → Evolves g g'

instance : IsPreorder Graph Evolved where
  refl _ := .refl
  trans _ _ _ h h' hg := (h hg).trans hg (h' (h hg).tidy)

/-- Where the step returns, a tidy graph has evolved. -/
abbrev Evolving (act : GraphM α) : Prop := Carries Evolved act

theorem evolving_iff {act : GraphM α} : Evolving act ↔
    ∀ g, g.Tidy → Ensures act g (fun _ g' => Evolves g g') := carries_iff

/-! ### Writing, replacing and deleting -/

instance (user : NodeId) (old new : Option NodeId) : Evolving (updateUsages user old new) :=
  evolving_iff.2 fun _ hg => (meets_updateUsages hg.packed user old new).ensures fun _ _ h =>
    h.1.toKeepsNodes.evolves h.1.packed hg

instance (user : NodeId) (old new : Option NodeId) : Evolving (updatePredecessor user old new) :=
  evolving_iff.2 fun _ hg => (meets_updatePredecessor user old new).ensures fun _ _ h =>
    h.repoints.toKeepsNodes.evolves (h.repoints.packed hg.packed) hg

instance evolving_setEdge (id : NodeId) (p : Position) (value : Option NodeId) :
    Evolving (setEdge id p value) := by
  refine evolving_iff.2 fun g hg => (meets_setEdge hg.packed id p value).ensures fun _ g' h => ?_
  obtain ⟨n, n', hput, rfl, -, hr⟩ := h
  exact hr.evolves (Node.edit_of_put hput) hg

instance evolving_pushEdge (id : NodeId) (d : Direction) (name : String) (value : Option NodeId) :
    Evolving (pushEdge id d name value) := by
  refine evolving_iff.2 fun g hg => (meets_pushEdge hg.packed id d name value).ensures fun _ g' h => ?_
  obtain ⟨n, n', field, -, hpush, -, hr⟩ := h
  exact hr.evolves (Node.edit_of_push hpush) hg

instance (id : NodeId) (p : Position) : Evolving (dropEdge id p) := by
  refine evolving_iff.2 fun g hg => (meets_dropEdge hg.packed id p).ensures fun _ g' h => ?_
  obtain ⟨n, rfl, hr⟩ := h
  exact hr.evolves (Node.edit_removeAt n p) hg

instance (id o : NodeId) (new : Option NodeId) : Evolving (replaceFirstInput id o new) := by
  refine evolving_iff.2 fun g hg => (meets_replaceFirstInput hg.packed id o new).ensures fun b g' h => ?_
  obtain ⟨-, n, -, ⟨-, rfl, -⟩ | ⟨-, n', hr, h⟩⟩ := h
  · exact .refl hg
  · obtain ⟨field, he⟩ := Node.edit_of_replaceFirst hr
    exact h.evolves he hg

instance (id o : NodeId) (new : Option NodeId) : Evolving (replaceFirstSuccessor id o new) := by
  refine evolving_iff.2 fun g hg => (meets_replaceFirstSuccessor hg.packed id o new).ensures fun b g' h => ?_
  obtain ⟨n, -, ⟨-, rfl, -⟩ | ⟨-, n', hr, h⟩⟩ := h
  · exact .refl hg
  · obtain ⟨field, he⟩ := Node.edit_of_replaceFirst hr
    exact h.evolves he hg

instance (id : NodeId) (role : Role) (other : Option NodeId) :
    Evolving (replaceAtUsagesOfRole id role other) := by
  unfold replaceAtUsagesOfRole
  infer_instance

instance (id : NodeId) (other : Option NodeId) : Evolving (replaceAtPredecessor id other) := by
  unfold replaceAtPredecessor
  refine .before fun e => ?_
  split <;> infer_instance

instance (id : NodeId) : Evolving (clearInputs id) :=
  evolving_iff.2 fun _ hg => (meets_clearInputs hg.packed id).ensures fun _ _ ⟨_, h⟩ => h.evolves hg

instance (id : NodeId) : Evolving (clearSuccessors id) :=
  evolving_iff.2 fun _ hg => (meets_clearSuccessors hg.packed id).ensures fun _ _ ⟨_, h⟩ => h.evolves hg

instance (id : NodeId) : Evolving (delete id) :=
  evolving_iff.2 fun _ hg => (meets_delete hg.packed id).ensures fun _ _ ⟨_, h⟩ => h.evolves hg

instance (id other : NodeId) : Evolving (replaceAndDelete id other) := by
  unfold replaceAndDelete
  infer_instance

instance (id : NodeId) : Evolving (spliceOut id) := by
  unfold spliceOut
  dsimp only
  refine .before fun e => ?_
  split <;> infer_instance

/-! ### Adding nodes -/

theorem lookup_filter_self {κ β : Type} [DecidableEq κ] (pairs : List (κ × β)) (a : κ) :
    (pairs.filter (·.1 ≠ a)).lookup a = none := by
  rw [List.lookup_eq_none_iff]
  intro p hp
  have hne : p.1 ≠ a := of_decide_eq_true (List.mem_filter.1 hp).2
  exact bne_iff_ne.2 hne.symm

/-- A fresh node is registered, and nothing is remembered of it yet. A node without edges can always
be registered. -/
theorem meets_addFresh_evolves (hg : g.Tidy) (n : Node) :
    Meets (addFresh n) g (fun id g' => Adds g g' id n ∧ g'.leaves = g.leaves ∧ Evolves g g')
      (fun _ => ∃ d t, 0 < n.uses d t) := by
  refine (meets_addFresh_leaves hg.packed n).mono (fun _ _ ⟨h, hl⟩ =>
    ⟨h, hl, .of_leaves hg h.packed h.keepsOps hl (h.indexed hg.indexed) h.name⟩) fun _ he => ?_
  rcases he with ⟨d, t, -, ht, -⟩ | hno
  · exact ⟨d, t, ht⟩
  · by_contra hbare
    exact hno ⟨fun d t ht => absurd ⟨d, t, ht⟩ hbare, fun t ht => absurd ⟨_, t, ht⟩ hbare⟩

instance (n : Node) : Evolving (addFresh n) :=
  evolving_iff.2 fun _ hg => (meets_addFresh_evolves hg n).ensures fun _ _ h => h.2.2

/-- A remembered node that is gone is forgotten; any other one is found. -/
theorem meets_findLeaf_evolves (hg : g.Tidy) (op : Op) :
    Meets (findLeaf op) g
      (fun r g' => Evolves g g' ∧ Forgets g g' ∧
        (r = none → g'.leaves.lookup op = none) ∧
        ∀ id, r = some id → g' = g ∧ g.isAlive id ∧ g.leaves.lookup op = some id)
      (fun _ => False) := by
  unfold findLeaf
  rw [meets_bind, meets_get]
  cases hl : g.leaves.lookup op with
  | none => exact ⟨.refl hg, .refl g, fun _ => hl, by simp⟩
  | some id =>
    have hop := hg.op?_of_lookup hl
    refine meets_bind.2 (meets_entry.2 ⟨fun e he => ?_, fun hnone => ?_⟩)
    · have heop : e.node.op = op := by simpa [op?, node?_of_get? he] using hop
      cases ha : e.alive with
      | true =>
        rw [if_pos (by simp [heop]), meets_pure]
        refine ⟨.refl hg, .refl g, by simp, ?_⟩
        rintro _ ⟨⟩
        exact ⟨rfl, by rw [isAlive_of_get? he, ha], rfl⟩
      | false =>
        rw [if_neg (by simp), meets_bind, meets_modify, meets_pure]
        refine ⟨⟨⟨hg.packed, fun p hp => hg.leaves p (List.mem_of_mem_filter hp), { hg.indexed with }⟩,
          rfl, .of_eq rfl fun _ ha => ha, fun op' id' hl' ha' => ?_⟩,
          ⟨fun _ => rfl, rfl, rfl, rfl, fun _ => rfl, fun p hp => List.mem_of_mem_filter hp⟩,
          fun _ => lookup_filter_self _ _, by simp⟩
        have hdead : g.isAlive id = false := by rw [isAlive_of_get? he, ha]
        have hne : op' ≠ op := by
          rintro rfl
          obtain rfl := Option.mem_unique hl hl'
          exact Bool.false_ne_true (hdead.symm.trans ha')
        exact (lookup_filter_ne _ hne).trans hl'
    · simp [op?, node?, hnone] at hop

instance (targets : List NodeId) : Observes (fewestUsed targets none) :=
  ⟨fun _ => (meets_fewestUsed _ none).ensures fun _ _ h => h.1⟩

instance (n : Node) (users : List NodeId) : Observes (findAmong n users) :=
  ⟨fun _ => (meets_findAmong n users).ensures fun _ _ h => h.1⟩

instance (n : Node) : Evolving (findEqual n) := by
  unfold findEqual
  split
  · exact evolving_iff.2 fun g hg => (meets_findLeaf_evolves hg n.op).ensures fun _ _ h => h.1
  · refine .before fun r => ?_
    cases r <;> infer_instance

/-- A new node is remembered where nothing was. -/
theorem Adds.evolves_remember (h : Adds g g' id n) (he : Evolves g g')
    (hl : g'.leaves = g.leaves) (hnone : g.leaves.lookup n.op = none) :
    Evolves g { g' with leaves := (n.op, id) :: g'.leaves.filter (·.1 ≠ n.op) } where
  tidy := by
    refine ⟨he.tidy.packed, fun p hp => ?_, { he.tidy.indexed with }⟩
    rcases List.mem_cons.1 hp with rfl | hp
    · show g'.op? id = some n.op
      rw [h.op?, if_pos rfl]
    · exact he.tidy.leaves p (List.mem_of_mem_filter hp)
  name := he.name
  ops := ⟨he.ops.ops, he.ops.alive⟩
  leaf op x hx _ := by
    have hne : op ≠ n.op := by
      rintro rfl
      rw [hnone] at hx
      cases hx
    show ((n.op, id) :: g'.leaves.filter (·.1 ≠ n.op)).lookup op = some x
    rw [List.lookup_cons, beq_eq_false_iff_ne.2 hne, lookup_filter_ne _ hne, hl]
    exact hx

/-- Asking for a node without inputs gives the remembered one if it is alive, and otherwise a new
one, which is then remembered. -/
theorem meets_intern_leaf (hg : g.Tidy) (hv : n.op.isValueNumberable)
    (hleaf : n.op.isLeaf) :
    Meets (intern n) g
      (fun id g' => Evolves g g' ∧ g'.isAlive id ∧ g'.leaves.lookup n.op = some id ∧
        ∀ x, g.leaves.lookup n.op = some x → g.isAlive x → id = x ∧ g' = g)
      (fun _ => ∃ d t, 0 < n.uses d t) := by
  unfold intern
  simp only [hv, findEqual, if_pos hleaf]
  refine meets_bind.2 ((meets_findLeaf_evolves hg n.op).mono (fun r g1 h => ?_) fun _ => False.elim)
  obtain ⟨h1, hsame, hnone, hfound⟩ := h
  cases r with
  | some id =>
    obtain ⟨rfl, ha, hl⟩ := hfound id rfl
    exact ⟨h1, ha, hl, fun x hx _ => ⟨Option.mem_unique hl hx, rfl⟩⟩
  | none =>
    have hnone := hnone rfl
    refine (meets_addFresh_evolves h1.tidy n).bind fun id g2 h2 => ?_
    obtain ⟨hadds, hl, h2⟩ := h2
    rw [meets_bind]
    refine ⟨h1.trans hg (hadds.evolves_remember h2 hl hnone), hadds.isAlive_self,
      List.lookup_cons_self, fun x hx ha => ?_⟩
    -- a remembered node that is alive would have been found
    have := h1.leaf n.op x hx (by rwa [hsame.isAlive])
    rw [hnone] at this
    cases this

instance (n : Node) : Evolving (intern n) := by
  refine evolving_iff.2 fun g hg => ?_
  cases hv : n.op.isValueNumberable with
  | false =>
    unfold intern
    simp [hv]
  | true =>
    cases hleaf : n.op.isLeaf with
    | true => exact (meets_intern_leaf hg hv hleaf).ensures fun _ _ h => h.1
    | false =>
      unfold intern
      simp only [hv, hleaf]
      refine evolving_iff.1 (.before fun r => ?_) g hg
      split
      · infer_instance
      · exact .before fun id => .pure id

/-- A node without inputs is registered anew, and remembered if no other one is. -/
theorem evolving_addLeaf (hleaf : n.op.isLeaf) : Evolving (addLeaf n) := by
  refine evolving_iff.2 fun g hg => ?_
  unfold addLeaf
  simp only [findEqual, if_pos hleaf]
  refine meets_bind.2 ((meets_findLeaf_evolves hg n.op).ensures fun r g1 h => ?_)
  obtain ⟨h1, -, hnone, -⟩ := h
  refine meets_bind.2 ((meets_addFresh_evolves h1.tidy n).ensures fun id g2 h2 => ?_)
  obtain ⟨hadds, hl, h2⟩ := h2
  cases r with
  | some _ => exact h1.trans hg h2
  | none => exact h1.trans hg (hadds.evolves_remember h2 hl (hnone rfl))

/-! ### Copying nodes -/

instance (policy : LeafPolicy) (n : Node) : Evolving (addBare policy n) := by
  unfold addBare
  simp only
  split
  · rename_i hleaf
    rw [Bool.and_eq_true] at hleaf
    cases policy with
    | shared => infer_instance
    | oneToOne => exact evolving_addLeaf hleaf.2
  · infer_instance

section

variable {R : Graph → Graph → Prop} [IsPreorder Graph R]

instance [∀ id p value, Carries R (setEdge id p value)]
    [∀ id d name value, Carries R (pushEdge id d name value)] (id : NodeId) (n : Node) (p : Position)
    (target : Option NodeId) : Carries R (attach id n p target) := by
  unfold attach
  split
  · infer_instance
  · infer_instance

/-- What making copies and writing their edges carries over, copying nodes carries over. -/
instance carries_duplicateNodes {policy : LeafPolicy} [∀ n, Carries R (addBare policy n)]
    [∀ id n p target, Carries R (attach id n p target)] (nodes : List (NodeId × Node))
    (replacements : Renaming) (sameGraph : Bool) :
    Carries R (duplicateNodes nodes replacements policy sameGraph) := by
  have edges (map : Renaming) (d : Direction)
      (resolve : NodeId → Node → Option NodeId → GraphM (Option NodeId))
      (_ : ∀ old n v, Observes (resolve old n v)) : Carries R (connect map d resolve nodes) := by
    refine @Carries.forIn _ _ _ _ _ _ _ _ _ fun q _ => ?_
    cases map.get? q.1 <;> infer_instance
  have first : Carries R (addCopies policy nodes replacements) := by
    unfold addCopies
    infer_instance
  rw [duplicateNodes_eq]
  exact first.seq fun map => (edges map .inputs _ inferInstance).seq fun _ =>
    (edges map .successors _ inferInstance).seq fun _ => .pure map

end

theorem evolving_duplicateNodes (nodes : List (NodeId × Node)) (replacements : Renaming)
    (policy : LeafPolicy) (sameGraph : Bool) :
    Evolving (duplicateNodes nodes replacements policy sameGraph) := inferInstance

end SeaOfNodes.Graph
