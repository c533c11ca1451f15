import SeaOfNodes.Proofs.Graph.Connection

/-!
# Duplicating sets of nodes

The copies of some nodes go to a graph that has nodes of its own, within one graph or from one to
another, and some of the nodes may be replaced instead of copied. What was in the graph stays as it
is. A copy without inputs may be a node that was there already; every other copy is a new one, so the
slots of different copies do not get in each other's way. It can fail only where a successor cannot be
claimed, or an input from another graph is neither copied nor replaced.
-/

namespace SeaOfNodes

/-- Equal nodes with the operation are one. -/
def Op.isShared (op : Op) : Bool := op.isValueNumberable && op.isLeaf

variable {n : Node}

theorem Node.Shaped.edgeless (h : n.Shaped) (hn : n.op.isShared) : n.Edgeless := by
  obtain ⟨hv, hleaf⟩ := Bool.and_eq_true_iff.1 hn
  intro d
  refine h.links_eq_nil ?_
  cases d with
  | inputs => simpa [Op.isLeaf, Layout.isLeaf, Layout.fields, Node.layout] using hleaf
  | successors => exact NodeClass.successors_of_valueNumberable hv

theorem Node.Shaped.copy (h : n.Shaped) : (n.copy .none).Shaped := by
  intro d
  rw [Node.links_copy_none, Links.clear, List.map_map]
  refine Eq.trans ?_ (h d)
  exact List.map_congr_left fun link _ => link.isList_cleared

/-- Where the inputs of copies lead: within a graph those to nodes without a copy stay. -/
def Renaming.inputs (map : Renaming) : Bool → NodeId → Option NodeId
  | true, t => some ((map.get? t).getD t)
  | false, t => map.get? t

namespace Graph

variable {source g g' s : Graph} {id : NodeId} {n : Node} {ids : List NodeId}
  {replacements map : Renaming} {nodes done : List (NodeId × Node)} {x : NodeId} {d : Direction}
  {policy : LeafPolicy}

/-! ### Copies without edges -/

/-- Each node with the operation has a copy of its own. -/
def LeafPolicy.Splits (policy : LeafPolicy) (op : Op) : Prop := op.isShared = true → policy = .oneToOne

theorem LeafPolicy.splits_of_not_isShared (policy : LeafPolicy) {op : Op} (h : op.isShared = false) :
    policy.Splits op := fun hs => by
  rw [h] at hs
  cases hs

/-- The nodes of the graph stay as they are, and no predecessor is given to any of them. -/
structure Preserves (g g' : Graph) : Prop where
  consistent : g'.Consistent
  shaped : ∀ x m, g'.node? x = some m → m.Shaped
  leaves : g.LeavesRegistered → g'.LeavesRegistered
  kept : ∀ x m, g.node? x = some m → g'.node? x = some m ∧ g'.isAlive x = g.isAlive x
  free : ∀ x, g.predecessor? x = none → g'.predecessor? x = none

theorem Preserves.refl (hg : g.Consistent) (hshaped : ∀ x m, g.node? x = some m → m.Shaped) :
    Preserves g g :=
  ⟨hg, hshaped, id, fun _ _ h => ⟨h, rfl⟩, fun _ => id⟩

theorem Preserves.trans {g'' : Graph} (h : Preserves g g') (h' : Preserves g' g'') : Preserves g g'' where
  consistent := h'.consistent
  shaped := h'.shaped
  leaves hl := h'.leaves (h.leaves hl)
  kept x m hm := by
    obtain ⟨hm', ha⟩ := h.kept x m hm
    obtain ⟨hm'', ha'⟩ := h'.kept x m hm'
    exact ⟨hm'', ha'.trans ha⟩
  free x hx := h'.free x (h.free x hx)

/-- There is a copy of `n` without edges, a new one unless it is shared. -/
structure Clones (policy : LeafPolicy) (g g' : Graph) (n : Node) (id : NodeId) : Prop
    extends Preserves g g' where
  node : g'.node? id = some (n.copy .none)
  alive : g'.isAlive id = true
  adds : policy.Splits n.op → Adds g g' id (n.copy .none)

theorem Adds.node?_fresh (h : Adds g g' id n) : g.node? id = none := by
  rw [Graph.node?, h.get?_fresh]
  rfl

theorem Adds.clones (h : Adds g g' id (n.copy .none)) (hg : g.Consistent)
    (hshaped : ∀ x m, g.node? x = some m → m.Shaped) (hn : n.Shaped) : Clones policy g g' n id where
  consistent := h.consistent hg
  shaped x m hm := by
    rw [h.node?] at hm
    split at hm
    · cases hm
      exact hn.copy
    · exact hshaped x m hm
  leaves hl p hp := by
    rw [h.node?]
    rcases h.leaves p hp with hp | rfl
    · split
      · rfl
      · exact hl p hp
    · simp
  kept x m hm := by
    have hne : x ≠ id := by
      rintro rfl
      rw [h.node?_fresh] at hm
      cases hm
    rw [h.node?, h.isAlive, if_neg hne, if_neg hne]
    exact ⟨hm, rfl⟩
  free x hx := by rw [h.predecessor?, uses_copy_none, if_neg (lt_irrefl 0), hx]
  node := by rw [h.node?, if_pos rfl]
  alive := h.isAlive_self
  adds _ := h

theorem Forgets.clones (h : Forgets g g') (hf : g.Found (n.copy .none) id) (hg : g.Consistent)
    (hshaped : ∀ x m, g.node? x = some m → m.Shaped) (hn : n.Shaped) (hs : n.op.isShared) :
    Clones .shared g g' n id where
  consistent := h.consistent hg
  shaped x m hm := hshaped x m (by rwa [← h.node?])
  leaves hl p hp := by
    rw [h.node?]
    exact hl p (h.leaves p hp)
  kept x m hm := ⟨by rw [h.node?, hm], h.isAlive x⟩
  free x hx := by rw [h.predecessor?, hx]
  node := by
    -- both nodes have no slots, so they differ in the operation at most
    obtain ⟨m, hm, hop, -⟩ := hf
    have hm0 := (hshaped id m hm).edgeless (by rw [hop]; exact hs)
    have hn0 := hn.copy.edgeless (n := n.copy .none) hs
    rw [h.node?, hm, Node.eq_of_links hop fun d => (hm0 d).trans (hn0 d).symm]
  alive := by rw [h.isAlive, hf.isAlive hg]
  adds hno := nomatch hno hs

/-- A copy without edges is added or found. -/
theorem meets_addBare (policy : LeafPolicy) (hg : g.Consistent)
    (hshaped : ∀ x m, g.node? x = some m → m.Shaped) (hn : n.Shaped) :
    Meets (addBare policy n) g (fun id g' => Clones policy g g' n id)
      (fun _ => ¬ g.LeavesRegistered) := by
  have hrefers (e : Fault) : ¬ g.RefersToDeleted (n.copy .none) e := by
    rintro ⟨d, t, -, ht, -⟩
    simp [uses_copy_none] at ht
  have hadd : g.CanAdd (n.copy .none) := by constructor <;> simp [uses_copy_none]
  have hfail (e : Fault) (he : g.RefersToDeleted (n.copy .none) e ∨
      ¬ (g.CanAdd (n.copy .none) ∧ g.CanFind (n.copy .none))) : ¬ g.LeavesRegistered := fun hl =>
    he.elim (hrefers e) fun hno =>
      hno ⟨hadd, fun _ => hl, by simp [uses_copy_none], by simp [uses_copy_none]⟩
  unfold addBare
  simp only
  split
  · rename_i hs
    cases policy with
    | shared =>
      refine (meets_intern hg.packed (Bool.and_eq_true_iff.1 hs).1).mono (fun id g' h => ?_) hfail
      rcases h with ⟨hforgets, hfound⟩ | hadds
      · exact hforgets.clones hfound hg hshaped hn hs
      · exact hadds.clones hg hshaped hn
    | oneToOne => exact (meets_addLeaf hg.packed _).mono (fun id g' h => h.clones hg hshaped hn) hfail
  · exact (meets_addFresh hg.packed _).mono (fun id g' h => h.clones hg hshaped hn)
      fun e he => absurd he (not_or.2 ⟨hrefers e, not_not.2 hadd⟩)

/-- The nodes in `done` have copies without edges, and the other nodes their replacements. -/
structure Cloned (policy : LeafPolicy) (replacements : Renaming) (g : Graph) (map : Renaming)
    (done : List (NodeId × Node)) (s : Graph) : Prop extends Preserves g s where
  replaced : ∀ x, x ∉ done.map (·.1) → map.get? x = replacements.get? x
  copy : ∀ q ∈ done, ∃ new, map.get? q.1 = some new ∧ s.isAlive new = true ∧
    s.node? new = some (q.2.copy .none) ∧ (policy.Splits q.2.op → g.node? new = none)
  apart : ∀ q ∈ done, ∀ q' ∈ done, policy.Splits q.2.op → map.get? q.1 = map.get? q'.1 → q.1 = q'.1

theorem Cloned.add {q : NodeId × Node} (h : Cloned policy replacements g map done s)
    (hq : q.1 ∉ done.map (·.1)) (hc : Clones policy s g' q.2 id) :
    Cloned policy replacements g (map.insert q.1 id) (done ++ [q]) g' := by
  have hne (q' : NodeId × Node) (hq' : q' ∈ done) : q'.1 ≠ q.1 :=
    fun e => hq (e ▸ List.mem_map.2 ⟨q', hq', rfl⟩)
  -- a copy that is not shared is none of the others
  have hother (q' : NodeId × Node) (hq' : q' ∈ done)
      (hs : policy.Splits q.2.op ∨ policy.Splits q'.2.op) : map.get? q'.1 ≠ some id := by
    intro hnew
    obtain ⟨new, hnew', -, hnode, -⟩ := h.copy q' hq'
    obtain rfl : new = id := Option.mem_unique hnew' hnew
    have hop : q.2.op = q'.2.op := by
      have := (hc.kept new _ hnode).1
      rw [hc.node] at this
      exact (congrArg Node.op (Option.some.inj this) :)
    have hs : policy.Splits q.2.op := hs.elim id (hop ▸ ·)
    rw [(hc.adds hs).node?_fresh] at hnode
    cases hnode
  exact {
    toPreserves := h.toPreserves.trans hc.toPreserves
    replaced := fun x hx => by
      rw [List.map_append, List.mem_append, not_or] at hx
      rw [get?_insert, if_neg (by simpa using hx.2), h.replaced x hx.1]
    copy := fun q' hq' => by
      rcases List.mem_append.1 hq' with hq' | hq'
      · obtain ⟨new, hnew, ha, hnode, hfresh⟩ := h.copy q' hq'
        obtain ⟨hnode', ha'⟩ := hc.kept new _ hnode
        exact ⟨new, by rw [get?_insert, if_neg (hne q' hq'), hnew], ha'.trans ha, hnode', hfresh⟩
      · obtain rfl := List.mem_singleton.1 hq'
        refine ⟨id, by rw [get?_insert, if_pos rfl], hc.alive, hc.node, fun hs => ?_⟩
        by_contra hno
        obtain ⟨m, hm⟩ := Option.ne_none_iff_exists'.1 hno
        have := (hc.adds hs).node?_fresh
        rw [(h.kept id m hm).1] at this
        cases this
    apart := fun q1 hq1 q2 hq2 hs hsame => by
      rw [get?_insert, get?_insert] at hsame
      rcases List.mem_append.1 hq1 with h1 | h1 <;> rcases List.mem_append.1 hq2 with h2 | h2
      · rw [if_neg (hne q1 h1), if_neg (hne q2 h2)] at hsame
        exact h.apart q1 h1 q2 h2 hs hsame
      · obtain rfl := List.mem_singleton.1 h2
        rw [if_neg (hne q1 h1), if_pos rfl] at hsame
        exact absurd hsame (hother q1 h1 (.inr hs))
      · obtain rfl := List.mem_singleton.1 h1
        rw [if_neg (hne q2 h2), if_pos rfl] at hsame
        exact absurd hsame.symm (hother q2 h2 (.inl hs))
      · rw [List.mem_singleton.1 h1, List.mem_singleton.1 h2] }

/-- Giving one more node a copy keeps the invariant. -/
def Maintained (policy : LeafPolicy) (inv : Renaming → List (NodeId × Node) → Graph → Prop) : Prop :=
  ∀ ⦃q map done s id s'⦄, q.1 ∉ done.map (·.1) → Clones policy s s' q.2 id → inv map done s →
    inv (map.insert q.1 id) (done ++ [q]) s'

variable {inv : Renaming → List (NodeId × Node) → Graph → Prop}

/-- The first round gives every node a copy without edges. -/
theorem meets_addClones (hg : g.Consistent) (hshaped : ∀ x m, g.node? x = some m → m.Shaped)
    (hnodup : (nodes.map (·.1)).Nodup) (hnodes : ∀ q ∈ nodes, q.2.Shaped)
    (hinv : Maintained policy inv) (hstart : inv replacements [] g) :
    Meets (addCopies policy nodes replacements) g
      (fun map s => Cloned policy replacements g map nodes s ∧ inv map nodes s)
      (fun _ => ¬ g.LeavesRegistered) := by
  refine meets_firstRound (fun map done s => Cloned policy replacements g map done s ∧ inv map done s)
    ⟨⟨.refl hg hshaped, fun _ _ => rfl, nofun, nofun⟩, hstart⟩ fun q done rest map s hdone ⟨h, hi⟩ => ?_
  have hq := not_mem_of_nodup hnodup hdone
  exact (meets_addBare policy h.consistent h.shaped (hnodes q (by simp [hdone]))).mono
    (fun id s' hc => ⟨h.add hq hc, hinv hq hc hi⟩) fun _ hno hl => hno (h.leaves hl)

theorem Cloned.copies (h : Cloned policy replacements g map nodes s) (hnodes : ∀ q ∈ nodes, q.2.Shaped) :
    Copies map nodes (·.copy .none) s where
  consistent := h.consistent
  apart q hq q' hq' hedges := by
    exact h.apart q hq q' hq' fun hs => absurd ((hnodes q hq).edgeless hs) hedges
  copy q hq := by
    obtain ⟨new, hnew, ha, hnode, -⟩ := h.copy q hq
    exact ⟨new, hnew, ha, hnode⟩

/-- What the map leads to is alive. -/
theorem Cloned.isAlive_of_get? (h : Cloned policy replacements g map nodes s)
    (hrep : ∀ x y, replacements.get? x = some y → g.isAlive y) {y : NodeId}
    (hy : map.get? x = some y) : s.isAlive y := by
  by_cases hx : x ∈ nodes.map (·.1)
  · obtain ⟨q, hq, rfl⟩ := List.mem_map.1 hx
    obtain ⟨new, hnew, ha, -⟩ := h.copy q hq
    exact Option.mem_unique hnew hy ▸ ha
  · rw [h.replaced x hx] at hy
    obtain ⟨m, hm⟩ := Option.isSome_iff_exists.1 (registered_of_isAlive (hrep x y hy))
    rw [(h.kept y m hm).2, hrep x y hy]

/-! ### Inputs -/

theorem meets_mapInput {sameGraph : Bool} (old : NodeId) (v : Option NodeId) (s : Graph) :
    Meets (v.mapM (mapInput map sameGraph old n)) s
      (fun r s' => (r = v.bind (map.inputs sameGraph) ∧ s' = s) ∧
        ∀ t, v = some t → (map.inputs sameGraph t).isSome)
      (fun _ => ∃ t, v = some t ∧ map.inputs sameGraph t = none) := by
  cases v with
  | none => exact ⟨⟨rfl, rfl⟩, nofun⟩
  | some t =>
    simp only [Option.mapM_some, meets_map, mapInput, Option.bind_some, Option.some.injEq,
      forall_eq', exists_eq_left']
    cases hnew : map.get? t with
    | some new | none => cases sameGraph <;> simp [Renaming.inputs, hnew]

/-- Once the slots of all copies are written, each of them could be resolved. -/
theorem meets_connect_resolved {P : Option NodeId → Prop} (hmap : ∀ q ∈ nodes, (map.get? q.1).isSome)
    (resolve : NodeId → Node → Option NodeId → GraphM (Option NodeId))
    (hresolve : ∀ q ∈ nodes, ∀ v s, Ensures (resolve q.1 q.2 v) s (fun _ _ => P v)) :
    Ensures (connect map d resolve nodes) g
      (fun _ _ => ∀ q ∈ nodes, ∀ v ∈ q.2.slots d, P v) := by
  refine Meets.forIn_all fun q hq s => ?_
  obtain ⟨new, hnew⟩ := Option.isSome_iff_exists.1 (hmap q hq)
  simp only [hnew]
  refine (Meets.forIn_all (P := fun x => P x.2) fun x _ s => ?_).bind fun _ _ h => ⟨rfl, fun v hv => ?_⟩
  · refine (hresolve q hq x.2 s).bind fun v s' hv => ?_
    exact (meets_any _ _).bind fun _ _ _ => ⟨rfl, hv⟩
  · rw [← q.2.map_snd_walk] at hv
    obtain ⟨x, hx, rfl⟩ := List.mem_map.1 hv
    exact h x hx

/-! ### All three rounds -/

/-- The node is one of those to be copied, and not replaced. -/
def Copied (ids : List NodeId) (replacements : Renaming) (x : NodeId) : Prop :=
  x ∈ ids ∧ replacements.get? x = none

/-- The copies can have their successors: a copied successor has a copy of its own, and a replaced one
a replacement of its own that has no predecessor. -/
structure Vacant (source g : Graph) (ids : List NodeId) (replacements : Renaming) : Prop where
  copied : ∀ x t op, Copied ids replacements x → 0 < source.uses .successors x t →
    Copied ids replacements t → source.op? t = some op → op.isShared = false
  replaced : ∀ x t y, Copied ids replacements x → 0 < source.uses .successors x t →
    replacements.get? t = some y → g.predecessor? y = none
  apart : ∀ x x' t t' y, Copied ids replacements x → Copied ids replacements x' →
    0 < source.uses .successors x t → 0 < source.uses .successors x' t' →
      replacements.get? t = some y → replacements.get? t' = some y → t = t'

/-- The map leads the listed nodes of `source` to copies in `g'`, or to their replacements. The inputs
of the copies lead where `input` says, and their successors where the map says; what was in `g` stays
as it is. -/
structure IsDuplicate (source g g' : Graph) (ids : List NodeId) (replacements map : Renaming)
    (input : NodeId → Option NodeId) : Prop where
  consistent : g'.Consistent
  replaced : ∀ x y, replacements.get? x = some y → map.get? x = some y
  domain : ∀ x, (map.get? x).isSome ↔ x ∈ ids ∨ (replacements.get? x).isSome
  kept : ∀ x n, g.node? x = some n → g'.node? x = some n ∧ g'.isAlive x = g.isAlive x
  copy : ∀ x n, Copied ids replacements x → source.node? x = some n →
    ∃ x', map.get? x = some x' ∧ g'.isAlive x' = true ∧
      g'.node? x' =
        some ⟨n.op, n.inputs.map (Link.rename input), n.successors.map (Link.rename map.get?)⟩ ∧
      (n.op.isShared = false → g.node? x' = none)
  resolved : ∀ x t, Copied ids replacements x → 0 < source.uses .inputs x t → (input t).isSome

/-- The nodes to be copied. -/
structure Selects (source : Graph) (ids : List NodeId) (replacements : Renaming)
    (nodes : List (NodeId × Node)) : Prop where
  nodup : (nodes.map (·.1)).Nodup
  node : ∀ q ∈ nodes, source.node? q.1 = some q.2
  mem : ∀ x, x ∈ nodes.map (·.1) ↔ Copied ids replacements x

theorem exists_selects (hnodup : ids.Nodup) (halive : ∀ x ∈ ids, source.isAlive x)
    (replacements : Renaming) :
    ∃ nodes, source.snapshot ids replacements = .ok nodes ∧ Selects source ids replacements nodes := by
  obtain ⟨nodes, hrun, hids, hnode⟩ :=
    exists_snapshot replacements fun x hx => registered_of_isAlive (halive x hx)
  refine ⟨nodes, hrun, hids ▸ hnodup.filter _, hnode, fun x => ?_⟩
  rw [hids, List.mem_filter, Option.isNone_iff_eq_none]
  rfl

theorem predecessor?_of_node?_eq_none (h : g.node? x = none) : g.predecessor? x = none := by
  cases hp : g.predecessor? x with
  | none => rfl
  | some p =>
    obtain ⟨n, hn⟩ := exists_node?_of_predecessor? hp
    rw [h] at hn
    cases hn

/-- The successors of the copies can be claimed. -/
theorem Cloned.claimable (h : Cloned policy replacements g map nodes s)
    (hsel : Selects source ids replacements nodes) (hsource : source.Consistent)
    (hrep : ∀ x y, replacements.get? x = some y → g.isAlive y)
    (hsplits : ∀ x t op, Copied ids replacements x → 0 < source.uses .successors x t →
      Copied ids replacements t → source.op? t = some op → policy.Splits op)
    (hfree : ∀ x t y, Copied ids replacements x → 0 < source.uses .successors x t →
      replacements.get? t = some y → g.predecessor? y = none)
    (hapart : ∀ x x' t t' y, Copied ids replacements x → Copied ids replacements x' →
      0 < source.uses .successors x t → 0 < source.uses .successors x' t' →
        replacements.get? t = some y → replacements.get? t' = some y → t = t') :
    s.Claimable .successors (nodes.flatMap fun q => claims map.get? .successors q.2) := by
  have hcopied (q : NodeId × Node) (hq : q ∈ nodes) : Copied ids replacements q.1 :=
    (hsel.mem q.1).1 (List.mem_map.2 ⟨q, hq, rfl⟩)
  have huses {q : NodeId × Node} (hq : q ∈ nodes) {t : NodeId} (ht : 0 < q.2.uses .successors t) :
      0 < source.uses .successors q.1 t := by
    rwa [uses_of_node? (hsel.node q hq)]
  -- a copied successor has a new copy
  have hnew {q : NodeId × Node} (hq : q ∈ nodes) {q' : NodeId × Node} (hq' : q' ∈ nodes)
      (ht : 0 < q.2.uses .successors q'.1) : policy.Splits q'.2.op :=
    hsplits q.1 q'.1 q'.2.op (hcopied q hq) (huses hq ht) (hcopied q' hq')
      (op?_of_node? (hsel.node q' hq'))
  have hfresh {q : NodeId × Node} (hq : q ∈ nodes) {q' : NodeId × Node} (hq' : q' ∈ nodes)
      (ht : 0 < q.2.uses .successors q'.1) {y : NodeId} (hy : map.get? q'.1 = some y) :
      g.node? y = none := by
    obtain ⟨new, hnew', -, -, hfresh⟩ := h.copy q' hq'
    exact Option.mem_unique hnew' hy ▸ hfresh (hnew hq hq' ht)
  -- which a replacement is not
  have hold {t y : NodeId} (ht : t ∉ nodes.map (·.1)) (hy : map.get? t = some y) :
      g.node? y ≠ none ∧ replacements.get? t = some y := by
    rw [h.replaced t ht] at hy
    exact ⟨Option.isSome_iff_ne_none.1 (registered_of_isAlive (hrep t y hy)), hy⟩
  refine fun _ => ⟨(hsource.owned hsel.nodup hsel.node).nodup_claims ?_, fun y hy => ?_⟩
  · intro q hq q' hq' t t' y ht ht' hy hy'
    by_cases hmem : t ∈ nodes.map (·.1) <;> by_cases hmem' : t' ∈ nodes.map (·.1)
    · obtain ⟨p, hp, rfl⟩ := List.mem_map.1 hmem
      obtain ⟨p', hp', rfl⟩ := List.mem_map.1 hmem'
      exact h.apart p hp p' hp' (hnew hq hp ht) (hy.trans hy'.symm)
    · obtain ⟨p, hp, rfl⟩ := List.mem_map.1 hmem
      exact absurd (hfresh hq hp ht hy) (hold hmem' hy').1
    · obtain ⟨p', hp', rfl⟩ := List.mem_map.1 hmem'
      exact absurd (hfresh hq' hp' ht' hy') (hold hmem hy).1
    · exact hapart q.1 q'.1 t t' y (hcopied q hq) (hcopied q' hq') (huses hq ht) (huses hq' ht')
        (hold hmem hy).2 (hold hmem' hy').2
  · obtain ⟨q, hq, hclaim⟩ := List.mem_flatMap.1 hy
    obtain ⟨t, ht, hty⟩ := mem_claims.1 hclaim
    refine h.free y ?_
    by_cases hmem : t ∈ nodes.map (·.1)
    · obtain ⟨p, hp, rfl⟩ := List.mem_map.1 hmem
      exact predecessor?_of_node?_eq_none (hfresh hq hp ht hty)
    · exact hfree q.1 t y (hcopied q hq) (huses hq ht) (hold hmem hty).2

theorem Cloned.isSome_get?_iff (h : Cloned policy replacements g map nodes s)
    (hsel : Selects source ids replacements nodes) (x : NodeId) :
    (map.get? x).isSome ↔ x ∈ ids ∨ (replacements.get? x).isSome := by
  by_cases hx : x ∈ nodes.map (·.1)
  · obtain ⟨hmem, -⟩ := (hsel.mem x).1 hx
    obtain ⟨q, hq, rfl⟩ := List.mem_map.1 hx
    obtain ⟨new, hnew, -⟩ := h.copy q hq
    simp [hnew, hmem]
  · rw [h.replaced x hx, iff_or_self]
    intro hmem
    by_contra hno
    exact hx ((hsel.mem x).2 ⟨hmem, by simpa using hno⟩)

/-- Writing slots of the copies leaves the other nodes as they are. -/
theorem Cloned.node?_of_connecting (h : Cloned policy replacements g map nodes s)
    (hnodes : ∀ q ∈ nodes, q.2.Shaped) {ρ : NodeId → Option NodeId} {f : Node → Node}
    {g1 g2 : Graph} (hc : Connecting map ρ d f g1 nodes [] g2) (hx : g.node? x ≠ none) :
    g2.node? x = g1.node? x := by
  refine hc.others x fun q hq hedges hget => hx ?_
  rw [List.append_nil] at hq
  obtain ⟨new, hnew, -, -, hfresh⟩ := h.copy q hq
  rw [← Option.mem_unique hnew hget]
  exact hfresh fun hs => absurd ((hnodes q hq).edgeless hs) hedges

/-- Every input of a copied node is copied or replaced. -/
def InputsCovered (source : Graph) (ids : List NodeId) (replacements : Renaming) : Prop :=
  ∀ x t, Copied ids replacements x → 0 < source.uses .inputs x t →
    t ∈ ids ∨ (replacements.get? t).isSome

/-- The nodes are copied, if the copies can have their edges. What the first round maintains is true
of a graph with the same nodes. -/
theorem meets_duplicateNodes (sameGraph : Bool)
    (inv : Renaming → List (NodeId × Node) → Graph → Prop) (hg : g.Consistent)
    (hshaped : ∀ x m, g.node? x = some m → m.Shaped)
    (hshaped' : ∀ x m, source.node? x = some m → m.Shaped)
    (hrep : ∀ x y, replacements.get? x = some y → g.isAlive y)
    (hsel : Selects source ids replacements nodes)
    (hinputs : sameGraph → ∀ q ∈ nodes, ∀ t, 0 < q.2.uses .inputs t → g.isAlive t)
    (hinv : Maintained policy inv) (hstart : inv replacements [] g) {ok : Prop}
    (hleaves : ok → g.LeavesRegistered)
    (hclaim : ok → ∀ map s, Cloned policy replacements g map nodes s →
      s.Claimable .successors (nodes.flatMap fun q => claims map.get? .successors q.2))
    (hcover : ok → sameGraph = false → InputsCovered source ids replacements) :
    Meets (duplicateNodes nodes replacements policy sameGraph) g
      (fun map g' => IsDuplicate source g g' ids replacements map (map.inputs sameGraph) ∧
        ∃ s, inv map nodes s ∧ SameNodes s g')
      (fun _ => ¬ ok) := by
  have hnodes (q : NodeId × Node) (hq : q ∈ nodes) : q.2.Shaped := hshaped' q.1 q.2 (hsel.node q hq)
  have hcopied (q : NodeId × Node) (hq : q ∈ nodes) : Copied ids replacements q.1 :=
    (hsel.mem q.1).1 (List.mem_map.2 ⟨q, hq, rfl⟩)
  rw [duplicateNodes_eq]
  refine ((meets_addClones hg hshaped hsel.nodup hnodes hinv hstart).mono (fun _ _ h => h)
    fun _ hno hall => hno (hleaves hall)).bind fun map g1 ⟨h1, hi⟩ => ?_
  have hdomain := h1.isSome_get?_iff hsel
  -- the inputs lead to nodes that are alive
  have halive (q : NodeId × Node) (hq : q ∈ nodes) (y : NodeId)
      (hy : y ∈ claims (map.inputs sameGraph) .inputs q.2) : g1.isAlive y := by
    obtain ⟨t, ht, hty⟩ := mem_claims.1 hy
    cases hnew : map.get? t with
    | some new =>
      have : new = y := by cases sameGraph <;> simpa [Renaming.inputs, hnew] using hty
      exact h1.isAlive_of_get? hrep (this ▸ hnew)
    | none =>
      cases sameGraph with
      | false => simp [Renaming.inputs, hnew] at hty
      | true =>
        obtain rfl : t = y := by simpa [Renaming.inputs, hnew] using hty
        have ha := hinputs rfl q hq t ht
        obtain ⟨m, hm⟩ := Option.isSome_iff_exists.1 (registered_of_isAlive ha)
        rw [(h1.kept t m hm).2, ha]
  have hresolve (q : NodeId × Node) (hq : q ∈ nodes) (v : Option NodeId)
      (hv : v ∈ q.2.slots .inputs) (s : Graph) :
      Meets (v.mapM (mapInput map sameGraph q.1 q.2)) s
        (fun r s' => r = v.bind (map.inputs sameGraph) ∧ s' = s) (fun _ => ¬ ok) := by
    refine (meets_mapInput q.1 v s).mono (fun _ _ h => h.1) ?_
    rintro _ ⟨t, rfl, hnone⟩ hall
    cases sameGraph with
    | true => cases hnone
    | false =>
      have ht : 0 < source.uses .inputs q.1 t := by
        rw [uses_of_node? (hsel.node q hq)]
        exact List.count_pos_iff.2 hv
      have := (hdomain t).2 (hcover hall rfl q.1 t (hcopied q hq) ht)
      rw [show map.get? t = none from hnone] at this
      cases this
  have hround := (meets_connect (d := .inputs) hsel.nodup hnodes (h1.copies hnodes) (fun _ => rfl)
    (fun n => Node.links_copy_none n .inputs) halive
    _ hresolve fun _ hno => absurd (show g1.Claimable .inputs _ from nofun) hno).and
      (meets_connect_resolved (d := .inputs)
        (P := fun v => ∀ t, v = some t → (map.inputs sameGraph t).isSome)
        (fun q hq => (hdomain q.1).2 (.inl (hcopied q hq).1))
        (fun old n v => v.mapM (mapInput map sameGraph old n))
        fun q _ v s => (meets_mapInput q.1 v s).ensures fun _ _ h => h.2)
  refine (hround.mono (fun _ _ h => h) fun _ h => h.1).bind fun _ g2 h2 => ?_
  obtain ⟨⟨hcopies2, hconnect2⟩, hresolved⟩ := h2
  refine (meets_connect (d := .successors) hsel.nodup hnodes hcopies2 (fun _ => rfl)
    (fun n => Node.links_copy_none n .successors) (fun q _ y hy => ?_)
    (fun _ _ v => pure (v.bind map.get?)) (fun _ _ _ _ _ => ⟨rfl, rfl⟩) fun _ hno hall => hno ?_).bind
      fun _ g3 h3 => ?_
  · obtain ⟨t, -, hty⟩ := mem_claims.1 hy
    rw [hconnect2.stays.sameNodes.isAlive]
    exact h1.isAlive_of_get? hrep hty
  · obtain ⟨hnodup, hfree⟩ := hclaim hall map g1 h1 rfl
    exact fun _ => ⟨hnodup, fun y hy => hconnect2.unclaimed y nofun (hfree y hy)⟩
  obtain ⟨hcopies3, hconnect3⟩ := h3
  refine ⟨{
    consistent := hcopies3.consistent
    replaced := fun x y hy => by
      rw [h1.replaced x fun hx => ?_, hy]
      rw [((hsel.mem x).1 hx).2] at hy
      cases hy
    domain := hdomain
    kept := fun x n hn => by
      have hx : g.node? x ≠ none := by simp [hn]
      obtain ⟨hn1, ha1⟩ := h1.kept x n hn
      rw [h1.node?_of_connecting hnodes hconnect3 hx, h1.node?_of_connecting hnodes hconnect2 hx,
        hconnect3.stays.sameNodes.isAlive, hconnect2.stays.sameNodes.isAlive]
      exact ⟨hn1, ha1⟩
    copy := fun x n hx hn => by
      obtain ⟨q, hq, rfl⟩ := List.mem_map.1 ((hsel.mem x).2 hx)
      obtain rfl : q.2 = n := Option.mem_unique (hsel.node q hq) hn
      obtain ⟨new, hnew, ha, hnode⟩ := hcopies3.copy q hq
      obtain ⟨new', hnew', -, -, hfresh⟩ := h1.copy q hq
      obtain rfl : new' = new := Option.mem_unique hnew' hnew
      exact ⟨new', hnew, ha, hnode, fun hs => hfresh (policy.splits_of_not_isShared hs)⟩
    resolved := fun x t hx ht => by
      obtain ⟨q, hq, rfl⟩ := List.mem_map.1 ((hsel.mem x).2 hx)
      rw [uses_of_node? (hsel.node q hq)] at ht
      exact hresolved q hq (some t) (List.count_pos_iff.1 ht) t rfl },
    g1, hi, hconnect2.stays.sameNodes.trans hconnect3.stays.sameNodes⟩

/-- The successors of shared copies can be claimed. -/
theorem Vacant.claimable (hv : Vacant source g ids replacements)
    (hsel : Selects source ids replacements nodes) (hsource : source.Consistent)
    (hrep : ∀ x y, replacements.get? x = some y → g.isAlive y)
    (h : Cloned .shared replacements g map nodes s) :
    s.Claimable .successors (nodes.flatMap fun q => claims map.get? .successors q.2) :=
  h.claimable hsel hsource hrep (fun x t op hx ht hc hop => LeafPolicy.splits_of_not_isShared _
    (hv.copied x t op hx ht hc hop)) hv.replaced hv.apart

/-- Duplicating nodes within a graph, or from another graph, copies the listed nodes that are not
replaced and leaves the graph as it is otherwise. Within a graph an input that is neither copied nor
replaced stays; from another graph there must be none, or duplication fails. Apart from that it fails
only if a successor of a copy cannot be claimed. -/
theorem duplicate_isDuplicate (hg : g.Consistent)
    (hshaped : ∀ x n, g.node? x = some n → n.Shaped) (hnodup : ids.Nodup)
    (hrep : ∀ x y, replacements.get? x = some y → g.isAlive y = true) :
    ((∀ x ∈ ids, g.isAlive x = true) →
      Meets (duplicateInPlace ids replacements) g
        (fun map g' => IsDuplicate g g g' ids replacements map fun t => some ((map.get? t).getD t))
        (fun _ => ¬ (g.LeavesRegistered ∧ Vacant g g ids replacements))) ∧
    ∀ source : Graph, source.Consistent → (∀ x n, source.node? x = some n → n.Shaped) →
      (∀ x ∈ ids, source.isAlive x = true) →
      Meets (addDuplicates ids source replacements) g
        (fun map g' => IsDuplicate source g g' ids replacements map map.get?)
        (fun _ => ¬ (g.LeavesRegistered ∧ Vacant source g ids replacements ∧
          InputsCovered source ids replacements)) ∧
      (¬ InputsCovered source ids replacements →
        ∃ e, addDuplicates ids source replacements g = .error e) := by
  refine ⟨fun halive => ?_, fun source hsource hshaped' halive => ?_⟩
  · obtain ⟨nodes, hsnapshot, hsel⟩ := exists_selects hnodup halive replacements
    have hinputs (q : NodeId × Node) (hq : q ∈ nodes) (t : NodeId) (ht : 0 < q.2.uses .inputs t) :
        g.isAlive t = true := by
      rw [← uses_of_node? (hsel.node q hq)] at ht
      exact hg.isAlive_target ht
    unfold duplicateInPlace
    rw [meets_bind, meets_get, hsnapshot]
    exact (meets_duplicateNodes true (fun _ _ _ => True) hg hshaped hshaped hrep hsel
      (fun _ => hinputs) (fun _ _ _ _ _ _ _ _ => id) trivial (·.1)
      (fun hall _ _ => hall.2.claimable hsel hg hrep) nofun).imp fun _ _ h => h.1
  · obtain ⟨nodes, hsnapshot, hsel⟩ := exists_selects hnodup halive replacements
    have hmeets : Meets (addDuplicates ids source replacements) g
        (fun map g' => IsDuplicate source g g' ids replacements map map.get?)
        (fun _ => ¬ (g.LeavesRegistered ∧ Vacant source g ids replacements ∧
          InputsCovered source ids replacements)) := by
      unfold addDuplicates
      rw [hsnapshot]
      exact (meets_duplicateNodes false (fun _ _ _ => True) hg hshaped hshaped' hrep hsel nofun
        (fun _ _ _ _ _ _ _ _ => id) trivial (·.1)
        (fun hall _ _ => hall.2.1.claimable hsel hsource hrep) fun hall _ => hall.2.2).imp
          fun _ _ h => h.1
    refine ⟨hmeets, fun hno => ?_⟩
    cases hrun : addDuplicates ids source replacements g with
    | error e => exact ⟨e, rfl⟩
    | ok r =>
      have hdup := Ends.of_ok hmeets hrun
      exact absurd (fun x t hx ht => (hdup.domain t).1 (hdup.resolved x t hx ht)) hno

/-- A sum of two constants, and a node with a successor. -/
def sumCalls : List Call :=
  [.intern (.int 3), .intern (.int 4), .intern (.binary .add .int ⟨0⟩ ⟨1⟩), .add (.begin none),
    .add (.begin (some ⟨3⟩))]

/-- All nodes are listed, but one constant is replaced by the other, whose copy is itself. -/
theorem duplicate_isDuplicate_sum : ∃ g, Call.runAll sumCalls (empty "") = .ok ((), g) ∧
    (∃ map g', duplicateInPlace g.nodes (.ofList [(⟨1⟩, ⟨0⟩)]) g = .ok (map, g') ∧
      map.get? ⟨0⟩ = some ⟨0⟩ ∧ g'.node? ⟨5⟩ = some (.binary .add .int ⟨0⟩ ⟨0⟩) ∧
      IsDuplicate g g g' g.nodes (.ofList [(⟨1⟩, ⟨0⟩)]) map fun t => some ((map.get? t).getD t)) ∧
    ∃ map g', addDuplicates g.nodes g (.ofList [(⟨1⟩, ⟨0⟩)]) g = .ok (map, g') ∧
      IsDuplicate g g g' g.nodes (.ofList [(⟨1⟩, ⟨0⟩)]) map map.get? := by
  obtain ⟨⟨_, g⟩, hrun, htest⟩ := exists_ok_of_any (r := Call.runAll sumCalls (empty ""))
    (p := fun r => (r.2.entries.items.all fun e => decide e.node.Shaped) && r.2.isAlive ⟨0⟩ &&
      (duplicateInPlace r.2.nodes (.ofList [(⟨1⟩, ⟨0⟩)]) r.2).toOption.any (fun r' =>
        r'.1.get? ⟨0⟩ == some ⟨0⟩ && r'.2.node? ⟨5⟩ == some (.binary .add .int ⟨0⟩ ⟨0⟩)) &&
      (addDuplicates r.2.nodes r.2 (.ofList [(⟨1⟩, ⟨0⟩)]) r.2).toOption.any fun _ => true)
    (by decide +kernel)
  simp only [Bool.and_eq_true] at htest
  obtain ⟨⟨⟨hall, h₀⟩, hplace⟩, hacross⟩ := htest
  have hg : g.Consistent := Call.consistent_of_runAll (by simp [sumCalls, Call.WiresDeleted]) hrun
  have hshaped := shaped_of_all hall
  have hrep (x y : NodeId) (hy : (Renaming.ofList [(⟨1⟩, ⟨0⟩)]).get? x = some y) :
      g.isAlive y = true := by
    rw [show Renaming.ofList [(⟨1⟩, ⟨0⟩)] = Renaming.empty.insert ⟨1⟩ ⟨0⟩ from rfl, get?_insert] at hy
    split at hy
    · cases hy
      exact h₀
    · cases hy
  have halive (x : NodeId) (hx : x ∈ g.nodes) : g.isAlive x = true := mem_nodes.1 hx
  obtain ⟨hin, hinto⟩ := duplicate_isDuplicate hg hshaped g.nodup_nodes hrep
  obtain ⟨⟨map, g₁⟩, hrun₁, htest₁⟩ := exists_ok_of_any hplace
  obtain ⟨⟨map', g₂⟩, hrun₂, -⟩ := exists_ok_of_any hacross
  simp only [Bool.and_eq_true, beq_iff_eq] at htest₁
  exact ⟨g, hrun, ⟨map, g₁, hrun₁, htest₁.1, htest₁.2, (hin halive).of_ok hrun₁⟩,
    map', g₂, hrun₂, (hinto g hg hshaped halive).1.of_ok hrun₂⟩

end Graph

end SeaOfNodes
