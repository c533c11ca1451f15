import SeaOfNodes.Graph.Register
import SeaOfNodes.Graph.Replace
import SeaOfNodes.Proofs.Graph.View

/-!
# What operations do to a graph

Every operation on edges is made of a few changes, and each of them is described once: one slot is
rewritten with both of its ends (`Rewires`), a node is added (`Adds`), the edges of one direction are
dropped (`Clears`), a node is deleted (`Deletes`). The descriptions say everything that the views
show, and under what conditions the operation cannot fail. They need packed usage lists and nothing
else.
-/

namespace SeaOfNodes.Graph

variable {g g' g'' : Graph} {id x t user : NodeId} {e : Entry} {n n' : Node} {d : Direction}
  {old new : Option NodeId}

/-! ### Usage lists -/

/-- Nodes stay as they are, with their edges. -/
structure KeepsNodes (g g' : Graph) : Prop where
  keeps : Keeps g g'
  node? : ∀ x, g'.node? x = g.node? x
  isAlive : ∀ x, g'.isAlive x = g.isAlive x

theorem KeepsNodes.refl (g : Graph) : KeepsNodes g g := ⟨.refl g, fun _ => rfl, fun _ => rfl⟩

theorem KeepsNodes.trans (h : KeepsNodes g g') (h' : KeepsNodes g' g'') : KeepsNodes g g'' :=
  ⟨h.keeps.trans h'.keeps, fun x => (h'.node? x).trans (h.node? x),
    fun x => (h'.isAlive x).trans (h.isAlive x)⟩

/-- Nothing but usage lists changes, and they stay packed. -/
structure Relists (g g' : Graph) : Prop extends KeepsNodes g g' where
  predecessor? : ∀ x, g'.predecessor? x = g.predecessor? x
  packed : g'.Packed

theorem Relists.refl (h : g.Packed) : Relists g g := ⟨.refl g, fun _ => rfl, h⟩

theorem Relists.trans (h : Relists g g') (h' : Relists g' g'') : Relists g g'' :=
  ⟨h.toKeepsNodes.trans h'.toKeepsNodes, fun x => (h'.predecessor? x).trans (h.predecessor? x), h'.packed⟩

theorem relists_recorded (h : g.Packed) (event : Event) : Relists g (g.recorded event) :=
  ⟨⟨keeps_recorded g event, fun _ => rfl, fun _ => rfl⟩, fun _ => rfl, h⟩

/-- Exchanging one usage list for a packed one. -/
theorem relists_update (hp : g.Packed) {f : Entry → Entry} (hnode : ∀ e, (f e).node = e.node)
    (halive : ∀ e, (f e).alive = e.alive) (hpred : ∀ e, (f e).predecessor = e.predecessor)
    (hpacked : ∀ e, g.get? id = some e → (f e).usages.Packed) : Relists g (g.update id f) :=
  ⟨⟨keeps_update g id f, node?_update hnode, isAlive_update halive⟩, predecessor?_update hpred,
    packed_update hp hpacked⟩

/-- One usage list is exchanged, and the others are as they were. -/
theorem listed_update {f : Entry → Entry} (he : g.get? t = some e) (x u : NodeId) :
    (g.update t f).listed x u = if x = t then (f e).usages.toList.count u else g.listed x u := by
  rw [listed, users, get?_update]
  split
  · subst_vars
    rw [he]
    rfl
  · rfl

theorem meets_addUsage (hp : g.Packed) (t user : NodeId) :
    Meets (addUsage t user) g
      (fun _ g' => Relists g g' ∧
        ∀ x u, g'.listed x u = g.listed x u + if x = t ∧ u = user then 1 else 0)
      (fun _ => g.node? t = none) := by
  rw [addUsage, meets_bind, meets_entry]
  refine ⟨fun e he => ?_, fun h => by simp [node?, h]⟩
  rw [meets_modifyEntry]
  refine ⟨relists_update hp (fun _ => rfl) (fun _ => rfl) (fun _ => rfl) ?_, fun x u => ?_⟩
  · intro e' he'
    exact (hp t e' he').add
  · rw [listed_update he]
    by_cases hx : x = t
    · subst hx
      simp only [if_true, (hp x e he).toList_add, listed, users_of_get? he, List.count_append,
        List.count_singleton, true_and]
      by_cases hu : u = user
      · simp [hu]
      · simp [hu, Ne.symm hu]
    · simp [hx]

theorem meets_removeUsage (hp : g.Packed) (t user : NodeId) :
    Meets (removeUsage t user) g
      (fun b g' => Relists g g' ∧ (b ↔ 0 < g.listed t user) ∧
        ∀ x u, g'.listed x u = g.listed x u - if x = t ∧ u = user then 1 else 0)
      (fun _ => g.node? t = none) := by
  rw [removeUsage, meets_bind, meets_entry]
  refine ⟨fun e he => ?_, fun h => by simp [node?, h]⟩
  have hlisted (u : NodeId) : g.listed t u = e.usages.toList.count u := by
    rw [listed, users_of_get? he]
  cases hr : e.usages.remove? user with
  | none =>
    have hnot := UsageList.remove?_eq_none_iff.1 hr
    simp only [meets_pure]
    refine ⟨.refl hp, ?_, fun x u => ?_⟩
    · rw [hlisted, List.count_pos_iff]
      simp [hnot]
    · split
      · rename_i h
        rw [h.1, h.2, hlisted, List.count_eq_zero.2 hnot]
      · rfl
  | some usages =>
    obtain ⟨hpacked, hperm⟩ := (hp t e he).remove? hr
    have hstep : Relists g (g.update t fun e =>
        { e with usages, usageStamp := e.usageStamp + 1 }) :=
      relists_update hp (fun _ => rfl) (fun _ => rfl) (fun _ => rfl) fun _ _ => hpacked
    have hpos : 0 < g.listed t user := by
      rw [hlisted, hperm.count_eq]; simp
    have hcount : ∀ x u, (g.update t fun e =>
        { e with usages, usageStamp := e.usageStamp + 1 }).listed x u =
        g.listed x u - if x = t ∧ u = user then 1 else 0 := by
      intro x u
      rw [listed_update he]
      by_cases hx : x = t
      · subst hx
        rw [hlisted, hperm.count_eq, List.count_cons]
        by_cases hu : u = user
        · simp [hu]
        · simp [hu, Ne.symm hu]
      · simp [hx]
    simp only [meets_bind, meets_modifyEntry]
    split
    · simp only [meets_bind, meets_record, meets_pure]
      exact ⟨hstep.trans (relists_recorded hstep.packed _), by simpa using hpos, hcount⟩
    · simp only [meets_pure]
      exact ⟨hstep, by simpa using hpos, hcount⟩

theorem ite_occurs_some (t x u user : NodeId) :
    (if u = user then occurs (some t) x else 0) = if x = t ∧ u = user then 1 else 0 := by
  unfold occurs
  by_cases hx : x = t <;> by_cases hu : u = user <;> simp_all [eq_comm]

theorem meets_enterUsage {user : NodeId} {old new : Option NodeId} {fail : Fault → Prop}
    (h1 : Relists g g1)
    (hcount : ∀ x u, g1.listed x u + (if u = user then occurs old x else 0) = g.listed x u)
    (hfail : ∀ e, ¬ (∀ t, new = some t → (g.node? t).isSome) → fail e) :
    Meets (do
      if let some new := new then addUsage new user
      record (.inputChanged user)) g1
      (fun _ g' => Relists g g' ∧ ∀ x u,
        g'.listed x u + (if u = user then occurs old x else 0) =
          g.listed x u + if u = user then occurs new x else 0) fail := by
  cases new with
  | none =>
    simp only [meets_record]
    exact ⟨h1.trans (relists_recorded h1.packed _), fun x u => by simpa using hcount x u⟩
  | some t =>
    simp only [meets_bind, meets_record]
    refine (meets_addUsage h1.packed t user).mono (fun _ g2 h2 => ?_) fun e h => hfail e ?_
    · refine ⟨(h1.trans h2.1).trans (relists_recorded h2.1.packed _), fun x u => ?_⟩
      rw [listed_recorded, h2.2, ← hcount x u, ite_occurs_some]
      omega
    · rw [h1.node?] at h
      simp [h]

theorem meets_updateUsages (hp : g.Packed) (user : NodeId) (old new : Option NodeId) :
    Meets (updateUsages user old new) g
      (fun _ g' => Relists g g' ∧ ∀ x u,
        g'.listed x u + (if u = user then occurs old x else 0) =
          g.listed x u + if u = user then occurs new x else 0)
      (fun _ => ¬ ((∀ o, old = some o → 0 < g.listed o user) ∧
        ∀ t, new = some t → (g.node? t).isSome)) := by
  by_cases h : old = new
  · subst h
    simp only [updateUsages, if_true, meets_pure]
    exact ⟨.refl hp, fun _ _ => trivial⟩
  rw [updateUsages, if_neg h]
  cases old with
  | none => exact meets_enterUsage (.refl hp) (by simp) fun e he => by simpa using he
  | some o =>
    simp only [meets_bind]
    refine (meets_removeUsage hp o user).mono (fun b g1 h1 => ?_) fun e he => ?_
    · obtain ⟨hrel, hb, hcount⟩ := h1
      cases b with
      | true =>
        refine meets_enterUsage hrel (fun x u => ?_) fun e he hn => he hn.2
        rw [hcount, ite_occurs_some]
        have hpos : 0 < g.listed o user := by simpa using hb
        split_ifs with hxu
        · obtain ⟨rfl, rfl⟩ := hxu; omega
        · rfl
      | false =>
        have hno : ¬ ((∀ o', some o = some o' → 0 < g.listed o' user) ∧
            ∀ t, new = some t → (g.node? t).isSome) := fun hn => by simpa using hb.2 (hn.1 o rfl)
        simp only [Bool.false_eq_true, if_false, meets_bind, meets_label, meets_fail]
        exact ⟨fun _ _ => ⟨fun _ _ => hno, fun _ => hno⟩, fun _ => hno⟩
    · intro hn
      have := hn.1 o rfl
      have hu : g.users o = [] := by
        have : g.get? o = none := by simpa [node?] using he
        simp [users, this]
      simp [listed, hu] at this

/-! ### Predecessors -/

/-- Nothing but predecessors changes. -/
structure Repoints (g g' : Graph) : Prop extends KeepsNodes g g' where
  users : ∀ x, g'.users x = g.users x
  packed : g.Packed → g'.Packed

theorem Repoints.refl (g : Graph) : Repoints g g := ⟨.refl g, fun _ => rfl, id⟩

theorem Repoints.trans (h : Repoints g g') (h' : Repoints g' g'') : Repoints g g'' :=
  ⟨h.toKeepsNodes.trans h'.toKeepsNodes, fun x => (h'.users x).trans (h.users x),
    fun hp => h'.packed (h.packed hp)⟩

/-- The graph with another predecessor of one node. -/
def setPredecessor (g : Graph) (id : NodeId) (predecessor : Option NodeId) : Graph :=
  g.update id fun e => { e with predecessor }

theorem repoints_setPredecessor (g : Graph) (id : NodeId) (p : Option NodeId) :
    Repoints g (g.setPredecessor id p) :=
  ⟨⟨keeps_update .., node?_update fun _ => rfl, isAlive_update fun _ => rfl⟩,
    users_update fun _ => rfl, fun hp => packed_update hp fun e he => hp id e he⟩

theorem predecessor?_setPredecessor (h : (g.get? id).isSome) (p : Option NodeId) (x : NodeId) :
    (g.setPredecessor id p).predecessor? x = if x = id then p else g.predecessor? x := by
  rw [setPredecessor, predecessor?, get?_update]
  split
  · subst_vars
    obtain ⟨e, he⟩ := Option.isSome_iff_exists.1 h
    simp [he]
  · rfl

/-- Making a node the predecessor of another one that has none. -/
theorem meets_claim (user t : NodeId) :
    Meets (do
      if let some existing := (← entry t).predecessor then
        Graph.fail (.secondPredecessor (← label t) (← label existing) (← label user))
      modifyEntry t fun e => { e with predecessor := some user }) g
      (fun _ g' => g.predecessor? t = none ∧ (g.node? t).isSome ∧ g' = g.setPredecessor t (some user))
      (fun _ => ¬ ((g.node? t).isSome ∧ g.predecessor? t = none)) := by
  simp only [meets_bind, meets_entry]
  refine ⟨fun e he => ?_, fun hnone h => by simp [node?, hnone] at h⟩
  have hp := predecessor?_of_get? he
  cases hpe : e.predecessor with
  | none =>
    simp only [meets_modifyEntry]
    exact ⟨hp.trans hpe, by simp [node?, he], rfl⟩
  | some existing =>
    have hno : ¬ ((g.node? t).isSome ∧ g.predecessor? t = none) := by simp [hp, hpe]
    simp only [meets_bind, meets_label, meets_fail]
    exact ⟨fun _ _ => ⟨fun _ _ => ⟨fun _ _ => hno, fun _ => hno⟩, fun _ => hno⟩, fun _ => hno⟩

/-- A successor slot of `user` changes from `old` to `new`, as far as predecessors tell. -/
structure Redirects (g g' : Graph) (user : NodeId) (old new : Option NodeId) : Prop where
  repoints : Repoints g g'
  old_pred : old ≠ new → ∀ o, old = some o → g.predecessor? o = some user
  new_pred : old ≠ new → ∀ t, new = some t → g.predecessor? t = none
  predecessor? : ∀ x, g'.predecessor? x =
    if old = new then g.predecessor? x
    else if new = some x then some user
    else if old = some x then none else g.predecessor? x

/-- The new successor is claimed after the old one is released. -/
theorem redirects_setPredecessor {g1 : Graph} (h : old ≠ some t) (h1 : Repoints g g1)
    (hold : ∀ o, old = some o → g.predecessor? o = some user)
    (hpred : ∀ x, g1.predecessor? x = if old = some x then none else g.predecessor? x)
    (hnone : g1.predecessor? t = none) (hsome : (g1.node? t).isSome) :
    Redirects g (g1.setPredecessor t (some user)) user old (some t) where
  repoints := h1.trans (repoints_setPredecessor ..)
  old_pred _ := hold
  new_pred _ := by
    rintro _ ⟨⟩
    rwa [hpred, if_neg h] at hnone
  predecessor? x := by
    rw [predecessor?_setPredecessor (by simpa [node?] using hsome), if_neg h, hpred]
    by_cases hx : x = t
    · simp [hx]
    · simp [hx, Ne.symm hx]

theorem meets_updatePredecessor (user : NodeId) (old new : Option NodeId) :
    Meets (updatePredecessor user old new) g
      (fun _ g' => Redirects g g' user old new)
      (fun _ => ¬ (old = new ∨ (∀ o, old = some o → g.predecessor? o = some user) ∧
        ∀ t, new = some t → (g.node? t).isSome ∧ g.predecessor? t = none)) := by
  by_cases h : old = new
  · subst h
    simp only [updatePredecessor, if_true, meets_pure]
    exact ⟨.refl g, by simp, by simp, by simp⟩
  unfold updatePredecessor
  rw [if_neg h]
  cases old with
  | none =>
    cases new with
    | none => exact absurd rfl h
    | some t =>
      refine (meets_claim user t).mono (fun _ g2 h2 => ?_) fun e he (hn : _ ∨ _) =>
        he ((hn.resolve_left h).2 t rfl)
      obtain ⟨hnone, hsome, rfl⟩ := h2
      exact redirects_setPredecessor h (.refl g) (by simp) (by simp) hnone hsome
  | some o =>
    simp only [meets_bind, meets_entry]
    have hno (h' : g.predecessor? o ≠ some user) : ¬ (some o = new ∨
        (∀ o', some o = some o' → g.predecessor? o' = some user) ∧
        ∀ t, new = some t → (g.node? t).isSome ∧ g.predecessor? t = none) := fun hn =>
      h' ((hn.resolve_left h).1 o rfl)
    refine ⟨fun e he => ?_, fun hnone => hno (by simp [predecessor?, hnone])⟩
    have hp := predecessor?_of_get? he
    by_cases hpe : e.predecessor = some user
    · simp only [hpe, ne_eq, not_true_eq_false, if_false, meets_bind, meets_modifyEntry]
      have h1 := repoints_setPredecessor g o none
      have hpred (x : NodeId) : (g.setPredecessor o none).predecessor? x =
          if some o = some x then none else g.predecessor? x := by
        rw [predecessor?_setPredecessor (by simp [he])]
        by_cases hx : x = o
        · simp [hx]
        · simp [hx, Ne.symm hx]
      have hold : ∀ o', some o = some o' → g.predecessor? o' = some user := by
        rintro _ ⟨⟩; rw [hp, hpe]
      cases new with
      | none =>
        exact ⟨h1, fun _ => hold, by simp, fun x => (hpred x).trans (by simp)⟩
      | some t =>
        refine (meets_claim user t).mono (fun _ g2 h2 => ?_) fun e he (hn : _ ∨ _) => he ?_
        · obtain ⟨hnone, hsome, rfl⟩ := h2
          exact redirects_setPredecessor h h1 hold hpred hnone hsome
        · have := (hn.resolve_left h).2 t rfl
          exact ⟨(congrArg Option.isSome (h1.node? t)).trans this.1,
            (hpred t).trans (by rw [if_neg h]; exact this.2)⟩
    · simp only [hpe, ne_eq, not_false_eq_true, if_true, meets_bind, meets_label, meets_fail]
      have := hno (by rwa [hp])
      exact ⟨fun _ _ => ⟨fun _ _ => this, fun _ => this⟩, fun _ => this⟩

/-! ### Rewriting a slot -/

/-- The graph with the edges of one node exchanged and nothing else. -/
def withNode (g : Graph) (id : NodeId) (n : Node) : Graph :=
  g.update id fun e => { e with node := n, edgeStamp := e.edgeStamp + 1 }

theorem meets_writeNode {post : PUnit → Graph → Prop} {fail : Fault → Prop} :
    Meets (writeNode id n) g post fail ↔ post ⟨⟩ (g.withNode id n) := Iff.rfl

theorem node?_withNode (h : (g.node? id).isSome) (x : NodeId) :
    (g.withNode id n).node? x = if x = id then some n else g.node? x := by
  rw [withNode, node?, get?_update]
  split
  · subst_vars
    obtain ⟨e, he⟩ := Option.isSome_iff_exists.1 (Option.isSome_map.symm.trans h)
    simp [he]
  · rfl

theorem isAlive_withNode (g : Graph) (id : NodeId) (n : Node) (x : NodeId) :
    (g.withNode id n).isAlive x = g.isAlive x := by
  rw [withNode, isAlive_update]
  exact fun _ => rfl

theorem users_withNode (g : Graph) (id : NodeId) (n : Node) (x : NodeId) :
    (g.withNode id n).users x = g.users x := by
  rw [withNode, users_update]
  exact fun _ => rfl

theorem predecessor?_withNode (g : Graph) (id : NodeId) (n : Node) (x : NodeId) :
    (g.withNode id n).predecessor? x = g.predecessor? x := by
  rw [withNode, predecessor?_update]
  exact fun _ => rfl

theorem packed_withNode (hp : g.Packed) : (g.withNode id n).Packed :=
  packed_update hp fun e he => hp id e he

theorem isSome_node?_withNode (hn : g.node? id = some n) (n' : Node) (x : NodeId) :
    ((g.withNode id n').node? x).isSome = (g.node? x).isSome := by
  rw [node?_withNode (by simp [hn]), isSome_ite_node? hn]

/-- The node `n` of `id` becomes `n'`, and every other node stays as it is. -/
structure Writes (g g' : Graph) (id : NodeId) (n n' : Node) : Prop where
  keeps : Keeps g g'
  node : g.node? id = some n
  node? : ∀ x, g'.node? x = if x = id then some n' else g.node? x
  isAlive : ∀ x, g'.isAlive x = g.isAlive x

/-- A node is written, and then the books of other nodes are. -/
theorem writes_withNode (hn : g.node? id = some n) (h : KeepsNodes (g.withNode id n') g') :
    Writes g g' id n n' where
  keeps := (keeps_update ..).trans h.keeps
  node := hn
  node? x := (h.node? x).trans (node?_withNode (by simp [hn]) x)
  isAlive x := (h.isAlive x).trans (isAlive_withNode ..)

/-- The node `n` of `id` becomes `n'`, which holds `new` in place of `old` in a slot of one
direction; both ends of the edge are kept. -/
structure Rewires (g g' : Graph) (id : NodeId) (d : Direction) (n n' : Node)
    (old new : Option NodeId) : Prop extends Writes g g' id n n' where
  listed : ∀ x u,
    g'.listed x u + (if d = .inputs ∧ u = id then occurs old x else 0) =
      g.listed x u + if d = .inputs ∧ u = id then occurs new x else 0
  old_pred : d = .successors → old ≠ new → ∀ o, old = some o → g.predecessor? o = some id
  new_pred : d = .successors → old ≠ new → ∀ t, new = some t → g.predecessor? t = none
  predecessor? : ∀ x, g'.predecessor? x =
    if d = .inputs ∨ old = new then g.predecessor? x
    else if new = some x then some id
    else if old = some x then none else g.predecessor? x
  packed : g'.Packed

/-- The other end of an edge can be kept: what goes was entered there, and what comes is there to
be entered. -/
def CanRewire (g : Graph) (id : NodeId) (d : Direction) (old new : Option NodeId) : Prop :=
  match d with
  | .inputs => (∀ o, old = some o → 0 < g.listed o id) ∧ ∀ t, new = some t → (g.node? t).isSome
  | .successors => old = new ∨ (∀ o, old = some o → g.predecessor? o = some id) ∧
      ∀ t, new = some t → (g.node? t).isSome ∧ g.predecessor? t = none

theorem meets_rewire (hp : g.Packed) (hn : g.node? id = some n) (n' : Node) (d : Direction)
    (old new : Option NodeId) :
    Meets (do writeNode id n'; updateOtherEnd d id old new) g
      (fun _ g' => Rewires g g' id d n n' old new)
      (fun _ => ¬ g.CanRewire id d old new) := by
  simp only [meets_bind, meets_writeNode]
  cases d with
  | inputs =>
    refine (meets_updateUsages (packed_withNode hp) id old new).mono (fun _ g' h => ?_)
      fun e he hc => he ⟨fun o ho => ?_, fun t ht => ?_⟩
    · obtain ⟨hrel, hcount⟩ := h
      exact { writes_withNode hn hrel.toKeepsNodes with
        listed := fun x u => by
          have := hcount x u
          simp only [Graph.listed, users_withNode] at this
          simpa [Graph.listed] using this
        old_pred := by simp
        new_pred := by simp
        predecessor? := fun x => by
          simpa using (hrel.predecessor? x).trans (predecessor?_withNode ..)
        packed := hrel.packed }
    · simpa [Graph.listed, users_withNode] using hc.1 o ho
    · rw [isSome_node?_withNode hn]; exact hc.2 t ht
  | successors =>
    refine (meets_updatePredecessor id old new).mono (fun _ g' h => ?_)
      fun e he hc => he (hc.imp_right fun h => ⟨fun o ho => ?_, fun t ht => ?_⟩)
    · exact { writes_withNode hn h.repoints.toKeepsNodes with
        listed := fun x u => by
          simp [Graph.listed, h.repoints.users, users_withNode]
        old_pred := fun _ hne o ho => by
          rw [← h.old_pred hne o ho, predecessor?_withNode]
        new_pred := fun _ hne t ht => by
          rw [← h.new_pred hne t ht, predecessor?_withNode]
        predecessor? := fun x => by
          simpa [predecessor?_withNode] using h.predecessor? x
        packed := h.repoints.packed (packed_withNode hp) }
    · rw [predecessor?_withNode]; exact h.1 o ho
    · rw [isSome_node?_withNode hn, predecessor?_withNode]; exact h.2 t ht

theorem meets_requireAlive? {wiring : Wiring} {value : Option NodeId} :
    Meets (requireAlive? wiring value) g (fun _ g' => g' = g ∧ ∀ v, value = some v → g.isAlive v)
      (fun _ => ¬ ∀ v, value = some v → g.isAlive v) := by
  cases value with
  | none => exact ⟨rfl, by simp⟩
  | some v =>
    refine meets_requireAlive.2 ⟨fun h => ⟨rfl, by simpa using h⟩, fun n _ h => ?_, fun h => ?_⟩
    · simpa using h
    · have : g.get? v = none := by simpa [node?] using h
      simp [isAlive, this]

theorem meets_setEdge (hp : g.Packed) (id : NodeId) (p : Position) (value : Option NodeId) :
    Meets (setEdge id p value) g
      (fun old g' => ∃ n n', n.put p value = .ok n' ∧ old = n.get p ∧
        (∀ v, value = some v → g.isAlive v) ∧ Rewires g g' id p.direction n n' old value)
      (fun _ => ¬ ((∀ v, value = some v → g.isAlive v) ∧
        ∃ n n', g.node? id = some n ∧ n.put p value = .ok n' ∧
          g.CanRewire id p.direction (n.get p) value)) := by
  unfold setEdge
  refine meets_bind.2 (meets_requireAlive?.mono (fun _ g1 h1 => ?_) fun e he h => he h.1)
  obtain ⟨rfl, halive⟩ := h1
  refine meets_bind.2 (meets_node.2 ⟨fun n hn => ?_, fun hnone => ?_⟩)
  · rw [meets_bind, meets_lift]
    cases hput : n.put p value with
    | error e =>
      rintro ⟨-, n1, n', hn1, hput', -⟩
      obtain rfl : n = n1 := Option.mem_unique hn hn1
      rw [hput] at hput'
      cases hput'
    | ok n' =>
      rw [ends_ok, ← bind_assoc]
      refine meets_bind.2 ((meets_rewire hp hn n' p.direction (n.get p) value).mono
        (fun _ g' h => ?_) fun e he h => ?_)
      · exact ⟨n, n', hput, rfl, halive, h⟩
      · obtain ⟨-, n1, n2, hn1, -, hc⟩ := h
        obtain rfl : n = n1 := Option.mem_unique hn hn1
        exact he hc
  · rintro ⟨-, n, n', hn, -⟩
    rw [hnone] at hn
    cases hn

theorem meets_fieldIndex {name : String} {post : Nat → Graph → Prop} {fail : Fault → Prop} :
    Meets (fieldIndex id d name) g post fail ↔
      (∀ n, g.node? id = some n →
        (∀ field, n.layout.fieldIndex? d name = some field → post field g) ∧
        (n.layout.fieldIndex? d name = none → fail (.noFieldNamed n.cls d name))) ∧
      (g.node? id = none → fail .outOfRange) := by
  rw [fieldIndex, meets_bind, meets_node]
  refine and_congr_left' (forall₂_congr fun n hn => ?_)
  cases n.layout.fieldIndex? d name <;> simp

theorem meets_next? {post : Option NodeId → Graph → Prop} {fail : Fault → Prop} :
    Meets (next? id) g post fail ↔
      (∀ n, g.node? id = some n →
        (∀ field, n.layout.fieldIndex? .successors "next" = some field →
          post (n.get (Position.of .successors field 0)) g) ∧
        (n.layout.fieldIndex? .successors "next" = none →
          fail (.noFieldNamed n.cls .successors "next"))) ∧
      (g.node? id = none → fail .outOfRange) := by
  rw [next?, meets_bind, meets_fieldIndex]
  refine and_congr_left' (forall₂_congr fun n hn => and_congr_left' (forall₂_congr fun field _ => ?_))
  rw [meets_bind, meets_node, hn]
  simp

theorem meets_pushEdge (hp : g.Packed) (id : NodeId) (d : Direction) (name : String)
    (value : Option NodeId) :
    Meets (pushEdge id d name value) g
      (fun p g' => ∃ n n' field, n.layout.fieldIndex? d name = some field ∧
        n.push d field value = .ok (p, n') ∧
        (∀ v, value = some v → g.isAlive v) ∧ Rewires g g' id d n n' none value)
      (fun _ => ¬ ((∀ v, value = some v → g.isAlive v) ∧
        ∃ n field r, g.node? id = some n ∧ n.layout.fieldIndex? d name = some field ∧
          n.push d field value = .ok r ∧ g.CanRewire id d none value)) := by
  unfold pushEdge
  refine meets_bind.2 (meets_requireAlive?.mono (fun _ g1 h1 => ?_) fun e he h => he h.1)
  obtain ⟨rfl, halive⟩ := h1
  refine meets_bind.2 (meets_fieldIndex.2 ⟨fun n hn => ⟨fun field hf => ?_, fun hnone => ?_⟩,
    fun hnone => ?_⟩)
  · refine meets_bind.2 (meets_node.2 ⟨fun n1 hn1 => ?_, fun hnone => by simp [hn] at hnone⟩)
    obtain rfl : n = n1 := Option.mem_unique hn hn1
    rw [meets_bind, meets_lift]
    cases hpush : n.push d field value with
    | error e =>
      rintro ⟨-, n1, field1, r, hn1, hf1, hpush', -⟩
      obtain rfl : n = n1 := Option.mem_unique hn hn1
      obtain rfl : field = field1 := Option.mem_unique hf hf1
      rw [hpush] at hpush'
      cases hpush'
    | ok r =>
      obtain ⟨p, n'⟩ := r
      simp only [ends_ok]
      rw [← bind_assoc]
      refine meets_bind.2 ((meets_rewire hp hn n' d none value).mono
        (fun _ g' h => ⟨n, n', field, hf, hpush, halive, h⟩) fun e he h => ?_)
      obtain ⟨-, -, -, -, -, -, -, hc⟩ := h
      exact he hc
  · rintro ⟨-, n1, field, r, hn1, hf, -⟩
    obtain rfl : n = n1 := Option.mem_unique hn hn1
    rw [hnone] at hf
    cases hf
  · rintro ⟨-, n, field, r, hn, -⟩
    rw [hnone] at hn
    cases hn

/-- Appending to a list of inputs cannot fail if the new node is there. -/
theorem meets_pushEdge_list (hp : g.Packed) (hn : g.node? id = some n) {name : String} {field : Nat}
    (hfield : n.layout.fieldIndex? .inputs name = some field) {xs : List (Option NodeId)}
    (hxs : n.inputs[field]? = some (.many xs)) (ht : g.isAlive t) :
    Meets (pushEdge id .inputs name (some t)) g
      (fun _ g' => ∃ n', n' = { n with inputs := n.inputs.set field (.many (xs ++ [some t])) } ∧
        n.Edit n' .inputs field none (some t) ∧ Rewires g g' id .inputs n n' none (some t))
      (fun _ => False) := by
  have hpush : n.push .inputs field (some t) = .ok (Position.of .inputs field xs.length,
      { n with inputs := n.inputs.set field (.many (xs ++ [some t])) }) := by
    rw [Node.push, show n.links .inputs = n.inputs from rfl, hxs]
    rfl
  refine (meets_pushEdge hp id .inputs name (some t)).mono (fun p g' h => ?_) fun e he => ?_
  · obtain ⟨m, n', f, hf, hpush', -, hr⟩ := h
    obtain rfl : n = m := Option.mem_unique hn hr.node
    obtain rfl : field = f := Option.mem_unique hfield hf
    exact ⟨n', (Prod.mk.inj (Except.ok.inj (hpush'.symm.trans hpush))).2, Node.edit_of_push hpush', hr⟩
  · obtain ⟨m, hm⟩ := exists_node?_of_isAlive ht
    exact he ⟨by simpa using ht, n, field, _, hn, hfield, hpush, by simp, by simp [hm]⟩

theorem meets_dropEdge (hp : g.Packed) (id : NodeId) (p : Position) :
    Meets (dropEdge id p) g
      (fun old g' => ∃ n, old = (n.removeAt p).1 ∧
        Rewires g g' id p.direction n (n.removeAt p).2 old none)
      (fun _ => ¬ ∃ n, g.node? id = some n ∧ g.CanRewire id p.direction (n.removeAt p).1 none) := by
  unfold dropEdge
  refine meets_bind.2 (meets_node.2 ⟨fun n hn => ?_, fun hnone => by simp [hnone]⟩)
  simp only
  rw [← bind_assoc]
  refine meets_bind.2 ((meets_rewire hp hn (n.removeAt p).2 p.direction (n.removeAt p).1 none).mono
    (fun _ g' h => ⟨n, rfl, h⟩) fun e he h => ?_)
  obtain ⟨n1, hn1, hc⟩ := h
  obtain rfl : n = n1 := Option.mem_unique hn hn1
  exact he hc

theorem meets_replaceFirstInput (hp : g.Packed) (id o : NodeId) (new : Option NodeId) :
    Meets (replaceFirstInput id o new) g
      (fun b g' => (∀ v, new = some v → g.isAlive v) ∧
        ∃ n, g.node? id = some n ∧ ((b = false ∧ g' = g ∧ n.uses .inputs o = 0) ∨
        (b ∧ ∃ n', n.replaceFirst .inputs o new = some n' ∧
          Rewires g g' id .inputs n n' (some o) new)))
      (fun _ => ¬ ((∀ v, new = some v → g.isAlive v) ∧ (g.node? id).isSome ∧
        (0 < g.uses .inputs id o → 0 < g.listed o id))) := by
  unfold replaceFirstInput
  refine meets_bind.2 (meets_requireAlive?.mono (fun _ g1 h1 => ?_) fun e he h => he h.1)
  obtain ⟨rfl, halive⟩ := h1
  refine meets_bind.2 (meets_node.2 ⟨fun n hn => ?_, fun hnone => by simp [hnone]⟩)
  cases hr : n.replaceFirst .inputs o new with
  | none =>
    exact ⟨halive, n, hn, .inl ⟨rfl, rfl, Node.replaceFirst_eq_none.1 hr⟩⟩
  | some n' =>
    simp only
    rw [← bind_assoc]
    refine meets_bind.2 ((meets_rewire hp hn n' .inputs (some o) new).mono
      (fun _ g' h => ⟨halive, n, hn, .inr ⟨rfl, n', hr, h⟩⟩) fun e he h => he ⟨?_, ?_⟩)
    · rintro _ ⟨⟩
      apply h.2.2
      rw [uses_of_node? hn, ← Node.replaceFirst_isSome new, hr]
      rfl
    · rintro t rfl
      obtain ⟨nt, hnt⟩ := exists_node?_of_isAlive (halive t rfl)
      simp [hnt]

theorem meets_replaceFirstSuccessor (hp : g.Packed) (id o : NodeId) (new : Option NodeId) :
    Meets (replaceFirstSuccessor id o new) g
      (fun b g' => ∃ n, g.node? id = some n ∧ ((b = false ∧ g' = g ∧ n.uses .successors o = 0) ∨
        (b ∧ ∃ n', n.replaceFirst .successors o new = some n' ∧
          Rewires g g' id .successors n n' (some o) new)))
      (fun _ => ¬ ((g.node? id).isSome ∧
        (0 < g.uses .successors id o → g.CanRewire id .successors (some o) new))) := by
  unfold replaceFirstSuccessor
  refine meets_bind.2 (meets_node.2 ⟨fun n hn => ?_, fun hnone => by simp [hnone]⟩)
  cases hr : n.replaceFirst .successors o new with
  | none => exact ⟨n, hn, .inl ⟨rfl, rfl, Node.replaceFirst_eq_none.1 hr⟩⟩
  | some n' =>
    simp only
    rw [← bind_assoc]
    refine meets_bind.2 ((meets_rewire hp hn n' .successors (some o) new).mono
      (fun _ g' h => ⟨n, hn, .inr ⟨rfl, n', hr, h⟩⟩) fun e he h => he (h.2 ?_))
    rw [uses_of_node? hn, ← Node.replaceFirst_isSome new, hr]
    rfl

/-! ### Dropping edges -/

theorem exists_node?_of_uses (h : 0 < g.uses d id t) : ∃ n, g.node? id = some n ∧ 0 < n.uses d t := by
  cases hn : g.node? id with
  | none => simp [uses, hn] at h
  | some n => exact ⟨n, rfl, by rwa [uses_of_node? hn] at h⟩

/-- What a node refers to is there, also while its edges are dropped. -/
theorem registered_withNode (hn : g.node? id = some n) (n' : Node) (ht : t ∈ n.targets d)
    (h : ∀ t, 0 < g.uses d id t → (g.node? t).isSome) : ((g.withNode id n').node? t).isSome := by
  rw [isSome_node?_withNode hn]
  exact h t (by rwa [uses_of_node? hn, ← Node.mem_targets])

/-- The node of `id` loses its edges of one direction, and they are kept at no other end. -/
structure Clears (g g' : Graph) (id : NodeId) (d : Direction) (n : Node) : Prop
    extends Writes g g' id n (n.clear d) where
  listed : ∀ x u, g'.listed x u = g.listed x u - if d = .inputs ∧ u = id then n.uses .inputs x else 0
  predecessor? : ∀ x, g'.predecessor? x =
    if d = .successors ∧ 0 < n.uses .successors x then none else g.predecessor? x
  packed : g'.Packed

theorem meets_clearInputs (hp : g.Packed) (id : NodeId) :
    Meets (clearInputs id) g (fun _ g' => ∃ n, Clears g g' id .inputs n)
      (fun _ => ¬ ((g.node? id).isSome ∧ ∀ t, 0 < g.uses .inputs id t → (g.node? t).isSome)) := by
  unfold clearInputs
  refine meets_bind.2 (meets_node.2 ⟨fun n hn => ?_, fun h => by simp [h]⟩)
  rw [meets_bind, meets_writeNode]
  -- the entries of the inputs that were passed are gone
  refine (Meets.forIn_passed (fun done s => Relists (g.withNode id (n.clear .inputs)) s ∧
      ∀ x u, s.listed x u = g.listed x u - if u = id then done.count x else 0)
    ⟨.refl (packed_withNode hp), fun x u => by simp [listed, users_withNode]⟩
    fun t done rest s hdone ⟨hrel, hlisted⟩ => ?_).bind fun _ g' ⟨hrel, hlisted⟩ => ?_
  · refine meets_bind.2 ((meets_removeUsage hrel.packed t id).mono (fun b s' h => ?_) fun e he h => ?_)
    · refine ⟨rfl, hrel.trans h.1, fun x u => ?_⟩
      rw [h.2.2, hlisted, List.count_append, List.count_singleton]
      by_cases hu : u = id <;> by_cases hx : x = t <;> simp [hu, hx, Ne.symm]; omega
    · have hreg := registered_withNode (t := t) hn (n.clear .inputs) (by simp [hdone]) h.2
      rw [← hrel.node?, he] at hreg
      cases hreg
  · exact ⟨n, { writes_withNode hn hrel.toKeepsNodes with
      listed := fun x u => by simp [hlisted, Node.count_targets]
      predecessor? := fun x => by simpa using (hrel.predecessor? x).trans (predecessor?_withNode ..)
      packed := hrel.packed }⟩

theorem meets_clearSuccessors (hp : g.Packed) (id : NodeId) :
    Meets (clearSuccessors id) g (fun _ g' => ∃ n, Clears g g' id .successors n)
      (fun _ => ¬ ((g.node? id).isSome ∧ ∀ t, 0 < g.uses .successors id t → (g.node? t).isSome)) := by
  unfold clearSuccessors
  refine meets_bind.2 (meets_node.2 ⟨fun n hn => ?_, fun h => by simp [h]⟩)
  rw [meets_bind, meets_writeNode]
  refine (Meets.forIn_passed (fun done s => Repoints (g.withNode id (n.clear .successors)) s ∧
      ∀ x, s.predecessor? x = if x ∈ done then none else g.predecessor? x)
    ⟨.refl _, fun x => by simp [predecessor?_withNode]⟩
    fun t done rest s hdone ⟨hrel, hpred⟩ => ?_).bind fun _ g' ⟨hrel, hpred⟩ => ?_
  · refine meets_bind.2 (meets_entry.2 ⟨fun e he => ?_, fun he h => ?_⟩)
    · rw [meets_bind, meets_modifyEntry]
      refine ⟨rfl, hrel.trans (repoints_setPredecessor s t none), fun x => ?_⟩
      refine (predecessor?_setPredecessor (by simp [he]) none x).trans ?_
      rw [hpred]
      by_cases hx : x = t <;> simp [hx]
    · have hreg := registered_withNode (t := t) hn (n.clear .successors) (by simp [hdone]) h.2
      rw [← hrel.node?, node?, he] at hreg
      cases hreg
  · exact ⟨n, { writes_withNode hn hrel.toKeepsNodes with
      listed := fun x u => by simp [listed, hrel.users, users_withNode]
      predecessor? := fun x => by simp [hpred, Node.mem_targets]
      packed := hrel.packed (packed_withNode hp) }⟩

/-! ### Deleting -/

/-- The node of `id`, to which nothing refers, is deleted with its edges. -/
structure Deletes (g g' : Graph) (id : NodeId) (n : Node) : Prop where
  keeps : KeepsLists g g'
  deletedCount : g'.deletedCount = g.deletedCount + 1
  node : g.node? id = some n
  alive : g.isAlive id = true
  unused : g.users id = []
  unpreceded : g.predecessor? id = none
  node? : ∀ x, g'.node? x = if x = id then some ((n.clear .inputs).clear .successors) else g.node? x
  isAlive : ∀ x, g'.isAlive x = if x = id then false else g.isAlive x
  listed : ∀ x u, g'.listed x u = g.listed x u - if u = id then n.uses .inputs x else 0
  predecessor? : ∀ x, g'.predecessor? x =
    if 0 < n.uses .successors x then none else g.predecessor? x
  packed : g'.Packed

/-- A node can be deleted: nothing refers to it, and what it refers to is there. -/
structure CanDelete (g : Graph) (id : NodeId) : Prop where
  alive : g.isAlive id = true
  unused : g.users id = []
  unpreceded : g.predecessor? id = none
  registered : ∀ d t, 0 < g.uses d id t → (g.node? t).isSome

/-- The graph with one node marked as deleted. -/
def marked (g : Graph) (id : NodeId) (cls : NodeClass) : Graph :=
  let g := g.update id fun e => { e with alive := false }
  let list := g.classes.get cls.index
  { g.withList cls { list with stale := list.stale + 1 } with deletedCount := g.deletedCount + 1 }

theorem get?_marked (g : Graph) (id : NodeId) (cls : NodeClass) (x : NodeId) :
    (g.marked id cls).get? x =
      if x = id then (g.get? x).map fun e => { e with alive := false } else g.get? x :=
  get?_update g id _ x

theorem keeps_marked (g : Graph) (id : NodeId) (cls : NodeClass) : KeepsLists g (g.marked id cls) where
  name := rfl
  bound := bound_update ..
  idsOf c := by
    show ((g.classes.set cls.index.val _)[c.index.val]).ids = g.classes[c.index.val].ids
    rw [Vector.getElem_set]
    split
    · rename_i h
      show (g.classes[cls.index.val]).ids = _
      simp only [h]
    · rfl
  leaves := rfl

theorem meets_unregister {post : PUnit → Graph → Prop} {fail : Fault → Prop}
    (hn : g.node? id = some n) :
    Meets (unregister id) g post fail ↔ post ⟨⟩ (g.marked id n.cls) := by
  unfold unregister
  rw [meets_bind, meets_node, hn]
  simp only [Option.some.injEq, forall_eq', reduceCtorEq, false_implies, and_true, meets_bind,
    meets_modifyEntry, meets_modify]
  rfl

/-- Dropping all edges of a node and marking it is deleting it. -/
theorem deletes_of_clears {g1 g2 : Graph} {m : Node} (h1 : Clears g g1 id .inputs n)
    (h2 : Clears g1 g2 id .successors m) (halive : g.isAlive id) (hu : g.users id = [])
    (hpred : g.predecessor? id = none) :
    Deletes g (g2.marked id (m.clear .successors).cls) id n := by
  obtain rfl : n.clear .inputs = m := by
    have := h2.node
    rw [h1.node?, if_pos rfl] at this
    exact Option.some.inj this
  let mark (e : Entry) : Entry := { e with alive := false }
  exact {
    keeps := (h1.keeps.trans h2.keeps).toKeepsLists.trans (keeps_marked ..)
    deletedCount := congrArg (· + 1) (h1.keeps.trans h2.keeps).deletedCount
    node := h1.node
    alive := halive
    unused := hu
    unpreceded := hpred
    node? := fun x => by
      refine (node?_update (f := mark) (fun _ => rfl) x).trans ?_
      rw [h2.node?]
      split
      · rfl
      · rw [h1.node?, if_neg ‹_›]
    isAlive := fun x => by
      rw [← h1.isAlive, ← h2.isAlive, isAlive, get?_marked, isAlive]
      split
      · cases g2.get? x <;> rfl
      · rfl
    listed := fun x u => by
      refine (congrArg (List.count u) (users_update (f := mark) (fun _ => rfl) x)).trans ?_
      exact (h2.listed x u).trans (by simp [h1.listed])
    predecessor? := fun x => by
      refine (predecessor?_update (f := mark) (fun _ => rfl) x).trans ?_
      simpa [h1.predecessor?, Node.uses_clear_of_ne] using h2.predecessor? x
    packed := packed_update (f := mark) h2.packed fun e he => h2.packed id e he }

theorem meets_delete (hp : g.Packed) (id : NodeId) :
    Meets (delete id) g (fun _ g' => ∃ n, Deletes g g' id n) (fun _ => ¬ g.CanDelete id) := by
  unfold delete
  refine meets_bind.2 (meets_requireAlive.2 ⟨fun halive => ?_, fun _ _ h hc => ?_, fun h hc => ?_⟩)
  · refine meets_bind.2 (meets_entry.2 ⟨fun e he => ?_, fun he hc => ?_⟩)
    · have husers := users_of_get? he
      have hsize : e.usages.size = (g.users id).length := by rw [husers, (hp id e he).size]
      by_cases hu : g.users id = []
      · simp only [hsize, hu, List.length_nil, ne_eq, not_true_eq_false, if_false]
        cases hpe : e.predecessor with
        | some p =>
          have hno : ¬ g.CanDelete id := fun hc => by
            simpa [predecessor?_of_get? he, hpe] using hc.unpreceded
          simp only [meets_bind, meets_label, meets_fail]
          exact ⟨fun _ _ => hno, fun _ => hno⟩
        | none =>
          have hpred : g.predecessor? id = none := by rw [predecessor?_of_get? he, hpe]
          refine meets_bind.2 ((meets_clearInputs hp id).mono (fun _ g1 h1 => ?_) fun _ hno hc =>
            hno ⟨by simp [node?_of_get? he], fun t => hc.registered .inputs t⟩)
          obtain ⟨n, h1⟩ := h1
          refine meets_bind.2 ((meets_clearSuccessors h1.packed id).mono (fun _ g2 h2 => ?_) fun _ hno hc =>
            hno ⟨by simp [h1.node?], fun t ht => ?_⟩)
          · obtain ⟨m, h2⟩ := h2
            have hm : g2.node? id = some (m.clear .successors) := by simp [h2.node?]
            rw [meets_unregister hm]
            exact ⟨n, deletes_of_clears h1 h2 halive hu hpred⟩
          · have hm : g1.node? id = some (n.clear .inputs) := by simp [h1.node?]
            rw [uses_of_node? hm, Node.uses_clear_of_ne (by simp), ← uses_of_node? h1.node] at ht
            rw [h1.node?]
            split
            · rfl
            · exact hc.registered _ t ht
      · have hlen : ¬ (g.users id).length = 0 := by simpa using hu
        simp only [hsize, ne_eq, hlen, not_false_eq_true, if_true, meets_bind, meets_fail]
        exact fun hc => hu hc.unused
    · have := hc.alive
      simp [isAlive, he] at this
  · simp [hc.alive] at h
  · obtain ⟨n, hn⟩ := exists_node?_of_isAlive hc.alive
    simp [hn] at h

end SeaOfNodes.Graph
