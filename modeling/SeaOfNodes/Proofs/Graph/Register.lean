import SeaOfNodes.Proofs.Graph.Wiring

/-!
# What adding a node does

A new node gets the next handle, is entered at the other ends of its edges, and is listed under its
class. Sharing either does that or finds a node that is there already, and then nothing changes but
what is remembered of leaves.
-/

namespace SeaOfNodes

theorem NodeClass.getElem?_all_index (c : NodeClass) : NodeClass.all[c.index.val]? = some c := by
  cases c <;> rfl

theorem NodeClass.index_inj {c c' : NodeClass} (h : c.index.val = c'.index.val) : c = c' := by
  have := c.getElem?_all_index
  rw [h, c'.getElem?_all_index] at this
  exact (Option.some.inj this).symm

namespace Graph

variable {g g' : Graph} {id x t : NodeId} {n m : Node} {d : Direction} {fail : Fault → Prop} {cause : Fault}

/-- The node `n` is registered under the fresh handle `id`. -/
structure Adds (g g' : Graph) (id : NodeId) (n : Node) : Prop where
  fresh : id.index = g.bound
  bound : g'.bound = g.bound + 1
  deletedCount : g'.deletedCount = g.deletedCount
  name : g'.name = g.name
  leaves : ∀ p ∈ g'.leaves, p ∈ g.leaves ∨ p.2 = id
  idsOf : ∃ kept, (kept = g.idsOf n.cls ∨ kept = (g.idsOf n.cls).filter g'.isAlive) ∧
    ∀ c, g'.idsOf c = if c = n.cls then kept ++ [id] else g.idsOf c
  alive : ∀ d t, 0 < n.uses d t → g.isAlive t = true
  unpreceded : ∀ t, 0 < n.uses .successors t → g.predecessor? t = none ∧ n.uses .successors t = 1
  node? : ∀ x, g'.node? x = if x = id then some n else g.node? x
  isAlive : ∀ x, g'.isAlive x = if x = id then true else g.isAlive x
  listed : ∀ x u, g'.listed x u = g.listed x u + if u = id then n.uses .inputs x else 0
  predecessor? : ∀ x, g'.predecessor? x =
    if 0 < n.uses .successors x then some id else g.predecessor? x
  packed : g'.Packed

/-- What a new node refers to is there, and its successors can be claimed, each once. -/
structure CanAdd (g : Graph) (n : Node) : Prop where
  registered : ∀ d t, 0 < n.uses d t → (g.node? t).isSome
  unpreceded : ∀ t, 0 < n.uses .successors t → g.predecessor? t = none ∧ n.uses .successors t = 1

/-- Adding fails because of a deleted node to which the new one refers. -/
def RefersToDeleted (g : Graph) (n : Node) (cause : Fault) : Prop :=
  ∃ d t m, 0 < n.uses d t ∧ g.node? t = some m ∧ g.isAlive t = false ∧
    cause = .deletedNode .newNode (m.label t)

/-- A node without successors that refers to live nodes can be added. -/
theorem not_refersToDeleted_or (halive : ∀ t, 0 < n.uses .inputs t → g.isAlive t)
    (hsuccessors : ∀ t, n.uses .successors t = 0) : ¬ (g.RefersToDeleted n cause ∨ ¬ g.CanAdd n) := by
  have hall (d : Direction) (t : NodeId) (ht : 0 < n.uses d t) : g.isAlive t := by
    cases d with
    | inputs => exact halive t ht
    | successors => simp [hsuccessors] at ht
  rintro (⟨d, t, m, ht, -, hdead, -⟩ | hno)
  · simp [hall d t ht] at hdead
  · exact hno ⟨fun d t ht => registered_of_isAlive (hall d t ht), fun t ht => by simp [hsuccessors] at ht⟩

/-- The graph with one more entry and nothing else. -/
def pushed (g : Graph) (n : Node) : Graph :=
  { g with entries := g.entries.push { node := n } }.enlist n.cls g.entries.next

theorem get?_eq_none_of_bound_le (h : g.bound ≤ x.index) : g.get? x = none := by
  rw [get?, Arena.get?]
  exact Array.getElem?_eq_none h

theorem get?_pushed (g : Graph) (n : Node) (x : NodeId) :
    (g.pushed n).get? x = if x = g.entries.next then some { node := n } else g.get? x := by
  show (g.entries.items.push _)[x.index]? = _
  rw [Array.getElem?_push]
  have hiff : x = g.entries.next ↔ x.index = g.entries.items.size := by
    constructor
    · rintro rfl; rfl
    · intro h; cases x; simpa [Arena.next] using h
  simp only [hiff]
  rfl

theorem idsOf_enlist (g : Graph) (cls : NodeClass) (id : NodeId) :
    ∃ kept, (kept = g.idsOf cls ∨ kept = (g.idsOf cls).filter g.isAlive) ∧
      ∀ c, (g.enlist cls id).idsOf c = if c = cls then kept ++ [id] else g.idsOf c := by
  have key (list : ClassList) (c : NodeClass) :
      ((g.classes.set cls.index.val list)[c.index.val]).ids =
        if c = cls then list.ids else g.idsOf c := by
    rw [Vector.getElem_set]
    by_cases h : c = cls
    · simp [h]
    · rw [if_neg fun e => h (NodeClass.index_inj e).symm, if_neg h]
      rfl
  by_cases h : compactionThreshold < (g.classes.get cls.index).stale &&
      (g.classes.get cls.index).ids.length < (g.classes.get cls.index).stale * 2
  · refine ⟨_, .inr rfl, fun c => ?_⟩
    simp only [enlist, if_pos h]
    exact key _ c
  · refine ⟨_, .inl rfl, fun c => ?_⟩
    simp only [enlist, if_neg h]
    exact key _ c

theorem meets_requireTargets (n : Node) :
    Meets (forIn (n.targets .inputs ++ n.targets .successors) PUnit.unit fun target _ => do
        requireAlive .newNode target
        pure (ForInStep.yield PUnit.unit)) g
      (fun _ g' => g' = g ∧ ∀ d t, 0 < n.uses d t → g.isAlive t)
      (fun e => g.RefersToDeleted n e ∨ ¬ g.CanAdd n) := by
  have hmem {t : NodeId} (h : t ∈ n.targets .inputs ++ n.targets .successors) :
      ∃ d, 0 < n.uses d t := by
    rcases List.mem_append.1 h with h | h
    · exact ⟨.inputs, Node.mem_targets.1 h⟩
    · exact ⟨.successors, Node.mem_targets.1 h⟩
  refine (Meets.forIn_passed (fun done s => s = g ∧ ∀ t ∈ done, g.isAlive t = true) ⟨rfl, nofun⟩
    fun t done rest s hdone ⟨hs, halive⟩ => ?_).imp fun _ s ⟨hs, halive⟩ => ?_
  · subst hs
    obtain ⟨d, hd⟩ := hmem (t := t) (by simp [hdone])
    refine meets_bind.2 (meets_requireAlive.2 ⟨fun ht => ⟨rfl, rfl, ?_⟩,
      fun m hm ht => .inl ⟨d, t, m, hd, hm, ht, rfl⟩, fun hm => .inr fun hc => ?_⟩)
    · exact List.forall_mem_append.2 ⟨halive, List.forall_mem_singleton.2 ht⟩
    · have := hc.registered d t hd
      simp [hm] at this
  · refine ⟨hs, fun d t ht => halive t (List.mem_append.2 ?_)⟩
    cases d with
    | inputs => exact .inl (Node.mem_targets.2 ht)
    | successors => exact .inr (Node.mem_targets.2 ht)

theorem meets_addUsages (hp : g.Packed) (id : NodeId) (inputs : List NodeId)
    (hreg : ∀ t ∈ inputs, (g.node? t).isSome) :
    Meets (forIn inputs PUnit.unit fun input _ => do
        addUsage input id
        pure (ForInStep.yield PUnit.unit)) g
      (fun _ g' => Relists g g' ∧
        ∀ x u, g'.listed x u = g.listed x u + if u = id then inputs.count x else 0)
      fail := by
  refine Meets.forIn_passed (fun done s => Relists g s ∧
      ∀ x u, s.listed x u = g.listed x u + if u = id then done.count x else 0)
    ⟨.refl hp, by simp⟩ fun t done rest s hdone ⟨hrel, hlisted⟩ => ?_
  refine meets_bind.2 ((meets_addUsage hrel.packed t id).mono (fun _ s' h => ?_) fun e he => ?_)
  · refine ⟨rfl, hrel.trans h.1, fun x u => ?_⟩
    rw [h.2, hlisted, List.count_append, List.count_singleton]
    by_cases hu : u = id <;> by_cases hx : x = t <;> simp [hu, hx, Ne.symm]
    omega
  · have := hreg t (by simp [hdone])
    rw [hrel.node?] at he
    simp [he] at this

theorem meets_claimSuccessors (id : NodeId) (successors : List NodeId)
    (hfail : ∀ e, ¬ (∀ t ∈ successors, (g.node? t).isSome → g.predecessor? t = none ∧
      successors.count t = 1) → fail e) (hreg : ∀ t ∈ successors, (g.node? t).isSome) :
    Meets (forIn successors PUnit.unit fun successor _ => do
        updatePredecessor id none (some successor)
        pure (ForInStep.yield PUnit.unit)) g
      (fun _ g' => Repoints g g' ∧
        (∀ t ∈ successors, g.predecessor? t = none ∧ successors.count t = 1) ∧
        ∀ x, g'.predecessor? x = if x ∈ successors then some id else g.predecessor? x)
      fail := by
  refine (Meets.forIn_passed (fun done s => Repoints g s ∧
      (∀ t ∈ done, g.predecessor? t = none) ∧ done.Nodup ∧
      ∀ x, s.predecessor? x = if x ∈ done then some id else g.predecessor? x)
    ⟨.refl g, nofun, .nil, by simp⟩ fun t done rest s hdone ⟨hrel, hpred, hnodup, hs⟩ => ?_).imp
    fun _ s ⟨hrel, hpred, hnodup, hs⟩ => ?_
  · refine meets_bind.2 ((meets_updatePredecessor id none (some t)).mono (fun _ s' h => ?_)
      fun e he => hfail e fun hall => he (.inr ⟨by simp, ?_⟩))
    · have hnone := h.new_pred (by simp) t rfl
      rw [hs] at hnone
      have ht : t ∉ done := fun ht => by simp [ht] at hnone
      refine ⟨rfl, hrel.trans h.repoints, ?_, ?_, fun x => ?_⟩
      · refine List.forall_mem_append.2 ⟨hpred, List.forall_mem_singleton.2 ?_⟩
        simpa [ht] using hnone
      · exact List.nodup_append.2 ⟨hnodup, by simp, by
          simpa using fun a ha e => ht (by rwa [← e])⟩
      · rw [h.predecessor?, if_neg (by simp), hs]
        by_cases hx : x = t
        · simp [hx]
        · simp [hx, Ne.symm hx]
    · rintro _ ⟨⟩
      have hmem : t ∈ successors := by simp [hdone]
      obtain ⟨hnone, hone⟩ := hall t hmem (hreg t hmem)
      refine ⟨by rw [hrel.node?]; exact hreg t hmem, ?_⟩
      have ht : t ∉ done := fun ht => by
        have : 0 < done.count t := List.count_pos_iff.2 ht
        rw [hdone, List.count_append, List.count_cons_self] at hone
        omega
      rw [hs, if_neg ht, hnone]
  · exact ⟨hrel, fun t ht => ⟨hpred t ht, List.count_eq_one_of_mem hnodup ht⟩, hs⟩

/-- A new node is registered, and nothing is remembered of it yet. -/
theorem meets_addFresh_leaves (hp : g.Packed) (n : Node) :
    Meets (addFresh n) g (fun id g' => Adds g g' id n ∧ g'.leaves = g.leaves)
      (fun e => g.RefersToDeleted n e ∨ ¬ g.CanAdd n) := by
  unfold addFresh
  refine (meets_requireTargets n).bind fun _ g0 h0 => ?_
  obtain ⟨rfl, halive⟩ := h0
  rw [meets_bind, meets_get, meets_bind, meets_modify, meets_bind, meets_modify]
  -- the entry is there, and its other ends follow
  have hget (x : NodeId) := get?_pushed g0 n x
  have hfresh : g0.get? g0.entries.next = none := get?_eq_none_of_bound_le (Nat.le_refl _)
  have hne {t : NodeId} (ht : g0.isAlive t) : t ≠ g0.entries.next := by
    rintro rfl
    simp [isAlive, hfresh] at ht
  have hnode (x : NodeId) : (g0.pushed n).node? x =
      if x = g0.entries.next then some n else g0.node? x := by
    rw [node?, hget]
    split <;> rfl
  have hreg {d : Direction} {t : NodeId} (ht : 0 < n.uses d t) :
      ((g0.pushed n).node? t).isSome := by
    obtain ⟨m, hm⟩ := exists_node?_of_isAlive (halive d t ht)
    rw [hnode, if_neg (hne (halive d t ht)), hm]
    rfl
  have hpacked : (g0.pushed n).Packed := by
    intro x e he
    rw [hget] at he
    split at he
    · cases he
      exact UsageList.packs_empty.packed
    · exact hp x e he
  refine (meets_addUsages hpacked _ _ fun t ht => hreg (Node.mem_targets.1 ht)).bind
    fun _ g1 h1 => ?_
  have hpred (x : NodeId) : g1.predecessor? x = g0.predecessor? x := by
    rw [h1.1.predecessor?, predecessor?, hget, predecessor?]
    split
    · subst_vars; rw [hfresh]; rfl
    · rfl
  refine (meets_claimSuccessors _ _ (fun e hno => .inr fun hc => hno fun t ht _ => ?_)
    fun t ht => by rw [h1.1.node?]; exact hreg (Node.mem_targets.1 ht)).bind fun _ g2 h2 => ?_
  · rw [meets_bind, meets_record]
    obtain ⟨kept, hkept, hids⟩ := idsOf_enlist
      { g0 with entries := g0.entries.push { node := n } } n.cls g0.entries.next
    have hkeeps := (h1.1.keeps.trans h2.1.keeps).trans
      (keeps_recorded g2 (.added g0.entries.next))
    have hisAlive (x : NodeId) : (g2.recorded (.added g0.entries.next)).isAlive x =
        if x = g0.entries.next then true else g0.isAlive x := by
      have : g2.isAlive x = (g0.pushed n).isAlive x := (h2.1.isAlive x).trans (h1.1.isAlive x)
      refine this.trans ?_
      rw [isAlive, hget, isAlive]
      split <;> rfl
    refine ⟨?_, hkeeps.leaves⟩
    exact {
      fresh := rfl
      bound := hkeeps.bound.trans (by simp [pushed, enlist, withList, bound, Arena.size, Arena.push])
      deletedCount := hkeeps.deletedCount
      name := hkeeps.name
      leaves := fun p hp => .inl (hkeeps.leaves ▸ hp)
      idsOf := by
        refine ⟨kept, hkept.imp_right fun h => h.trans (List.filter_congr fun x _ => ?_),
          fun c => (hkeeps.idsOf c).trans (hids c)⟩
        exact ((h2.1.isAlive x).trans (h1.1.isAlive x)).symm
      alive := halive
      unpreceded := fun t ht => by
        rw [← hpred, ← Node.count_targets]
        exact h2.2.1 t (Node.mem_targets.2 ht)
      node? := fun x => ((h2.1.node? x).trans (h1.1.node? x)).trans (hnode x)
      isAlive := hisAlive
      listed := fun x u => by
        rw [listed_recorded, listed, h2.1.users, ← listed, h1.2, Node.count_targets]
        congr 1
        rw [listed, users, hget, listed, users]
        split
        · subst_vars; rw [hfresh]; rfl
        · rfl
      predecessor? := fun x => by
        refine (h2.2.2 x).trans ?_
        simp only [Node.mem_targets, hpred]
      packed := h2.1.packed h1.1.packed }
  · rw [hpred, Node.count_targets]
    exact hc.unpreceded t (Node.mem_targets.1 ht)

theorem meets_addFresh (hp : g.Packed) (n : Node) :
    Meets (addFresh n) g (fun id g' => Adds g g' id n)
      (fun e => g.RefersToDeleted n e ∨ ¬ g.CanAdd n) :=
  (meets_addFresh_leaves hp n).imp fun _ _ h => h.1

/-! ### Sharing nodes -/

/-- Nothing changes, except that leaves may be forgotten. -/
structure Forgets (g g' : Graph) : Prop where
  get? : ∀ x, g'.get? x = g.get? x
  bound : g'.bound = g.bound
  deletedCount : g'.deletedCount = g.deletedCount
  name : g'.name = g.name
  idsOf : ∀ c, g'.idsOf c = g.idsOf c
  leaves : ∀ p ∈ g'.leaves, p ∈ g.leaves

namespace Forgets

theorem refl (g : Graph) : Forgets g g :=
  ⟨fun _ => rfl, rfl, rfl, rfl, fun _ => rfl, fun _ => id⟩

variable (h : Forgets g g')
include h

theorem node? (x : NodeId) : g'.node? x = g.node? x := by rw [Graph.node?, h.get?, Graph.node?]

theorem isAlive (x : NodeId) : g'.isAlive x = g.isAlive x := by
  rw [Graph.isAlive, h.get?, Graph.isAlive]

theorem users (x : NodeId) : g'.users x = g.users x := by rw [Graph.users, h.get?, Graph.users]

theorem predecessor? (x : NodeId) : g'.predecessor? x = g.predecessor? x := by
  rw [Graph.predecessor?, h.get?, Graph.predecessor?]

theorem packed (hp : g.Packed) : g'.Packed := fun x e he => hp x e (by rwa [h.get?] at he)

theorem refersToDeleted (hr : g'.RefersToDeleted n cause) :
    g.RefersToDeleted n cause := by
  obtain ⟨d, t, m, hd, hm, ha, rfl⟩ := hr
  exact ⟨d, t, m, hd, by rwa [h.node?] at hm, by rwa [h.isAlive] at ha, rfl⟩

theorem canAdd (hc : g.CanAdd n) : g'.CanAdd n where
  registered d t ht := by rw [h.node?]; exact hc.registered d t ht
  unpreceded t ht := by rw [h.predecessor?]; exact hc.unpreceded t ht

end Forgets

theorem Adds.of_forgets {g1 : Graph} (h : Forgets g g1) (ha : Adds g1 g' id n) : Adds g g' id n where
  fresh := ha.fresh.trans h.bound
  bound := ha.bound.trans (by rw [h.bound])
  deletedCount := ha.deletedCount.trans h.deletedCount
  name := ha.name.trans h.name
  leaves p hp := (ha.leaves p hp).imp_left (h.leaves p)
  idsOf := by
    obtain ⟨kept, hkept, hids⟩ := ha.idsOf
    exact ⟨kept, by rwa [h.idsOf] at hkept, fun c => by rw [hids, h.idsOf]⟩
  alive d t ht := by rw [← h.isAlive]; exact ha.alive d t ht
  unpreceded t ht := by rw [← h.predecessor?]; exact ha.unpreceded t ht
  node? x := by rw [ha.node?, h.node?]
  isAlive x := by rw [ha.isAlive, h.isAlive]
  listed x u := by rw [ha.listed, Graph.listed, h.users, ← Graph.listed]
  predecessor? x := by rw [ha.predecessor?, h.predecessor?]
  packed := ha.packed

/-- Remembering a new leaf changes nothing else. -/
theorem Adds.remember (ha : Adds g g' id n) (op : Op) :
    Adds g { g' with leaves := (op, id) :: g'.leaves.filter (·.1 ≠ op) } id n :=
  { ha with
    leaves := fun p hp => by
      rcases List.mem_cons.1 hp with rfl | hp
      · exact .inr rfl
      · exact ha.leaves p (List.mem_of_mem_filter hp) }

/-- Every remembered leaf is registered. -/
def LeavesRegistered (g : Graph) : Prop := ∀ p ∈ g.leaves, (g.node? p.2).isSome

theorem meets_findLeaf (op : Op) :
    Meets (findLeaf op) g
      (fun r g' => Forgets g g' ∧ ∀ id, r = some id →
        g.isAlive id ∧ ∃ m, g.node? id = some m ∧ m.op = op)
      (fun _ => ¬ g.LeavesRegistered) := by
  unfold findLeaf
  rw [meets_bind, meets_get]
  cases hl : g.leaves.lookup op with
  | none => exact ⟨.refl g, by simp⟩
  | some id =>
    have hmem : (op, id) ∈ g.leaves := by
      obtain ⟨l1, l2, h, -⟩ := List.lookup_eq_some_iff.1 hl
      simp [h]
    refine meets_bind.2 (meets_entry.2 ⟨fun e he => ?_, fun hnone hall => ?_⟩)
    · split
      · rename_i hcond
        simp only [Bool.and_eq_true, beq_iff_eq] at hcond
        refine ⟨.refl g, ?_⟩
        rintro _ ⟨⟩
        exact ⟨by rw [isAlive_of_get? he, hcond.1], e.node, node?_of_get? he, hcond.2⟩
      · rw [meets_bind, meets_modify, meets_pure]
        exact ⟨⟨fun _ => rfl, rfl, rfl, rfl, fun _ => rfl, fun p hp => List.mem_of_mem_filter hp⟩, by simp⟩
    · simpa [node?, hnone] using hall _ hmem

theorem meets_fewestUsed (inputs : List NodeId) (best : Option (NodeId × Nat)) :
    Meets (fewestUsed inputs best) g
      (fun r g' => g' = g ∧ ∀ t, r = some t → t ∈ inputs ∨ best.map (·.1) = some t)
      (fun _ => ¬ ∀ t ∈ inputs, (g.node? t).isSome) := by
  induction inputs generalizing best with
  | nil => exact ⟨rfl, fun t h => .inr h⟩
  | cons input rest ih =>
    unfold fewestUsed
    refine meets_bind.2 (meets_entry.2 ⟨fun e he => ?_, fun hnone hall => ?_⟩)
    · have go (b : Option (NodeId × Nat))
          (hb : ∀ t, b.map (·.1) = some t → t = input ∨ best.map (·.1) = some t) :
          Meets (fewestUsed rest b) g
            (fun r g' => g' = g ∧ ∀ t, r = some t → t ∈ input :: rest ∨ best.map (·.1) = some t)
            (fun _ => ¬ ∀ t ∈ input :: rest, (g.node? t).isSome) :=
        (ih b).mono (fun r g' h => ⟨h.1, fun t ht => by
          rcases h.2 t ht with h | h
          · exact .inl (List.mem_cons_of_mem _ h)
          · exact (hb t h).imp_left (by rintro rfl; exact List.mem_cons_self)⟩)
          fun _ he hall => he fun t ht => hall t (List.mem_cons_of_mem _ ht)
      by_cases hcount : e.usages.size = 0
      · simp only [if_pos hcount]
        exact ⟨rfl, by simp⟩
      · simp only [if_neg hcount]
        have this_one : ∀ t, (some (input, e.usages.size)).map (·.1) = some t →
            t = input ∨ best.map (·.1) = some t := by
          rintro _ ⟨⟩; exact .inl rfl
        cases best with
        | none => exact go _ this_one
        | some b =>
          obtain ⟨_, least⟩ := b
          simp only
          split
          · exact go _ this_one
          · exact go _ fun t ht => .inr ht
    · simpa [node?, hnone] using hall input (by simp)

theorem meets_findAmong (n : Node) (users : List NodeId) :
    Meets (findAmong n users) g
      (fun r g' => g' = g ∧ ∀ id, r = some id →
        id ∈ users ∧ ∃ m, g.node? id = some m ∧ m.sameStructure n)
      (fun _ => ¬ ∀ t ∈ users, (g.node? t).isSome) := by
  induction users with
  | nil => exact ⟨rfl, by simp⟩
  | cons user rest ih =>
    unfold findAmong
    refine meets_bind.2 (meets_node.2 ⟨fun m hm => ?_, fun hnone hall => ?_⟩)
    · split
      · rename_i hsame
        refine ⟨rfl, ?_⟩
        rintro _ ⟨⟩
        exact ⟨by simp, m, hm, hsame⟩
      · exact ih.mono (fun r g' h => ⟨h.1, fun t ht =>
          ⟨List.mem_cons_of_mem _ (h.2 t ht).1, (h.2 t ht).2⟩⟩)
          fun _ he hall => he fun t ht => hall t (List.mem_cons_of_mem _ ht)
    · simpa [hnone] using hall user (by simp)

/-- The node `id` is alive and can stand for `n`: it is the leaf remembered for the same operation,
or a user of one of the inputs with the same structure. -/
def Found (g : Graph) (n : Node) (id : NodeId) : Prop :=
  ∃ m, g.node? id = some m ∧ m.op = n.op ∧
    (n.op.isLeaf = true ∧ g.isAlive id = true ∨
      m.sameStructure n = true ∧ ∃ t, 0 < n.uses .inputs t ∧ id ∈ g.users t)

/-- Whatever a search for an equal of `n` meets is registered. -/
structure CanFind (g : Graph) (n : Node) : Prop where
  leaves : n.op.isLeaf = true → g.LeavesRegistered
  inputs : ∀ t, 0 < n.uses .inputs t → (g.node? t).isSome
  users : ∀ t, 0 < n.uses .inputs t → ∀ u ∈ g.users t, (g.node? u).isSome

theorem meets_findEqual (n : Node) :
    Meets (findEqual n) g (fun r g' => Forgets g g' ∧ ∀ id, r = some id → g.Found n id)
      (fun _ => ¬ g.CanFind n) := by
  unfold findEqual
  split
  · rename_i hleaf
    refine (meets_findLeaf n.op).mono (fun r g' h => ⟨h.1, fun id hid => ?_⟩)
      fun _ he hc => he (hc.leaves hleaf)
    obtain ⟨ha, m, hm, hop⟩ := h.2 id hid
    exact ⟨m, hm, hop, .inl ⟨hleaf, ha⟩⟩
  · refine meets_bind.2 ((meets_fewestUsed _ none).mono (fun r g' h => ?_)
      fun _ he hc => he fun t ht => hc.inputs t (Node.mem_targets.1 ht))
    obtain ⟨rfl, h⟩ := h
    cases r with
    | none => exact ⟨.refl _, by simp⟩
    | some t =>
      have ht : 0 < n.uses .inputs t := by simpa [Node.mem_targets] using h t rfl
      refine meets_bind.2 (meets_entry.2 ⟨fun e he => ?_, fun hnone hc => ?_⟩)
      · rw [← users_of_get? he]
        refine (meets_findAmong n _).mono (fun r g'' h' => ?_) fun _ he hc => he (hc.users t ht)
        obtain ⟨rfl, h'⟩ := h'
        refine ⟨.refl _, fun id hid => ?_⟩
        obtain ⟨hu, m, hm, hsame⟩ := h' id hid
        have hop : m.op = n.op := by
          simp only [Node.sameStructure, Bool.and_eq_true, beq_iff_eq] at hsame
          exact hsame.1.1
        exact ⟨m, hm, hop, .inr ⟨hsame, t, ht, hu⟩⟩
      · simpa [node?, hnone] using hc.inputs t ht

/-- A node was found or newly added. -/
inductive Shares (g g' : Graph) (id : NodeId) (n : Node) : Prop
  | found (same : Forgets g g') (found : g.Found n id)
  | added (adds : Adds g g' id n)

theorem meets_intern (hp : g.Packed) (hv : n.op.isValueNumberable) :
    Meets (intern n) g (fun id g' => Shares g g' id n)
      (fun e => g.RefersToDeleted n e ∨ ¬ (g.CanAdd n ∧ g.CanFind n)) := by
  unfold intern
  simp only [hv]
  refine meets_bind.2 ((meets_findEqual n).mono (fun r g1 h1 => ?_)
    fun _ he => .inr fun hc => he hc.2)
  cases r with
  | some id => exact .found h1.1 (h1.2 id rfl)
  | none =>
    refine meets_bind.2 ((meets_addFresh (h1.1.packed hp) n).mono (fun id g2 h2 => ?_) fun e he => ?_)
    · have ha := h2.of_forgets h1.1
      split
      · rw [meets_bind]
        exact .added (ha.remember n.op)
      · exact .added ha
    · exact he.imp h1.1.refersToDeleted fun hno hc => hno (h1.1.canAdd hc.1)

theorem meets_addLeaf (hp : g.Packed) (n : Node) :
    Meets (addLeaf n) g (fun id g' => Adds g g' id n)
      (fun e => g.RefersToDeleted n e ∨ ¬ (g.CanAdd n ∧ g.CanFind n)) := by
  unfold addLeaf
  refine meets_bind.2 ((meets_findEqual n).mono (fun r g1 h1 => ?_)
    fun _ he => .inr fun hc => he hc.2)
  refine meets_bind.2 ((meets_addFresh (h1.1.packed hp) n).mono (fun id g2 h2 => ?_) fun e he =>
    he.imp h1.1.refersToDeleted fun hno hc => hno (h1.1.canAdd hc.1))
  have ha := h2.of_forgets h1.1
  split
  · exact ha.remember n.op
  · exact ha

end Graph

end SeaOfNodes
