import SeaOfNodes.Frame.Merge
import SeaOfNodes.Proofs.Graph.Building
import SeaOfNodes.Proofs.Graph.Query
import SeaOfNodes.Proofs.Graph.Replacement
import SeaOfNodes.Proofs.Graph.Worklist

/-!
# What goes with a phi

Deleting a phi takes away the phis and proxies that are reached from it along users, all of them and
nothing else, unless one of them is used by a node that cannot do without it. Every node is queued
once, so the steps suffice. What stays has lost the inputs that went, and is as it was otherwise.
-/

namespace SeaOfNodes

/-! ### Queues that track visits -/

namespace Worklist

variable {w : Worklist} {v v' : NodeSet} {x : NodeId} {xs : List NodeId} {bound : Nat}

/-- The queue has visited the nodes of `v`, among them all that are queued. -/
structure Visited (w : Worklist) (v : NodeSet) : Prop where
  visited : w.visited = some v
  queued : ∀ x, w.queued.contains x = true → v.contains x = true
  queue : ∀ x ∈ w.queue, v.contains x = true

/-- The steps that a queue may still need: its length, and the nodes that were not visited. -/
def stepsLeft (w : Worklist) (v : NodeSet) (bound : Nat) : Nat :=
  w.queue.length + ((Finset.range bound).filter fun i => ¬ v.contains ⟨i⟩ = true).card

theorem visited_create (g : Graph) : (create g true).Visited (.sizedFor g) :=
  ⟨rfl, fun x hx => by simp [create] at hx, fun x hx => by simp [create] at hx⟩

theorem Visited.refuses (h : w.Visited v) : w.refuses x = v.contains x := by
  rw [Worklist.refuses, h.visited]
  have := h.queued x
  cases hv : v.contains x <;> simp_all

theorem Visited.queue_add (h : w.Visited v) :
    (w.add x).queue = if v.contains x then w.queue else w.queue ++ [x] := by
  rw [add, h.refuses]
  split <;> rfl

theorem Visited.add (h : w.Visited v) : (w.add x).Visited (v.insert x) := by
  refine ⟨?_, fun y hy => ?_, fun y hy => ?_⟩
  · rw [Worklist.add, h.visited]
    split <;> rfl
  · rw [Worklist.add, h.refuses] at hy
    split at hy
    · exact NodeSet.contains_insert.2 (.inr (h.queued y hy))
    · exact NodeSet.contains_insert.2 ((NodeSet.contains_insert.1 hy).imp_right (h.queued y))
  · rw [h.queue_add] at hy
    split at hy
    · exact NodeSet.contains_insert.2 (.inr (h.queue y hy))
    · rcases List.mem_append.1 hy with hy | hy
      · exact NodeSet.contains_insert.2 (.inr (h.queue y hy))
      · exact NodeSet.contains_insert.2 (.inl (List.mem_singleton.1 hy))

/-- A node that is queued is one fewer that was not visited. -/
theorem Visited.stepsLeft_add (h : w.Visited v) (hx : x.index < bound) :
    (w.add x).stepsLeft (v.insert x) bound ≤ w.stepsLeft v bound := by
  have hsub : (Finset.range bound).filter (fun i => ¬ (v.insert x).contains ⟨i⟩) ⊆
      (Finset.range bound).filter fun i => ¬ v.contains ⟨i⟩ :=
    Finset.monotone_filter_right _ fun i _ hi hv => hi (NodeSet.contains_insert.2 (.inr hv))
  unfold stepsLeft
  rw [h.queue_add]
  split
  · exact Nat.add_le_add_left (Finset.card_le_card hsub) _
  · rename_i hnew
    have := Finset.card_lt_card (Finset.ssubset_iff_of_subset hsub |>.2
      ⟨x.index, Finset.mem_filter.2 ⟨Finset.mem_range.2 hx, hnew⟩,
        fun hi => (Finset.mem_filter.1 hi).2 (NodeSet.contains_insert.2 (.inl rfl))⟩)
    simp only [List.length_append, List.length_singleton]
    omega

/-- What queueing several nodes does. -/
theorem Visited.addAll (h : w.Visited v) (xs : List NodeId) (hxs : ∀ x ∈ xs, x.index < bound) :
    ∃ v', (w.addAll xs).Visited v' ∧
      (∀ y, v'.contains y ↔ y ∈ xs ∨ v.contains y) ∧
      (∀ y, y ∈ (w.addAll xs).queue ↔ y ∈ w.queue ∨ y ∈ xs ∧ v.contains y = false) ∧
      (w.addAll xs).stepsLeft v' bound ≤ w.stepsLeft v bound := by
  induction xs generalizing w v with
  | nil => exact ⟨v, h, by simp, by simp [Worklist.addAll], le_rfl⟩
  | cons x xs ih =>
    obtain ⟨v', hv', hmem, hqueue, hsteps⟩ := ih h.add fun y hy => hxs y (by simp [hy])
    refine ⟨v', hv', fun y => ?_, fun y => ?_, hsteps.trans (h.stepsLeft_add (hxs x (by simp)))⟩
    · rw [hmem, NodeSet.contains_insert, List.mem_cons]
      tauto
    · show y ∈ (Worklist.addAll (w.add x) xs).queue ↔ _
      rw [hqueue, h.queue_add, List.mem_cons, Bool.eq_false_iff, Ne, NodeSet.contains_insert,
        Bool.eq_false_iff, Ne]
      by_cases hx : v.contains x
      · rw [if_pos hx]
        by_cases hy : y = x
        · subst hy; simp [hx]
        · simp [hy]
      · rw [if_neg hx, List.mem_append, List.mem_singleton]
        by_cases hy : y = x
        · subst hy; simp [hx]
        · simp [hy]

theorem Visited.pop (h : w.Visited v) : w.pop.Visited v := by
  unfold Worklist.pop
  split
  · exact h
  · rename_i id rest hq
    exact ⟨h.visited, fun y hy => h.queued y (NodeSet.contains_erase.1 hy).2,
      fun y hy => h.queue y (by simp [hq, hy])⟩

theorem queue_pop {rest : List NodeId} (h : w.queue = x :: rest) : w.pop.queue = rest := by
  unfold Worklist.pop
  rw [h]

end Worklist

/-! ### Taking a node off the queue -/

namespace Frame

open Graph

variable {g : Graph} {fail : Fault → Prop} {users : List NodeId}

/-- What a step reads: which users go with the node, and the classes of the users. -/
theorem meets_dependents {id : NodeId} (hu : ∀ u ∈ users, (g.node? u).isSome) :
    Meets (users.filterM fun user => do
        if user = id then return false else return followsPhi (← Graph.node user).cls) g
      (fun r g' => g' = g ∧ r = users.filter fun u => u ≠ id ∧ (g.cls? u).any followsPhi) fail := by
  refine (Meets.filterM (fun u => u ≠ id ∧ (g.cls? u).any followsPhi) fun u hmem => ?_).imp
    fun r g' h => h.symm
  obtain ⟨n, hn⟩ := Option.isSome_iff_exists.1 (hu u hmem)
  split
  · simp [*]
  · rw [meets_bind, meets_node, hn, cls?_of_node? hn]
    simp [*]

theorem meets_classes (hu : ∀ u ∈ users, (g.node? u).isSome) :
    Meets (users.mapM fun user => return (← Graph.node user).cls) g
      (fun r g' => g' = g ∧ r.map some = users.map g.cls?) fail := by
  refine (Meets.mapM (fun rest done s => s = g ∧ (∀ u ∈ rest, (g.node? u).isSome) ∧
      done.map some ++ rest.map g.cls? = users.map g.cls?) ⟨rfl, hu, rfl⟩
    fun u rest done s h => ?_).imp fun r s h => ⟨h.1, by simpa using h.2.2⟩
  obtain ⟨rfl, hreg, hdone⟩ := h
  obtain ⟨n, hn⟩ := Option.isSome_iff_exists.1 (hreg u (by simp))
  rw [meets_bind, meets_node_of hn]
  refine ⟨rfl, fun u hu => hreg u (by simp [hu]), ?_⟩
  rw [← hdone, List.map_cons, cls?_of_node? hn]
  simp

end Frame

/-! ### The nodes that go -/

theorem NodeClass.successors_of_followsPhi {c : NodeClass} (h : Frame.followsPhi c) :
    c.layout.fields .successors = [] := by
  revert h
  cases c <;> decide

namespace Graph

open SeaOfNodes.Frame (followsPhi toleratesLoss deleteQueued deletePhi)

variable {g s s' : Graph} {p x u : NodeId} {n : Node} {work : Worklist} {v : NodeSet} {fuel : Nat}

/-- The nodes that go with `p`: itself, and the phis and proxies that have one of them as an input. -/
inductive Doomed (g : Graph) (p : NodeId) : NodeId → Prop
  | self : Doomed g p p
  | user {x u : NodeId} (doomed : Doomed g p x) (uses : 0 < g.uses .inputs u x)
      (follows : (g.cls? u).any followsPhi = true) : Doomed g p u

theorem Doomed.followsPhi (h : g.Doomed p x) (hp : (g.cls? p).any followsPhi) :
    (g.cls? x).any Frame.followsPhi := by
  cases h with
  | self => exact hp
  | user _ _ hfollows => exact hfollows

/-- No node that stays needs one of the nodes that go with `p`. -/
def Expendable (g : Graph) (p : NodeId) : Prop :=
  ∀ x, g.Doomed p x → ∀ u, 0 < g.uses .inputs u x → (g.cls? u).any toleratesLoss = true

/-- What is left of a node when the nodes of `s` are those that stay: what stays keeps its inputs among
them, and what goes keeps nothing. -/
def remnant (g s : Graph) (x : NodeId) (n : Node) : Node :=
  if s.isAlive x then n.keeping s.isAlive
  else if g.isAlive x then (n.clear .inputs).clear .successors else n

theorem op_remnant (g s : Graph) (x : NodeId) (n : Node) : (g.remnant s x n).op = n.op := by
  unfold remnant
  split
  · rfl
  · split <;> rfl

/-- The nodes that go with `p` are gone, and nothing else has changed but the inputs that held them. -/
structure Purges (g g' : Graph) (p : NodeId) : Prop where
  consistent : g'.Consistent
  keeps : KeepsLists g g'
  isAlive : ∀ x, g'.isAlive x = true ↔ g.isAlive x = true ∧ ¬ g.Doomed p x
  node? : ∀ x, g'.node? x = (g.node? x).map (g.remnant g' x)
  predecessor? : ∀ x, g'.predecessor? x = g.predecessor? x

/-! ### Taking nodes off the queue -/

/-- Between two steps of the deletion of `p` from `g`; the nodes of `v` were queued. -/
structure Purging (g : Graph) (p : NodeId) (s : Graph) (work : Worklist) (v : NodeSet) : Prop where
  consistent : s.Consistent
  keeps : KeepsLists g s
  visited : work.Visited v
  start : v.contains p = true
  doomed : ∀ x, v.contains x = true → g.Doomed p x
  queue : ∀ x, v.contains x = true → s.isAlive x = true → x ∈ work.queue
  alive : ∀ x, s.isAlive x = true → g.isAlive x = true
  dead : ∀ x, g.isAlive x = true → s.isAlive x = false → v.contains x = true
  closed : ∀ x, v.contains x = true → s.isAlive x = false → ∀ u, 0 < g.uses .inputs u x →
    (g.cls? u).any followsPhi = true → v.contains u = true
  tolerated : ∀ x, v.contains x = true → s.isAlive x = false → ∀ u, 0 < g.uses .inputs u x →
    (g.cls? u).any toleratesLoss = true
  node? : ∀ x, s.node? x = (g.node? x).map (g.remnant s x)
  predecessor? : ∀ x, s.predecessor? x = g.predecessor? x

section

variable (h : ∀ x, s.node? x = (g.node? x).map (g.remnant s x))

include h

theorem op?_of_remnants : s.op? = g.op? := by
  funext x
  simp [op?, h, Function.comp_def, op_remnant]

theorem cls?_of_remnants : s.cls? = g.cls? := by
  funext x
  rw [cls?_eq_map_op?, op?_of_remnants h, ← cls?_eq_map_op?]

theorem uses_of_remnants (hu : s.isAlive u) :
    s.uses .inputs u x = if s.isAlive x then g.uses .inputs u x else 0 := by
  obtain ⟨m, hm⟩ := exists_node?_of_isAlive hu
  obtain ⟨n, hn, rfl⟩ := Option.map_eq_some_iff.1 ((h u).symm.trans hm)
  rw [uses_of_node? hm, uses_of_node? hn, remnant, if_pos hu, Node.uses_keeping]

end

namespace Purging

theorem finish (h : Purging g p s work v) (hq : work.queue = []) :
    Purges g s p ∧ g.Expendable p := by
  have hgone (x : NodeId) (hx : v.contains x) : s.isAlive x = false := by
    by_contra ha
    have := h.queue x hx (by simpa using ha)
    simp [hq] at this
  have hdoomed (x : NodeId) (hx : g.Doomed p x) : v.contains x := by
    induction hx with
    | self => exact h.start
    | user _ huses hfollows ih => exact h.closed _ ih (hgone _ ih) _ huses hfollows
  refine ⟨⟨h.consistent, h.keeps, fun x => ⟨fun hx => ?_, fun hx => ?_⟩, h.node?, h.predecessor?⟩,
    fun x hx => h.tolerated x (hdoomed x hx) (hgone x (hdoomed x hx))⟩
  · exact ⟨h.alive x hx, fun hd => by simp [hgone x (hdoomed x hd)] at hx⟩
  · by_contra ha
    exact hx.2 (h.doomed x (h.dead x hx.1 (by simpa using ha)))

variable {rest : List NodeId}

/-- A node that is gone is taken off the queue. -/
theorem pop_of_not_isAlive {id : NodeId} (h : Purging g p s work v)
    (hq : work.queue = id :: rest) (ha : s.isAlive id = false) : Purging g p s work.pop v :=
  { h with
    visited := h.visited.pop
    queue := fun x hx hxa => by
      have := h.queue x hx hxa
      rw [hq, List.mem_cons] at this
      rw [Worklist.queue_pop hq]
      refine this.resolve_left ?_
      rintro rfl
      simp [ha] at hxa }

/-- One node is taken off the queue. -/
theorem meets_step {id : NodeId} {work' : Worklist} {v' : NodeSet}
    (h : Purging g p s work v) (hg : g.Consistent)
    (hshaped : ∀ x n, g.Doomed p x → g.node? x = some n → n.Shaped)
    (hp : (g.cls? p).any followsPhi) (hpred : ∀ x, g.Doomed p x → g.predecessor? x = none)
    (hq : work.queue = id :: rest) (ha : s.isAlive id)
    (hqueue : ∀ x, x ∈ work'.queue ↔
      x ∈ rest ∨ (x ∈ s.users id ∧ x ≠ id ∧ (s.cls? x).any followsPhi) ∧ v.contains x = false)
    (hvisited : work'.Visited v')
    (hv : ∀ x, v'.contains x ↔
      (x ∈ s.users id ∧ x ≠ id ∧ (s.cls? x).any followsPhi) ∨ v.contains x)
    (htolerant : ∀ u ∈ s.users id, (s.cls? u).any toleratesLoss) :
    Meets (do replaceAtUsages id none; delete id) s (fun _ s' => Purging g p s' work' v')
      (fun _ => False) := by
  have hid : v.contains id := h.visited.queue id (by simp [hq])
  simp only [h.consistent.mem_users_iff, cls?_of_remnants h.node?] at hqueue hv htolerant
  have hfollows : (g.cls? id).any followsPhi := (h.doomed id hid).followsPhi hp
  -- a user of the node in `g` is one still, or is gone and was queued
  have huser (u : NodeId) (hu : 0 < g.uses .inputs u id) :
      0 < s.uses .inputs u id ∨ v.contains u := by
    by_cases hua : s.isAlive u
    · exact .inl (by rwa [uses_of_remnants h.node? hua, if_pos ha])
    · exact .inr (h.dead u (hg.isAlive_of_uses hu) (by simpa using hua))
  have holdUser (u : NodeId) (hu : 0 < s.uses .inputs u id) : 0 < g.uses .inputs u id := by
    rwa [uses_of_remnants h.node? (h.consistent.isAlive_of_uses hu), if_pos ha] at hu
  refine meets_bind.2 ((meets_exchange h.consistent (registered_of_isAlive ha) (by simp)
    (by rintro _ ⟨⟩)).mono (fun _ s1 h1 => ?_) fun _ => False.elim)
  have hnode1 := h1.node?
  simp only [Node.exchange_none] at hnode1
  refine (meets_delete h1.consistent.packed id).mono (fun _ s2 h2 => ?_) fun _ hcan => ?_
  swap
  · refine hcan ⟨by rw [h1.isAlive, ha], h1.unused, ?_, fun d t ht => h1.consistent.registered_target ht⟩
    rw [h1.predecessor?, h.predecessor?, hpred id (h.doomed id hid)]
  obtain ⟨n, h2⟩ := h2
  -- the node as it was in `g`
  obtain ⟨n1, hn1, rfl⟩ := Option.map_eq_some_iff.1 ((hnode1 id).symm.trans h2.node)
  obtain ⟨n0, hn0, rfl⟩ := Option.map_eq_some_iff.1 ((h.node? id).symm.trans hn1)
  have hsuccessors : n0.links .successors = [] := by
    rw [cls?_of_node? hn0] at hfollows
    exact (hshaped id n0 (h.doomed id hid) hn0).links_eq_nil (NodeClass.successors_of_followsPhi hfollows)
  rw [remnant, if_pos ha, Node.keeping_keeping] at h2
  have halive (x : NodeId) : s2.isAlive x ↔ x ≠ id ∧ s.isAlive x := by
    rw [h2.isAlive, h1.isAlive]
    split <;> simp_all
  have hdead (x : NodeId) (hx : s2.isAlive x = false) (hne : x ≠ id) : s.isAlive x = false := by
    by_contra hxa
    simp [(halive x).2 ⟨hne, by simpa using hxa⟩] at hx
  have hmem (x : NodeId) (hx : v.contains x) : v'.contains x := (hv x).2 (.inr hx)
  have hold (x : NodeId) (hx : v'.contains x) (hxa : s.isAlive x = false) :
      v.contains x :=
    ((hv x).1 hx).resolve_left fun hx => by
      simp [h.consistent.isAlive_of_uses hx.1] at hxa
  refine
    { consistent := h2.consistent h1.consistent
      keeps := h.keeps.trans (h1.keeps.toKeepsLists.trans h2.keeps)
      visited := hvisited
      start := hmem p h.start
      doomed := fun x hx => ?_
      queue := fun x hx hxa => ?_
      alive := fun x hx => h.alive x ((halive x).1 hx).2
      dead := fun x hgx hx => ?_
      closed := fun x hx hxa u hu hf => ?_
      tolerated := fun x hx hxa u hu => ?_
      node? := fun x => ?_
      predecessor? := fun x => ?_ }
  · rcases (hv x).1 hx with ⟨hx, -, hf⟩ | hx
    · exact (h.doomed id hid).user (holdUser x hx) hf
    · exact h.doomed x hx
  · obtain ⟨hne, hxa⟩ := (halive x).1 hxa
    by_cases hxv : v.contains x
    · have := h.queue x hxv hxa
      rw [hq, List.mem_cons] at this
      exact (hqueue x).2 (.inl (this.resolve_left hne))
    · exact (hqueue x).2 (.inr ⟨((hv x).1 hx).resolve_right hxv, by simpa using hxv⟩)
  · by_cases hne : x = id
    · exact hmem x (hne ▸ hid)
    · exact hmem x (h.dead x hgx (hdead x hx hne))
  · by_cases hne : x = id
    · subst hne
      by_cases hux : u = x
      · exact hmem u (hux ▸ hid)
      · exact (huser u hu).elim (fun hu => (hv u).2 (.inl ⟨hu, hux, hf⟩)) (hmem u)
    · have hxs := hdead x hxa hne
      exact hmem u (h.closed x (hold x hx hxs) hxs u hu hf)
  · by_cases hne : x = id
    · subst hne
      refine (huser u hu).elim (htolerant u) fun hu => ?_
      obtain ⟨c, hc, hf⟩ := (Option.any_eq_true _ _).1 ((h.doomed u hu).followsPhi hp)
      simp [hc, toleratesLoss, hf]
    · have hxs := hdead x hxa hne
      exact h.tolerated x (hold x hx hxs) hxs u hu
  · rw [h2.node?]
    by_cases hne : x = id
    · subst hne
      have hx2 : ¬ s2.isAlive x := fun hx => ((halive x).1 hx).1 rfl
      rw [if_pos rfl, hn0, Option.map_some, remnant, if_neg hx2, if_pos (h.alive x ha),
        Node.clear_keeping]
    · rw [if_neg hne, hnode1, h.node?, Option.map_map]
      cases hn : g.node? x with
      | none => rfl
      | some m =>
        rw [Option.map_some, Option.map_some, Function.comp_apply]
        congr 1
        by_cases hxa : s.isAlive x
        · rw [remnant, if_pos hxa, remnant, if_pos ((halive x).2 ⟨hne, hxa⟩), Node.keeping_keeping]
          refine Node.keeping_congr fun t _ => ?_
          rw [Bool.eq_iff_iff, halive]
          simp [and_comm]
        · -- a node that is gone has no inputs
          have hx2 : ¬ s2.isAlive x := fun hx => hxa ((halive x).1 hx).2
          have hm : s.node? x = some (g.remnant s x m) := by rw [h.node?, hn, Option.map_some]
          rw [Node.keeping_eq_self, remnant, if_neg hxa, remnant, if_neg hx2]
          intro t ht
          rw [← uses_of_node? hm] at ht
          exact absurd (h.consistent.isAlive_of_uses ht) hxa
  · have hsucc : (n0.keeping fun t => s.isAlive t && decide (t ≠ id)).uses .successors x = 0 := by
      show (n0.uses .successors x) = 0
      simp [Node.uses, Node.slots, hsuccessors, Links.slots]
    rw [h2.predecessor?, hsucc, if_neg (by simp), h1.predecessor?, h.predecessor?]

/-- The deletion of `p` is stopped: a node that stays needs one that goes. -/
def Stopped (g : Graph) (p : NodeId) (cause : Fault) : Prop :=
  ∃ x, g.Doomed p x ∧ cause = .phiInUse x ∧
    ∃ u, 0 < g.uses .inputs u x ∧ (g.cls? u).any toleratesLoss = false

theorem meets_deleteQueued (h : Purging g p s work v) (hg : g.Consistent)
    (hshaped : ∀ x n, g.Doomed p x → g.node? x = some n → n.Shaped) (hp : (g.cls? p).any followsPhi)
    (hpred : ∀ x, g.Doomed p x → g.predecessor? x = none)
    (hfuel : work.stepsLeft v s.bound ≤ fuel) :
    Meets (deleteQueued fuel work) s (fun _ s' => Purges g s' p ∧ g.Expendable p) (Stopped g p) := by
  induction fuel generalizing s work v with
  | zero =>
    exact h.finish
      (List.length_eq_zero_iff.1 (by unfold Worklist.stepsLeft at hfuel; omega))
  | succ fuel ih =>
    unfold deleteQueued
    cases hq : work.queue with
    | nil =>
      simp only [Worklist.first?, hq, List.head?_nil]
      exact h.finish hq
    | cons id rest =>
      simp only [Worklist.first?, hq, List.head?_cons]
      have hpop := Worklist.queue_pop hq
      have hsteps : work.pop.stepsLeft v s.bound ≤ fuel := by
        unfold Worklist.stepsLeft at hfuel ⊢
        rw [hq, List.length_cons] at hfuel
        rw [hpop]
        omega
      refine meets_read.2 ?_
      cases ha : s.isAlive id with
      | false => exact ih (h.pop_of_not_isAlive hq ha) hsteps
      | true =>
        simp only [Bool.not_true, Bool.false_eq_true, if_false]
        have husers (u : NodeId) (hu : u ∈ s.users id) : s.isAlive u :=
          h.consistent.isAlive_user hu
        have hreg (u : NodeId) (hu : u ∈ s.users id) : (s.node? u).isSome :=
          registered_of_isAlive (husers u hu)
        refine meets_bind.2 ((meets_usages (registered_of_isAlive ha)).2 ?_)
        refine (Frame.meets_dependents hreg).bind ?_
        rintro _ s ⟨rfl, rfl⟩
        refine (Frame.meets_classes hreg).bind ?_
        rintro classes s ⟨rfl, hclasses⟩
        by_cases htolerant : classes.all toleratesLoss
        swap
        · rw [if_neg htolerant]
          obtain ⟨c, hc, hloss⟩ : ∃ c ∈ classes, toleratesLoss c = false := by
            simpa using htolerant
          obtain ⟨u, hu, hcu⟩ := List.mem_map.1 (hclasses ▸ List.mem_map_of_mem hc)
          refine ⟨id, h.doomed id (h.visited.queue id (by simp [hq])), rfl, u, ?_, ?_⟩
          · rw [← if_pos (t := g.uses .inputs u id) (e := 0) ha, ← uses_of_remnants h.node? (husers u hu)]
            exact h.consistent.uses_of_mem_users hu
          · rw [← cls?_of_remnants h.node?, hcu]
            exact hloss
        rw [if_pos htolerant]
        have hlt (x : NodeId)
            (hx : x ∈ (s.users id).filter fun u => u ≠ id ∧ (s.cls? u).any followsPhi) :
            x.index < s.bound :=
          index_lt_of_isAlive (husers x (List.mem_of_mem_filter hx))
        obtain ⟨v', hvisited, hv, hqueue, hsteps'⟩ := h.visited.pop.addAll _ hlt
        have htolerant' (u : NodeId) (hu : u ∈ s.users id) : (s.cls? u).any toleratesLoss := by
          obtain ⟨c, hc, hcu⟩ := List.mem_map.1 (hclasses ▸ List.mem_map_of_mem hu)
          rw [← hcu]
          exact List.all_eq_true.1 htolerant c hc
        rw [← bind_assoc]
        refine meets_bind.2 ((h.meets_step hg hshaped hp hpred hq ha (by simpa [hpop] using hqueue)
          hvisited (by simpa using hv) htolerant').mono (fun _ s1 h1 => ?_) fun _ => False.elim)
        exact ih h1 (by rw [h1.keeps.bound, ← h.keeps.bound]; exact hsteps'.trans hsteps)

end Purging

/-- Deleting a phi takes away exactly the nodes that go with it, or is stopped. -/
theorem meets_deletePhi (hg : g.Consistent)
    (hshaped : ∀ x n, g.Doomed p x → g.node? x = some n → n.Shaped)
    (hp : (g.cls? p).any followsPhi) (hpa : g.isAlive p)
    (hpred : ∀ x, g.Doomed p x → g.predecessor? x = none) :
    Meets (deletePhi p) g (fun _ g' => Purges g g' p ∧ g.Expendable p) (Purging.Stopped g p) := by
  have hcreate := Worklist.visited_create g
  have hqueue : ((Worklist.create g true).add p).queue = [p] := by
    rw [hcreate.queue_add]
    simp [Worklist.create]
  have hvisited (x : NodeId) : ((NodeSet.sizedFor g).insert p).contains x ↔ x = p := by
    simp
  have hstart : Purging g p g ((Worklist.create g true).add p) ((NodeSet.sizedFor g).insert p) :=
    { consistent := hg
      keeps := (Keeps.refl g).toKeepsLists
      visited := hcreate.add
      start := (hvisited p).2 rfl
      doomed := fun x hx => (hvisited x).1 hx ▸ .self
      queue := fun x hx _ => by rw [hqueue, (hvisited x).1 hx]; exact List.mem_singleton_self p
      alive := fun _ => id
      dead := fun x hx hx' => by simp [hx] at hx'
      closed := fun x hx hxa => by simp [(hvisited x).1 hx, hpa] at hxa
      tolerated := fun x hx hxa => by simp [(hvisited x).1 hx, hpa] at hxa
      node? := fun x => ?_
      predecessor? := fun _ => rfl }
  refine meets_read.2 (hstart.meets_deleteQueued hg hshaped hp hpred
    ((hcreate.stepsLeft_add (index_lt_of_isAlive hpa)).trans ?_))
  · unfold Worklist.stepsLeft
    have := Finset.card_filter_le (Finset.range g.bound)
      fun i => ¬ (NodeSet.sizedFor g).contains ⟨i⟩ = true
    rw [Finset.card_range] at this
    have hnil : (Worklist.create g true).queue.length = 0 := rfl
    omega
  · cases hn : g.node? x with
    | none => rfl
    | some n =>
      rw [Option.map_some, remnant]
      split
      · rw [Node.keeping_eq_self]
        intro t ht
        rw [← uses_of_node? hn] at ht
        exact hg.isAlive_target ht
      · rfl

/-- In a consistent graph whose phis and proxies have no predecessors, deleting a live phi takes away
exactly the nodes that go with it, if no node that stays needs one of them. If one does, the
deletion is stopped at a node that it needs. -/
theorem deletePhi_purges (hg : g.Consistent) (hshaped : ∀ x n, g.node? x = some n → n.Shaped)
    (hpred : ∀ x c, g.cls? x = some c → followsPhi c = true → g.predecessor? x = none)
    (hp : g.cls? p = some .phi) (hpa : g.isAlive p = true) :
    (g.Expendable p → ∃ g', deletePhi p g = .ok ((), g') ∧ Purges g g' p) ∧
      (¬ g.Expendable p → ∃ x u, g.Doomed p x ∧ 0 < g.uses .inputs u x ∧
        (g.cls? u).any toleratesLoss = false ∧ deletePhi p g = .error (.phiInUse x)) := by
  have hfollows : (g.cls? p).any followsPhi = true := by rw [hp]; rfl
  have hmeets := meets_deletePhi hg (fun x n _ => hshaped x n) hfollows hpa fun x hx => by
    obtain ⟨c, hc, hf⟩ := (Option.any_eq_true _ _).1 (hx.followsPhi hfollows)
    exact hpred x c hc hf
  cases hrun : deletePhi p g with
  | ok r =>
    obtain ⟨hpurges, hexp⟩ := hmeets.of_ok hrun
    exact ⟨fun _ => ⟨r.2, rfl, hpurges⟩, fun hno => absurd hexp hno⟩
  | error cause =>
    obtain ⟨x, hx, rfl, u, hu, hneeds⟩ := hmeets.of_error hrun
    refine ⟨fun hexp => ?_, fun _ => ⟨x, u, hx, hu, hneeds, rfl⟩⟩
    simp [hexp x hx u hu] at hneeds

/-- Two phis that have each other as an input, and a frame state that holds one of them. -/
def crossedPhis : List Call :=
  [.add .merge, .intern (.int 7), .add (.ofInputs (.phi .int) [.one (some ⟨0⟩), .many [some ⟨1⟩]]),
    .add (.ofInputs (.phi .int) [.one (some ⟨0⟩), .many [some ⟨2⟩, some ⟨2⟩]]),
    .replaceFirstInput ⟨2⟩ ⟨1⟩ (some ⟨3⟩), .add (.frameState "" 0 [some ⟨1⟩, some ⟨2⟩] [] false)]

/-- Whether every node has the shape of its class, and no phi or proxy a predecessor. -/
def wellShaped (g : Graph) : Bool :=
  g.entries.items.all fun e =>
    decide e.node.Shaped && (!followsPhi e.node.cls || e.predecessor.isNone)

theorem shaped_of_wellShaped (h : g.wellShaped) :
    (∀ x n, g.node? x = some n → n.Shaped) ∧
      ∀ x c, g.cls? x = some c → followsPhi c → g.predecessor? x = none := by
  have hall (x : NodeId) (e : Entry) (he : g.get? x = some e) :=
    Array.all_eq_true_iff_forall_mem.1 h e (Array.mem_of_getElem? he)
  simp only [Bool.and_eq_true, decide_eq_true_eq] at hall
  refine ⟨fun x n hn => ?_, fun x c hc hf => ?_⟩
  · obtain ⟨e, he, rfl⟩ := get?_of_node? hn
    exact (hall x e he).1
  · obtain ⟨n, hn, rfl⟩ := Option.map_eq_some_iff.1 hc
    obtain ⟨e, he, rfl⟩ := get?_of_node? hn
    have := (hall x e he).2
    rw [predecessor?_of_get? he]
    simpa [show followsPhi e.node.cls from hf] using this

theorem deletePhi_purges_crossedPhis : ∃ g g', Call.runAll crossedPhis (empty "") = .ok ((), g) ∧
    deletePhi ⟨2⟩ g = .ok ((), g') ∧ g'.nodes = [⟨0⟩, ⟨1⟩, ⟨4⟩] ∧ Purges g g' ⟨2⟩ := by
  obtain ⟨⟨_, g⟩, hrun, htest⟩ := exists_ok_of_any (r := Call.runAll crossedPhis (empty ""))
    (p := fun r => r.2.wellShaped && r.2.isAlive ⟨2⟩ && r.2.cls? ⟨2⟩ == some .phi &&
      (deletePhi ⟨2⟩ r.2).toOption.any fun r' => r'.2.nodes == [⟨0⟩, ⟨1⟩, ⟨4⟩])
    (by decide +kernel)
  simp only [Bool.and_eq_true, beq_iff_eq] at htest
  obtain ⟨⟨⟨hshape, ha⟩, hc⟩, hdelete⟩ := htest
  have hg : g.Consistent := Call.consistent_of_runAll (by simp [crossedPhis, Call.WiresDeleted]) hrun
  obtain ⟨hshaped, hpred⟩ := shaped_of_wellShaped hshape
  obtain ⟨⟨_, g'⟩, hok, hnodes⟩ := exists_ok_of_any hdelete
  obtain ⟨hpurges, hstopped⟩ := deletePhi_purges hg hshaped hpred hc ha
  by_cases hexp : g.Expendable ⟨2⟩
  · obtain ⟨g'', hok', h⟩ := hpurges hexp
    obtain rfl : g' = g'' := congrArg Prod.snd (Except.ok.inj (hok.symm.trans hok'))
    exact ⟨g, g', hrun, hok, by simpa using hnodes, h⟩
  · obtain ⟨x, u, -, -, -, herror⟩ := hstopped hexp
    cases hok.symm.trans herror

/-- A phi that is negated. -/
def negatedPhi : List Call :=
  [.add .merge, .intern (.int 7), .add (.ofInputs (.phi .int) [.one (some ⟨0⟩), .many [some ⟨1⟩]]),
    .intern (.negate .int ⟨2⟩)]

theorem deletePhi_negatedPhi : ∃ g, Call.runAll negatedPhi (empty "") = .ok ((), g) ∧
    g.Consistent ∧ g.wellShaped = true ∧ g.isAlive ⟨2⟩ = true ∧ g.cls? ⟨2⟩ = some .phi ∧
    deletePhi ⟨2⟩ g = .error (.phiInUse ⟨2⟩) := by
  obtain ⟨⟨_, g⟩, hrun, htest⟩ := exists_ok_of_any (r := Call.runAll negatedPhi (empty ""))
    (p := fun r => r.2.wellShaped && r.2.isAlive ⟨2⟩ && r.2.cls? ⟨2⟩ == some .phi &&
      failsWith (deletePhi ⟨2⟩ r.2) (.phiInUse ⟨2⟩))
    (by decide +kernel)
  simp only [Bool.and_eq_true, beq_iff_eq] at htest
  obtain ⟨⟨⟨hshape, ha⟩, hc⟩, hdelete⟩ := htest
  have hg : g.Consistent := Call.consistent_of_runAll (by simp [negatedPhi, Call.WiresDeleted]) hrun
  exact ⟨g, hrun, hg, hshape, ha, hc, eq_error_of_failsWith hdelete⟩

end Graph

end SeaOfNodes
