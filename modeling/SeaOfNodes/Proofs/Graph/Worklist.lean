import SeaOfNodes.Graph.SideTable
import SeaOfNodes.Proofs.BitSet

/-!
# Worklists as queues

A worklist gives nodes back in the order in which it took them in, and holds none twice. Which nodes it
takes in shows in its history: without visits, those that are not queued; with visits, those that it was
never offered before.
-/

namespace SeaOfNodes

namespace NodeSet

variable {s : NodeSet} {x y : NodeId}

@[simp] theorem contains_insert : (s.insert x).contains y ↔ y = x ∨ s.contains y := by
  simp only [contains, insert, BitSet.contains_insert]
  cases x; cases y; simp

theorem contains_erase : (s.erase x).contains y ↔ y ≠ x ∧ s.contains y := by
  simp only [contains, erase, BitSet.contains_erase]
  cases x; cases y; simp

@[simp] theorem contains_sizedFor (g : Graph) : (sizedFor g).contains x = false := by
  simp [contains, sizedFor]

end NodeSet

namespace Worklist

/-- What is asked of a worklist. -/
inductive Request
  | add (id : NodeId)
  | addAll (ids : List NodeId)
  | pop

/-- A worklist with its past: the nodes that it was offered, those that it took in, and those that it
gave back, each oldest first. -/
structure History where
  work : Worklist
  offered : List NodeId := []
  accepted : List NodeId := []
  taken : List NodeId := []

namespace History

variable {h : History} {track : Bool}

/-- A node is offered, and taken in unless it is refused. -/
def offer (h : History) (id : NodeId) : History :=
  { h with
    work := h.work.add id
    offered := h.offered ++ [id]
    accepted := if h.work.refuses id then h.accepted else h.accepted ++ [id] }

/-- One request is served. -/
def serve (h : History) : Request → History
  | .add id => h.offer id
  | .addAll ids => { ids.foldl offer h with work := h.work.addAll ids }
  | .pop => { h with work := h.work.pop, taken := h.taken ++ h.work.first?.toList }

/-- What holds of a worklist with its past at any time. -/
structure Sound (track : Bool) (h : History) : Prop where
  nodup : h.work.queue.Nodup
  queued : ∀ x, h.work.queued.contains x = true ↔ x ∈ h.work.queue
  accepted : h.accepted = h.taken ++ h.work.queue
  visited : ∀ x, h.work.visited.map (·.contains x) = if track then some (decide (x ∈ h.offered)) else none
  first : track = true → h.accepted = h.offered.eraseDups

theorem Sound.refuses (hs : h.Sound track) (x : NodeId) :
    h.work.refuses x = true ↔ x ∈ if track then h.offered else h.work.queue := by
  have hvisited := hs.visited x
  rw [Worklist.refuses, Bool.or_eq_true, hs.queued]
  cases track with
  | false => simp [Option.map_eq_none_iff.1 hvisited]
  | true =>
    obtain ⟨v, hv, hx⟩ := Option.map_eq_some_iff.1 hvisited
    have hqueue (hq : x ∈ h.work.queue) : x ∈ h.offered := by
      rw [← List.mem_eraseDups, ← hs.first rfl, hs.accepted]
      exact List.mem_append_right _ hq
    simpa [hv, hx] using hqueue

theorem Sound.offer (hs : h.Sound track) (x : NodeId) : (h.offer x).Sound track := by
  have hrefuses := hs.refuses x
  have hvisited (y : NodeId) : (h.work.visited.map (·.insert x)).map (·.contains y) =
      if track then some (decide (y ∈ h.offered ++ [x])) else none := by
    have hy := hs.visited y
    cases track with
    | false => simp [Option.map_eq_none_iff.1 hy]
    | true =>
      obtain ⟨v, hv, hy⟩ := Option.map_eq_some_iff.1 hy
      rw [hv]
      exact congrArg some (Bool.eq_iff_iff.2 (by simp [hy, or_comm]))
  have hfirst (ht : track = true) : (h.offered ++ [x]).eraseDups =
      if h.work.refuses x then h.accepted else h.accepted ++ [x] := by
    rw [if_pos ht] at hrefuses
    simp only [List.eraseDups_append, hs.first ht, hrefuses]
    split <;> simp [List.removeAll, List.eraseDups_cons, *]
  by_cases hr : h.work.refuses x
  · have hoffer : h.offer x = { h with
        work := { h.work with visited := h.work.visited.map (·.insert x) }
        offered := h.offered ++ [x] } := by
      simp [History.offer, Worklist.add, hr]
    rw [if_pos hr] at hfirst
    rw [hoffer]
    exact ⟨hs.nodup, hs.queued, hs.accepted, hvisited, fun ht => (hfirst ht).symm⟩
  · have hoffer : h.offer x = { h with
        work := ⟨h.work.queue ++ [x], h.work.queued.insert x, h.work.visited.map (·.insert x)⟩
        offered := h.offered ++ [x]
        accepted := h.accepted ++ [x] } := by
      simp [History.offer, Worklist.add, hr]
    have hnew : x ∉ h.work.queue := fun hx => hr (by simp [Worklist.refuses, (hs.queued x).2 hx])
    rw [if_neg hr] at hfirst
    rw [hoffer]
    refine ⟨?_, fun y => ?_, ?_, hvisited, fun ht => (hfirst ht).symm⟩
    · exact List.nodup_append_comm.1 (List.nodup_cons.2 ⟨hnew, hs.nodup⟩)
    · simp [hs.queued, or_comm]
    · simp [hs.accepted]

theorem Sound.pop (hs : h.Sound track) : (h.serve .pop).Sound track := by
  cases hq : h.work.queue with
  | nil =>
    have hpop : h.serve .pop = h := by simp [serve, Worklist.pop, first?, hq]
    rwa [hpop]
  | cons x rest =>
    have hpop : h.serve .pop = { h with
        work := { h.work with queue := rest, queued := h.work.queued.erase x }
        taken := h.taken ++ [x] } := by
      simp [serve, Worklist.pop, first?, hq]
    have hnodup := List.nodup_cons.1 (hq ▸ hs.nodup)
    rw [hpop]
    refine ⟨hnodup.2, fun y => ?_, by simp [hs.accepted, hq], hs.visited, hs.first⟩
    rw [NodeSet.contains_erase, hs.queued, hq, List.mem_cons]
    refine ⟨fun ⟨hne, hy⟩ => hy.resolve_left hne, fun hy => ⟨?_, .inr hy⟩⟩
    rintro rfl
    exact hnodup.1 hy

theorem work_foldl_offer (h : History) (ids : List NodeId) :
    (ids.foldl offer h).work = h.work.addAll ids := by
  induction ids generalizing h with
  | nil => rfl
  | cons id ids ih => exact ih (h.offer id)

theorem Sound.serve (hs : h.Sound track) (r : Request) : (h.serve r).Sound track := by
  cases r with
  | add id => exact hs.offer id
  | pop => exact hs.pop
  | addAll ids =>
    rw [History.serve, ← work_foldl_offer]
    exact List.foldlRecOn ids History.offer hs fun _ hs id _ => hs.offer id

theorem sound_create (g : Graph) (track : Bool) : History.Sound track { work := create g track } where
  nodup := .nil
  queued x := by simp [create]
  accepted := rfl
  visited x := by cases track <;> simp [create]
  first _ := rfl

end History

/-- At any time, the queue holds no node twice, its marks are right, and what was taken in was given
back in that order or is still queued. A node is queued at the end unless it is refused: while it is
queued, or with visits if it was ever offered before. So with visits, each node is taken in once, when it
is first offered. -/
theorem foldl_serve_fifo (g : Graph) (track : Bool) (requests : List Request) :
    let h := requests.foldl History.serve { work := create g track }
    h.work.queue.Nodup ∧ (∀ x, h.work.queued.contains x = true ↔ x ∈ h.work.queue) ∧
      h.accepted = h.taken ++ h.work.queue ∧
      (∀ x, (h.work.add x).queue = if h.work.refuses x then h.work.queue else h.work.queue ++ [x]) ∧
      (∀ x, h.work.refuses x = true ↔ x ∈ if track then h.offered else h.work.queue) ∧
      (track = true → h.accepted = h.offered.eraseDups) := by
  intro h
  have hs : h.Sound track :=
    List.foldlRecOn requests _ (History.sound_create g track) fun _ hs r _ => hs.serve r
  refine ⟨hs.nodup, hs.queued, hs.accepted, fun x => ?_, hs.refuses, hs.first⟩
  rw [Worklist.add]
  split <;> rfl

end Worklist

end SeaOfNodes
