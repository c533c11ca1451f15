import SeaOfNodes.Graph.Lifecycle
import SeaOfNodes.Proofs.Graph.LeafSharing

/-!
# The identity of nodes

Handles are given out in turn, and a handle names one node for ever: deleting a node leaves a mark in
its place that still tells its handle. The counts of nodes and the lists by class are kept beside the
nodes, and the lists are compacted only now and then. Over a whole run they agree with the nodes.
-/

namespace SeaOfNodes

namespace Lifecycle

/-- Raw handles of deleted nodes can be told from others, and from each other, below this number. -/
def rawLimit : Nat := 1147483648

variable {index : Nat}

theorem toInt_ofNat (h : index < rawLimit) : (Int32.ofNat index).toInt = index :=
  Int32.toInt_ofNat_of_lt (h.trans (by decide))

theorem ofRaw_ofNat (h : index < rawLimit) : ofRaw (.ofNat index) = .alive index := by
  have hint := toInt_ofNat h
  have hpos : (0 : Int32) ≤ .ofNat index := by
    rw [Int32.le_iff_toInt_le, hint]
    exact Int.natCast_nonneg index
  rw [ofRaw, if_pos hpos, hint, Int.toNat_natCast]

theorem toInt_deletedRaw (h : index < rawLimit) :
    (deletedRaw index).toInt = -1000000000 - index := by
  have hbase : deletedBase.toInt = -1000000000 := rfl
  rw [deletedRaw, Int32.toInt_sub, toInt_ofNat h, hbase]
  unfold rawLimit at h
  exact Int.bmod_eq_of_le (by omega) (by omega)

theorem ofRaw_deletedRaw (h : index < rawLimit) :
    ofRaw (deletedRaw index) = .deleted index := by
  have hbase : deletedBase.toInt = -1000000000 := rfl
  have hint := toInt_deletedRaw h
  have hneg : ¬ (0 : Int32) ≤ deletedRaw index := by
    rw [Int32.le_iff_toInt_le, hint, Int32.toInt_zero]
    omega
  have hbelow : deletedRaw index ≤ deletedBase := by
    rw [Int32.le_iff_toInt_le, hint, hbase]
    omega
  have hback : (deletedBase - deletedRaw index).toInt = index := by
    rw [Int32.toInt_sub, hint, hbase]
    unfold rawLimit at h
    rw [Int.bmod_eq_of_le (by omega) (by omega)]
    omega
  rw [ofRaw, if_neg hneg, if_pos hbelow, hback, Int.toNat_natCast]

end Lifecycle

namespace Graph

variable {g g' : Graph}

/-- What handles, counts and lists tell of the nodes of a graph. -/
structure Accounted (g : Graph) : Prop where
  /-- Handles are given out without gaps. -/
  registered : ∀ x, (g.get? x).isSome ↔ x.index < g.bound
  /-- A raw handle tells the handle, and whether the node is deleted. -/
  raw : ∀ x e, g.get? x = some e →
    Lifecycle.ofRaw (e.raw x) = if e.alive then .alive x.index else .deleted x.index
  aliveCount : g.aliveCount = g.nodes.length
  deletedCount : g.deletedCount = ((List.range g.bound).filter fun i => !g.isAlive ⟨i⟩).length
  mem_nodesOf : ∀ c x, x ∈ g.nodesOf c ↔ g.isAlive x = true ∧ g.cls? x = some c
  ascending : ∀ c, (g.nodesOf c).Pairwise (·.index < ·.index)

/-- What has become of the nodes of an earlier graph, and which nodes are new. -/
structure Succeeds (g g' : Graph) : Prop where
  ops : ∀ x op, g.op? x = some op → g'.op? x = some op
  deleted : ∀ x, g.IsDeleted x → g'.IsDeleted x
  mem_nodesSince : ∀ x, x ∈ g'.nodesSince g.bound ↔ g'.isAlive x = true ∧ g.node? x = none
  ascending : (g'.nodesSince g.bound).Pairwise (·.index < ·.index)

theorem Tidy.accounted (hg : g.Tidy) (hbound : g.bound < Lifecycle.rawLimit) : g.Accounted where
  registered x := isSome_get?_iff
  raw x e he := by
    have hlt : x.index < Lifecycle.rawLimit :=
      (isSome_get?_iff.1 (by simp [he])).trans hbound
    unfold Entry.raw
    split
    · exact Lifecycle.ofRaw_ofNat hlt
    · exact Lifecycle.ofRaw_deletedRaw hlt
  aliveCount := by
    have := hg.indexed.counted
    unfold aliveCount
    omega
  deletedCount := by
    have hcounted := hg.indexed.counted
    have hsplit := List.length_eq_length_filter_add (l := List.range g.bound) fun i => g.isAlive ⟨i⟩
    have hnodes : g.nodes.length = ((List.range g.bound).filter fun i => g.isAlive ⟨i⟩).length := by
      rw [nodes_eq_range, List.filter_map, List.length_map]
      rfl
    rw [List.length_range] at hsplit
    omega
  mem_nodesOf c x := by
    rw [nodesOf, List.mem_filter, and_comm]
    exact and_congr_right fun ha => ⟨hg.indexed.classes c x, fun hc => hg.indexed.enlisted x c hc ha⟩
  ascending c := (hg.indexed.ascending c).filter _

theorem Evolves.succeeds (h : Evolves g g') : Succeeds g g' where
  ops := h.ops.ops
  deleted x hx := by
    obtain ⟨n, hn⟩ := Option.isSome_iff_exists.1 hx.1
    have hop := h.ops.ops x _ (op?_of_node? hn)
    refine ⟨?_, ?_⟩
    · by_contra hnone
      simp [op?, Option.not_isSome_iff_eq_none.1 hnone] at hop
    · by_contra ha
      have := h.ops.alive x _ (op?_of_node? hn) (by simpa using ha)
      simp [hx.2] at this
  mem_nodesSince x := by
    rw [nodesSince, List.mem_filter, mem_nodes]
    refine and_congr_right fun _ => ?_
    rw [decide_eq_true_eq, ← not_lt, ← isSome_get?_iff, node?, Option.map_eq_none_iff,
      Option.not_isSome_iff_eq_none]
  ascending := (pairwise_nodes g').filter _

/-- Handles, raw handles, counts and lists of nodes over a whole run. At the end of every run, they
agree with the nodes there are; of the nodes at an earlier time none has become another and no deleted
one has come back, and what has been registered since can be told by the handles. The next node to
be registered gets the next handle. -/
theorem identity_of_run (hg : Reachable g) {steps : List Step}
    (hrun : Step.runAll steps g = .ok ((), g')) (hbound : g'.bound < Lifecycle.rawLimit) :
    g'.Accounted ∧ Succeeds g g' ∧ ∀ n id g'', addFresh n g' = .ok (id, g'') →
      id.index = g'.bound ∧ g''.bound = g'.bound + 1 ∧ g''.node? id = some n := by
  have hev : Evolves g g' := (evolving_iff.1 (evolving_runAll steps) g hg.tidy).of_ok hrun
  refine ⟨hev.tidy.accounted hbound, hev.succeeds, fun n id g'' hadd => ?_⟩
  have hadds := (meets_addFresh_evolves hev.tidy n).of_ok hadd
  exact ⟨hadds.1.fresh, hadds.1.bound, by rw [hadds.1.node?, if_pos rfl]⟩

/-- Eighteen merges, all but the last of which are deleted, and one more. -/
def mergesDeleted : List Step :=
  List.replicate 18 (.call (.add .merge)) ++
    (List.range 17).map (fun i => .call (.delete ⟨i⟩)) ++ [.call (.add .merge)]

/-- The list of merges is compacted on the way. -/
theorem identity_of_run_mergesDeleted : ∃ g, Step.runAll mergesDeleted (empty "") = .ok ((), g) ∧
    g.idsOf .merge = [⟨17⟩, ⟨18⟩] ∧ g.deletedCount = 17 ∧ g.Accounted ∧ Succeeds (empty "") g := by
  obtain ⟨⟨_, g⟩, hrun, htest⟩ := exists_ok_of_any (r := Step.runAll mergesDeleted (empty ""))
    (p := fun r => r.2.idsOf .merge == [⟨17⟩, ⟨18⟩] && r.2.deletedCount == 17 && r.2.bound == 19)
    (by decide +kernel)
  simp only [Bool.and_eq_true, beq_iff_eq] at htest
  obtain ⟨⟨hids, hcount⟩, hbound⟩ := htest
  obtain ⟨haccounted, hsucceeds, -⟩ := identity_of_run (.empty "") hrun (by rw [hbound]; decide)
  exact ⟨g, hrun, hids, hcount, haccounted, hsucceeds⟩

end Graph

end SeaOfNodes
