import SeaOfNodes.Graph.Duplicate
import SeaOfNodes.Proofs.Graph.Consistency
import SeaOfNodes.Proofs.Repetition

/-!
# Every operation keeps both ends of the edges

A call of any operation that changes a graph, if it returns, leaves a consistent graph consistent,
with one exception: the operations that write an edge do not all look whether the nodes at its ends
are deleted. A call that gives an edge to a deleted node, or makes a deleted node a successor, is
accepted, and then the graph is not consistent any more. Runs that do not do so stay consistent.
-/

namespace SeaOfNodes.Graph

variable {g g' : Graph} {id x t : NodeId} {n n' m : Node} {d : Direction} {field : Nat}
  {old new : Option NodeId} {g'' : Graph}

/-- A handle names a deleted node. -/
def IsDeleted (g : Graph) (id : NodeId) : Prop := (g.node? id).isSome ∧ g.isAlive id = false

theorem IsDeleted.ne_of_isAlive {y : NodeId} (h : g.IsDeleted x) (hy : g.isAlive y) : x ≠ y := by
  rintro rfl
  simp [h.2] at hy

theorem not_isDeleted_iff (h : (g.node? id).isSome) : ¬ g.IsDeleted id ↔ g.isAlive id := by
  simp [IsDeleted, h]

/-- The same handles name nodes, and the same nodes are alive. -/
structure SameNodes (g g' : Graph) : Prop where
  registered : ∀ x, (g'.node? x).isSome = (g.node? x).isSome
  isAlive : ∀ x, g'.isAlive x = g.isAlive x

theorem SameNodes.refl (g : Graph) : SameNodes g g := ⟨fun _ => rfl, fun _ => rfl⟩

theorem SameNodes.trans (h : SameNodes g g') (h' : SameNodes g' g'') :
    SameNodes g g'' :=
  ⟨fun x => (h'.registered x).trans (h.registered x), fun x => (h'.isAlive x).trans (h.isAlive x)⟩

theorem SameNodes.bound (h : SameNodes g g') : g'.bound = g.bound := by
  have hlt (i : Nat) : i < g'.bound ↔ i < g.bound := by
    have := h.registered ⟨i⟩
    rw [node?, Option.isSome_map, node?, Option.isSome_map] at this
    rw [← show (g'.get? ⟨i⟩).isSome ↔ i < g'.bound from isSome_get?_iff, this, isSome_get?_iff]
  have h1 := hlt g.bound
  have h2 := hlt g'.bound
  omega

theorem SameNodes.isDeleted (h : SameNodes g g') (x : NodeId) : g'.IsDeleted x ↔ g.IsDeleted x := by
  rw [IsDeleted, h.registered, h.isAlive, IsDeleted]

theorem Rewires.sameNodes (h : Rewires g g' id d n n' old new) : SameNodes g g' :=
  ⟨fun x => by rw [h.node?, isSome_ite_node? h.node], h.isAlive⟩

/-- The graph stays consistent, with the same nodes. -/
structure Stays (g g' : Graph) : Prop where
  consistent : g'.Consistent
  sameNodes : SameNodes g g'

theorem Stays.refl (h : g.Consistent) : Stays g g := ⟨h, .refl g⟩

theorem Stays.trans (h : Stays g g') (h' : Stays g' g'') : Stays g g'' :=
  ⟨h'.consistent, h.sameNodes.trans h'.sameNodes⟩

/-- No edge starts or ends at a deleted node. -/
structure Sealed (g : Graph) : Prop where
  live : ∀ x t, g.isAlive x = true → g.IsDeleted t →
    (∀ d, g.uses d x t = 0) ∧ t ∉ g.users x ∧ g.predecessor? x ≠ some t
  deleted : ∀ x, g.IsDeleted x →
    (∀ d t, g.uses d x t = 0) ∧ g.users x = [] ∧ g.predecessor? x = none

theorem Consistent.sealed (hg : g.Consistent) : g.Sealed where
  deleted x hx := hg.deleted x hx.1 hx.2
  live x t _ ht := by
    refine ⟨fun d => ?_, fun hu => ?_, fun hp => ?_⟩
    · by_contra hne
      exact ht.ne_of_isAlive (hg.isAlive_target (Nat.pos_of_ne_zero hne)) rfl
    · exact ht.ne_of_isAlive (hg.isAlive_user hu) rfl
    · have hone := hg.successor t x hp
      rw [(hg.deleted t ht.1 ht.2).1] at hone
      cases hone

/-- The graph is consistent if a condition holds, and otherwise an edge starts or ends at a deleted
node. -/
structure Hinges (g : Graph) (p : Prop) : Prop where
  holds : g.Sealed → p
  consistent : p → g.Consistent

theorem Consistent.hinges (hg : g.Consistent) {p : Prop} (hp : p) : g.Hinges p :=
  ⟨fun _ => hp, fun _ => hg⟩

theorem Hinges.congr {p q : Prop} (h : g.Hinges p) (hpq : p ↔ q) : g.Hinges q :=
  ⟨fun hs => hpq.1 (h.holds hs), fun hq => h.consistent (hpq.2 hq)⟩

theorem Rewires.hinges (h : Rewires g g' id d n n' old new) (he : n.Edit n' d field old new)
    (hg : g.Consistent) (hreg : ∀ t, new = some t → (g.node? t).isSome) :
    g'.Hinges (∀ t, new = some t → g.isAlive id ∧ g.isAlive t) where
  holds hs t ht := by
    have hpos := h.uses_new_pos he ht
    have hid : g.isAlive id := by
      by_contra ha
      have hd : g.IsDeleted id := ⟨by simp [h.node], by simpa using ha⟩
      have := (hs.deleted id ((h.sameNodes.isDeleted id).2 hd)).1 d t
      omega
    refine ⟨hid, ?_⟩
    by_contra ha
    have hd : g.IsDeleted t := ⟨hreg t ht, by simpa using ha⟩
    have := (hs.live id t ((h.isAlive id).trans hid) ((h.sameNodes.isDeleted t).2 hd)).1 d
    omega
  consistent hall := by
    refine h.consistent he hg (fun hne => ?_) fun t ht => (hall t ht).2
    obtain ⟨t, ht⟩ := Option.ne_none_iff_exists'.1 hne
    exact (hall t ht).1

/-! ### Steps made of steps -/

instance {R : Graph → Graph → Prop} {α : Type} (e : Fault) : Carries R (fail e : GraphM α) := .throw e

instance (id : NodeId) : Observes (entry id) :=
  ⟨fun _ => meets_entry.2 ⟨fun _ _ => rfl, fun _ => trivial⟩⟩

instance (id : NodeId) : Observes (node id) :=
  ⟨fun _ => meets_node.2 ⟨fun _ _ => rfl, fun _ => trivial⟩⟩

instance (id : NodeId) : Observes (label id) :=
  ⟨fun _ => meets_label.2 ⟨fun _ _ => rfl, fun _ => trivial⟩⟩

instance observes_requireAlive (wiring : Wiring) (id : NodeId) : Observes (requireAlive wiring id) :=
  ⟨fun _ => meets_requireAlive.2 ⟨fun _ => rfl, fun _ _ _ => trivial, fun _ => trivial⟩⟩

instance (wiring : Wiring) (value : Option NodeId) : Observes (requireAlive? wiring value) :=
  ⟨fun _ => meets_requireAlive?.ensures fun _ _ h => h.1⟩

instance (id : NodeId) (d : Direction) (name : String) : Observes (fieldIndex id d name) :=
  ⟨fun _ => meets_fieldIndex.2 ⟨fun _ _ => ⟨fun _ _ => rfl, fun _ => trivial⟩, fun _ => trivial⟩⟩

instance (id : NodeId) : Observes (next? id) :=
  ⟨fun _ => meets_next?.2 ⟨fun _ _ => ⟨fun _ _ => rfl, fun _ => trivial⟩, fun _ => trivial⟩⟩

instance (accept : Graph → NodeId → Bool) (user : NodeId) :
    Observes (do return accept (← get) user : GraphM Bool) := ⟨fun _ => rfl⟩

instance (map : Renaming) (sameGraph : Bool) (old : NodeId) (n : Node) (value : Option NodeId) :
    Observes (value.mapM (mapInput map sameGraph old n)) := ⟨fun g => by
  cases value with
  | none => exact rfl
  | some input =>
    simp only [Option.mapM_some, meets_map]
    unfold mapInput
    split
    · exact rfl
    · split
      · exact rfl
      · trivial⟩

section

variable {R : Graph → Graph → Prop} [IsPreorder Graph R]

instance [∀ id p value, Carries R (setEdge id p value)] (id : NodeId) (d : Direction) (name : String)
    (value : Option NodeId) : Carries R (setField id d name value) := by
  unfold setField
  infer_instance

instance [∀ id d name value, Carries R (setField id d name value)] (id : NodeId)
    (next : Option NodeId) : Carries R (setNext id next) := by
  unfold setNext setSuccessor
  infer_instance

instance [∀ n, Carries R (addFresh n)] (n : Node) : Carries R (add n) := by
  unfold add
  dsimp only
  infer_instance

instance [∀ n, Carries R (addFresh n)] [∀ n, Carries R (intern n)] (n : Node) :
    Carries R (addOrIntern n) := by
  unfold addOrIntern
  infer_instance

instance [∀ n, Carries R (addFresh n)] [∀ n, Carries R (intern n)] (id : NodeId) (kept : KeptEdges) :
    Carries R (cloneNode id kept) := by
  unfold cloneNode
  infer_instance

instance [∀ nodes map policy same, Carries R (duplicateNodes nodes map policy same)]
    (ids : List NodeId) (source : Graph) (replacements : Renaming) :
    Carries R (addDuplicates ids source replacements) := by
  unfold addDuplicates
  infer_instance

instance [∀ nodes map policy same, Carries R (duplicateNodes nodes map policy same)]
    (ids : List NodeId) (replacements : Renaming) : Carries R (duplicateInPlace ids replacements) := by
  unfold duplicateInPlace
  infer_instance

variable [∀ id o new, Carries R (replaceFirstInput id o new)]

instance carries_replaceInputs (id o : NodeId) (new : Option NodeId) (k : Nat) :
    Carries R (replaceInputs id o new k) := by
  induction k with
  | zero => exact .pure 0
  | succ k ih =>
    unfold replaceInputs
    infer_instance

instance (id o : NodeId) (new : Option NodeId) : Carries R (replaceAllInputs id o new) := by
  unfold replaceAllInputs
  infer_instance

instance (id : NodeId) (other : Option NodeId) (user : NodeId) :
    Carries R (replaceAtUser id other user) := by
  unfold replaceAtUser
  infer_instance

instance (id : NodeId) (other : Option NodeId) {accept : NodeId → GraphM Bool}
    [∀ user, Observes (accept user)] : Carries R (replaceAtUsagesWhere id other accept) := by
  unfold replaceAtUsagesWhere
  infer_instance

instance (id : NodeId) (other : Option NodeId) : Carries R (replaceAtUsages id other) := by
  unfold replaceAtUsages
  dsimp only
  infer_instance

end

/-- A consistent graph stays so. -/
def Steady (g g' : Graph) : Prop := g.Consistent → g'.Consistent

instance : IsPreorder Graph Steady where
  refl _ hg := hg
  trans _ _ _ h h' hg := h' (h hg)

/-! ### Writing edges -/

/-- A write through a handle keeps a graph consistent exactly if it does not give an edge to a
deleted node. -/
def WritesTo (g : Graph) (id : NodeId) (value : Option NodeId) (g' : Graph) : Prop :=
  g'.Hinges (¬ (value.isSome ∧ g.IsDeleted id)) ∧ SameNodes g g'

theorem Rewires.writesTo (h : Rewires g g' id d n n' old new) (he : n.Edit n' d field old new)
    (hg : g.Consistent) (hnew : ∀ t, new = some t → g.isAlive t) : g.WritesTo id new g' := by
  refine ⟨(h.hinges he hg fun t ht => registered_of_isAlive (hnew t ht)).congr ?_, h.sameNodes⟩
  rw [not_and, not_isDeleted_iff (by simp [h.node])]
  constructor
  · intro hall hs
    obtain ⟨t, ht⟩ := Option.isSome_iff_exists.1 hs
    exact (hall t ht).1
  · rintro ha t rfl
    exact ⟨ha rfl, hnew t rfl⟩

theorem WritesTo.stays (h : g.WritesTo id new g') (ha : g.isAlive id) : Stays g g' :=
  ⟨h.1.2 fun hd => by simp [hd.2.2] at ha, h.2⟩

theorem setEdge_writesTo (hg : g.Consistent) (id : NodeId) (p : Position) (value : Option NodeId) :
    Ensures (setEdge id p value) g (fun _ g' => g.WritesTo id value g') := by
  refine (meets_setEdge hg.packed id p value).ensures fun old g' h => ?_
  obtain ⟨n, n', hput, rfl, halive, hr⟩ := h
  exact hr.writesTo (Node.edit_of_put hput) hg halive

theorem pushEdge_writesTo (hg : g.Consistent) (id : NodeId) (d : Direction) (name : String)
    (value : Option NodeId) :
    Ensures (pushEdge id d name value) g (fun _ g' => g.WritesTo id value g') := by
  refine (meets_pushEdge hg.packed id d name value).ensures fun p g' h => ?_
  obtain ⟨n, n', field, -, hpush, halive, hr⟩ := h
  exact hr.writesTo (Node.edit_of_push hpush) hg halive

theorem setField_writesTo (hg : g.Consistent) (id : NodeId) (d : Direction) (name : String)
    (value : Option NodeId) :
    Ensures (setField id d name value) g (fun _ g' => g.WritesTo id value g') := by
  unfold setField
  exact meets_bind.2 (meets_fieldIndex.2 ⟨fun n _ =>
    ⟨fun field _ => setEdge_writesTo hg id _ value, fun _ => trivial⟩, fun _ => trivial⟩)

theorem setNext_writesTo (hg : g.Consistent) (id : NodeId) (next : Option NodeId) :
    Ensures (setNext id next) g (fun _ g' => g.WritesTo id next g') :=
  (setField_writesTo hg id .successors "next" next).bind fun _ _ h => h

instance (id : NodeId) (p : Position) : Carries Steady (dropEdge id p) := by
  refine carries_iff.2 fun g hg => (meets_dropEdge hg.packed id p).ensures fun old g' h => ?_
  obtain ⟨n, rfl, hr⟩ := h
  exact hr.consistent (Node.edit_removeAt n p) hg (by simp) (by simp)

/-! ### Replacing -/

/-- The graph stays consistent, and nothing but inputs and usage lists changes. -/
structure Revalues (g g' : Graph) : Prop where
  stays : Stays g g'
  predecessor? : ∀ x, g'.predecessor? x = g.predecessor? x
  successors : ∀ x t, g'.uses .successors x t = g.uses .successors x t

theorem Revalues.refl (h : g.Consistent) : Revalues g g :=
  ⟨.refl h, fun _ => rfl, fun _ _ => rfl⟩

theorem Revalues.trans (h : Revalues g g') (h' : Revalues g' g'') : Revalues g g'' :=
  ⟨h.stays.trans h'.stays, fun x => (h'.predecessor? x).trans (h.predecessor? x),
    fun x t => (h'.successors x t).trans (h.successors x t)⟩

/-- In a consistent graph only inputs and usage lists change. -/
def Revalued (g g' : Graph) : Prop := g.Consistent → Revalues g g'

instance : IsPreorder Graph Revalued where
  refl _ := .refl
  trans _ _ _ h h' hg := (h hg).trans (h' (h hg).stays.consistent)

instance (priority := low) {α : Type} {act : GraphM α} [Carries Revalued act] : Carries Steady act :=
  ⟨fun g => (carried Revalued g).imp fun _ _ h hg => (h hg).stays.consistent⟩

instance (id o : NodeId) (new : Option NodeId) : Carries Revalued (replaceFirstInput id o new) := by
  refine carries_iff.2 fun g hg => (meets_replaceFirstInput hg.packed id o new).ensures fun b g' h => ?_
  obtain ⟨halive, n, hn, ⟨-, rfl, -⟩ | ⟨-, n', hr, h⟩⟩ := h
  · exact .refl hg
  · obtain ⟨field, he⟩ := Node.edit_of_replaceFirst hr
    have hid : g.isAlive id = true :=
      hg.isAlive_of_uses (d := .inputs) (t := o) (by rw [uses_of_node? hn]; exact he.uses_old_pos)
    exact {
      stays := ⟨h.consistent he hg (fun _ => hid) halive, h.sameNodes⟩
      predecessor? := fun x => by simpa using h.predecessor? x
      successors := fun x t => by simpa using h.uses he .successors x t }

instance (id : NodeId) (role : Role) (other : Option NodeId) :
    Carries Steady (replaceAtUsagesOfRole id role other) := by
  refine carries_iff.2 fun g hg => ?_
  unfold replaceAtUsagesOfRole
  refine meets_bind.2 (meets_entry.2 ⟨fun e he => ?_, fun _ => trivial⟩)
  refine (Meets.forIn_passed (fun _ s => Stays g s) (.refl hg) fun user done rest s hsplit hs => ?_).bind
    fun _ _ h => h.consistent
  have hu : user ∈ done ++ user :: rest := by simp
  rw [← hsplit, mem_eraseReps, List.mem_mergeSort, ← users_of_get? he] at hu
  refine meets_bind.2 (meets_node.2 ⟨fun m _ => ?_, fun _ => trivial⟩)
  refine (Meets.forIn (fun _ s => Stays g s) hs fun p _ s' hs' => ?_).bind fun _ _ h => ⟨rfl, h⟩
  refine (setEdge_writesTo hs'.consistent user p other).bind fun _ s'' h => ⟨rfl, hs'.trans (h.stays ?_)⟩
  rw [hs'.sameNodes.isAlive]
  exact hg.isAlive_user hu

/-- Making `new` a successor in place of `o` keeps a graph consistent exactly if `new` is not
deleted. -/
theorem replaceFirstSuccessor_hinges (hg : g.Consistent) (id o : NodeId)
    (new : Option NodeId) :
    Ensures (replaceFirstSuccessor id o new) g
      (fun b g' => (b ↔ 0 < g.uses .successors id o) ∧
        g'.Hinges (¬ (b ∧ ∃ t, new = some t ∧ g.IsDeleted t)) ∧
        SameNodes g g' ∧ g'.Packed ∧
        (b → ∀ t, new = some t → g.IsDeleted t → g'.predecessor? t ≠ none) ∧
        ∀ x, x ≠ id → g'.node? x = g.node? x) := by
  refine (meets_replaceFirstSuccessor hg.packed id o new).ensures fun b g' h => ?_
  obtain ⟨n, hn, ⟨rfl, rfl, hz⟩ | ⟨rfl, n', hr, h⟩⟩ := h
  · exact ⟨by simp [uses_of_node? hn, hz], hg.hinges (by simp), .refl g', hg.packed, by simp, fun _ _ => rfl⟩
  · obtain ⟨field, he⟩ := Node.edit_of_replaceFirst hr
    have hpos : 0 < g.uses .successors id o := by rw [uses_of_node? hn]; exact he.uses_old_pos
    have hreg (t : NodeId) (ht : new = some t) : (g.node? t).isSome := by
      by_cases hon : some o = new
      · obtain rfl := Option.some.inj (hon.trans ht)
        exact hg.registered_target hpos
      · obtain ⟨m, hm⟩ := exists_node?_of_predecessor? (g := g') (t := t) (x := id)
          (by rw [h.predecessor?, if_neg (by simpa using hon), if_pos ht])
        rw [h.node?] at hm
        split at hm
        · subst_vars; simp [hn]
        · simp [hm]
    refine ⟨by simpa using hpos, (h.hinges he hg hreg).congr ?_, h.sameNodes, h.packed, ?_, ?_⟩
    · constructor
      · rintro hall ⟨-, t, ht, hd⟩
        exact hd.ne_of_isAlive (hall t ht).2 rfl
      · intro hno t ht
        refine ⟨hg.isAlive_of_uses hpos, ?_⟩
        by_contra ha
        exact hno ⟨rfl, t, ht, hreg t ht, by simpa using ha⟩
    · intro _ t ht hd
      have hne : some o ≠ new := by
        rintro rfl
        obtain rfl := Option.some.inj ht
        exact hd.ne_of_isAlive (hg.isAlive_target hpos) rfl
      rw [h.predecessor?, if_neg (by simpa using hne), if_pos ht]
      simp
    · intro x hx
      rw [h.node?, if_neg hx]

/-- Putting `other` in the place of a node at its predecessor keeps a graph consistent exactly if
there is no predecessor or `other` is not deleted. -/
theorem replaceAtPredecessor_hinges (hg : g.Consistent) (id : NodeId)
    (other : Option NodeId) :
    Ensures (replaceAtPredecessor id other) g
      (fun _ g' =>
        g'.Hinges (¬ (g.predecessor? id ≠ none ∧ ∃ t, other = some t ∧ g.IsDeleted t)) ∧
        SameNodes g g' ∧ g'.Packed ∧
        (g.predecessor? id ≠ none → ∀ t, other = some t → g.IsDeleted t → g'.predecessor? t ≠ none) ∧
        ∀ x, g.predecessor? id ≠ some x → g'.node? x = g.node? x) := by
  unfold replaceAtPredecessor
  refine meets_bind.2 (meets_entry.2 ⟨fun e he => ?_, fun _ => trivial⟩)
  have hp := predecessor?_of_get? he
  cases hpe : e.predecessor with
  | none =>
    exact ⟨hg.hinges (by simp [hp, hpe]), .refl g, hg.packed, by simp [hp, hpe], fun _ _ => rfl⟩
  | some p =>
    have hone : g.uses .successors p id = 1 := hg.successor p id (hp.trans hpe)
    refine (replaceFirstSuccessor_hinges hg p id other).bind fun b g' h => ?_
    obtain ⟨hb, hiff, hsame, hpacked, hpred, hnode⟩ := h
    obtain rfl : b := by rw [hb, hone]; exact Nat.one_pos
    simp only [if_true, meets_pure, hp, hpe]
    refine ⟨by simpa using hiff, hsame, hpacked, fun _ => hpred rfl, fun x hx => hnode x ?_⟩
    rintro rfl
    exact hx rfl

/-! ### Dropping edges and deleting -/

theorem Clears.sameNodes (h : Clears g g' id d n) : SameNodes g g' :=
  ⟨fun x => by rw [h.node?, isSome_ite_node? h.node], h.isAlive⟩

instance (id : NodeId) : Carries Steady (clearInputs id) :=
  carries_iff.2 fun _ hg => (meets_clearInputs hg.packed id).ensures fun _ _ ⟨_, h⟩ => h.consistent hg

instance (id : NodeId) : Carries Steady (clearSuccessors id) :=
  carries_iff.2 fun _ hg => (meets_clearSuccessors hg.packed id).ensures fun _ _ ⟨_, h⟩ => h.consistent hg

instance (id : NodeId) : Carries Steady (delete id) :=
  carries_iff.2 fun _ hg => (meets_delete hg.packed id).ensures fun _ _ ⟨_, h⟩ => h.consistent hg

instance (id : NodeId) : Carries Steady (spliceOut id) := by
  refine carries_iff.2 fun g hg => ?_
  unfold spliceOut
  refine meets_bind.2 (meets_entry.2 ⟨fun e _ => ?_, fun _ => trivial⟩)
  split
  · refine meets_bind.2 (meets_next?.2 ⟨fun n hn => ⟨fun field _ => ?_, fun _ => trivial⟩,
      fun _ => trivial⟩)
    -- where control goes on is alive, and stays so
    have halive (t : NodeId) (ht : n.get (Position.of .successors field 0) = some t) :
        g.isAlive t = true :=
      hg.isAlive_target (d := .successors)
        (by rw [uses_of_node? hn]; exact Node.uses_pos_of_get ht)
    refine (setNext_writesTo hg id none).bind fun _ g1 h1 => ?_
    have hg1 : g1.Consistent := h1.1.2 (by simp)
    refine (replaceAtPredecessor_hinges hg1 id _).bind fun _ g2 h2 => ?_
    refine (carried Steady g2).imp fun _ _ h => h (h2.1.2 ?_)
    rintro ⟨-, t, ht, hd⟩
    exact hd.ne_of_isAlive ((h1.2.isAlive t).trans (halive t ht)) rfl
  · simp only [meets_bind, meets_label, meets_fail]
    exact ⟨fun _ _ => trivial, fun _ => trivial⟩

/-- Putting `other` in the place of a node everywhere and deleting the node keeps a graph consistent
exactly if the node has no predecessor but itself or `other` is not deleted. -/
theorem replaceAndDelete_hinges (hg : g.Consistent) (id other : NodeId) :
    Ensures (replaceAndDelete id other) g
      (fun _ g' => g'.Hinges
        (¬ (g.IsDeleted other ∧ ∃ p, g.predecessor? id = some p ∧ p ≠ id))) := by
  unfold replaceAndDelete
  refine meets_bind.2 ((meets_clearSuccessors hg.packed id).ensures fun _ g1 h1 => ?_)
  obtain ⟨n, h1⟩ := h1
  have hg1 := h1.consistent hg
  -- a predecessor that is left is not the node itself
  have hself (t : NodeId) : g1.uses .successors id t = 0 := by
    rw [uses_of_node? (n := n.clear .successors) (by simp [h1.node?]), Node.uses_clear]
  have hpred : (∃ p, g.predecessor? id = some p ∧ p ≠ id) ↔ g1.predecessor? id ≠ none := by
    rw [h1.predecessor?_eq hg]
    by_cases hp : g.predecessor? id = some id
    · simp [hp]
    · cases hp' : g.predecessor? id with
      | none => simp
      | some p =>
        have : p ≠ id := by rintro rfl; exact hp hp'
        simp [this]
  refine Meets.bind (carried Revalued g1) fun _ g2 h2 => ?_
  have h2 := h2 hg1
  refine (replaceAtPredecessor_hinges h2.stays.consistent id (some other)).bind fun _ g3 h3 => ?_
  obtain ⟨hiff, hsame, hpacked, hkept, hnode⟩ := h3
  have hdel : g2.IsDeleted other ↔ g.IsDeleted other :=
    (h2.stays.sameNodes.isDeleted other).trans (h1.sameNodes.isDeleted other)
  rw [h2.predecessor? id, ← hpred] at hiff hkept
  refine (meets_delete hpacked id).ensures fun _ g4 h4 => ?_
  obtain ⟨m, h4⟩ := h4
  constructor
  · rintro hg4 ⟨hd, hp⟩
    -- the deleted node has a predecessor now, and deleting `id` does not take it away
    have hne : g2.predecessor? id ≠ some id := fun e => by
      have := hg1.successor id id (by rw [← h2.predecessor?, e])
      rw [hself] at this
      cases this
    have hbare : m.uses .successors other = 0 := by
      rw [← uses_of_node? h4.node, uses, hnode id hne, ← uses, h2.successors, hself]
    have hd3 : g3.IsDeleted other := (hsame.isDeleted other).2 (hdel.2 hd)
    have hd4 : g4.IsDeleted other := by
      rw [IsDeleted, h4.node?, h4.isAlive]
      split
      · exact ⟨rfl, rfl⟩
      · exact hd3
    have := (hg4.deleted other hd4).2.2
    rw [h4.predecessor?, hbare, if_neg (by simp)] at this
    exact hkept hp other rfl (hdel.2 hd) this
  · intro hno
    refine h4.consistent (hiff.2 ?_)
    rintro ⟨hp, _, ⟨⟩, hd⟩
    exact hno ⟨hdel.1 hd, hp⟩

/-! ### Adding and copying -/

/-- The graph stays consistent, and nodes that are alive stay alive. -/
structure Grows (g g' : Graph) : Prop where
  consistent : g'.Consistent
  isAlive : ∀ x, g.isAlive x = true → g'.isAlive x = true

theorem Grows.refl (h : g.Consistent) : Grows g g := ⟨h, fun _ => id⟩

theorem Grows.trans (h : Grows g g') (h' : Grows g' g'') : Grows g g'' :=
  ⟨h'.consistent, fun x hx => h'.isAlive x (h.isAlive x hx)⟩

theorem Stays.grows (h : Stays g g') : Grows g g' :=
  ⟨h.consistent, fun x hx => (h.sameNodes.isAlive x).trans hx⟩

theorem Forgets.grows (h : Forgets g g') (hg : g.Consistent) : Grows g g' :=
  ⟨h.consistent hg, fun x hx => (h.isAlive x).trans hx⟩

theorem Adds.grows (h : Adds g g' id n) (hg : g.Consistent) : Grows g g' := by
  refine ⟨h.consistent hg, fun x hx => ?_⟩
  rw [h.isAlive]
  split
  · rfl
  · exact hx

theorem Adds.isAlive_self (h : Adds g g' id n) : g'.isAlive id := by rw [h.isAlive, if_pos rfl]

theorem Found.isAlive (h : g.Found n id) (hg : g.Consistent) : g.isAlive id := by
  obtain ⟨m, -, -, ⟨-, ha⟩ | ⟨-, t, -, hu⟩⟩ := h
  · exact ha
  · exact hg.isAlive_user hu

theorem Shares.grows (h : Shares g g' id n) (hg : g.Consistent) : Grows g g' := by
  cases h with
  | found same _ => exact same.grows hg
  | added adds => exact adds.grows hg

theorem Shares.isAlive (h : Shares g g' id n) (hg : g.Consistent) : g'.isAlive id := by
  cases h with
  | found same found => rw [same.isAlive]; exact found.isAlive hg
  | added adds => exact adds.isAlive_self

theorem addFresh_grows (hg : g.Consistent) (n : Node) :
    Ensures (addFresh n) g (fun id g' => Grows g g' ∧ g'.isAlive id) :=
  (meets_addFresh hg.packed n).ensures fun _ _ h => ⟨h.grows hg, h.isAlive_self⟩

theorem intern_grows (hg : g.Consistent) (n : Node) :
    Ensures (intern n) g (fun id g' => Grows g g' ∧ g'.isAlive id) := by
  cases hv : n.op.isValueNumberable with
  | true =>
    exact (meets_intern hg.packed hv).ensures fun _ _ h => ⟨h.grows hg, h.isAlive hg⟩
  | false =>
    unfold intern
    simp [hv]

instance (n : Node) : Carries Steady (addFresh n) :=
  carries_iff.2 fun _ hg => (addFresh_grows hg n).imp fun _ _ h => h.1.consistent

instance (n : Node) : Carries Steady (intern n) :=
  carries_iff.2 fun _ hg => (intern_grows hg n).imp fun _ _ h => h.1.consistent

instance (n : Node) : Carries Steady (findEqual n) :=
  carries_iff.2 fun _ hg => (meets_findEqual n).ensures fun _ _ h => h.1.consistent hg

theorem addLeaf_grows (hg : g.Consistent) (n : Node) :
    Ensures (addLeaf n) g (fun id g' => Grows g g' ∧ g'.isAlive id) :=
  (meets_addLeaf hg.packed n).ensures fun _ _ h => ⟨h.grows hg, h.isAlive_self⟩

theorem addBare_grows (hg : g.Consistent) (policy : LeafPolicy) (n : Node) :
    Ensures (addBare policy n) g (fun id g' => Grows g g' ∧ g'.isAlive id) := by
  unfold addBare
  simp only
  split
  · cases policy with
    | shared => exact intern_grows hg _
    | oneToOne => exact addLeaf_grows hg _
  · exact addFresh_grows hg _

theorem attach_grows (hg : g.Consistent) (ha : g.isAlive id) (n : Node) (p : Position)
    (target : Option NodeId) :
    Ensures (attach id n p target) g (fun _ g' => Grows g g') := by
  unfold attach
  split
  · split
    · exact (pushEdge_writesTo hg id _ _ target).bind fun _ _ h => (h.stays ha).grows
    · split
      · exact (setEdge_writesTo hg id p target).bind fun _ _ h => (h.stays ha).grows
      · exact .refl hg
  · exact .refl hg

theorem lookup_filter_ne {κ β : Type} [DecidableEq κ] (pairs : List (κ × β)) {a x : κ} (h : x ≠ a) :
    (pairs.filter (·.1 ≠ a)).lookup x = pairs.lookup x := by
  induction pairs with
  | nil => rfl
  | cons p rest ih =>
    obtain ⟨k, v⟩ := p
    by_cases hk : k = a
    · subst hk
      rw [List.filter_cons_of_neg (by simp), ih, List.lookup_cons, beq_eq_false_iff_ne.2 h]
    · rw [List.filter_cons_of_pos (by simp [hk]), List.lookup_cons, List.lookup_cons, ih]

theorem get?_insert (r : Renaming) (a b x : NodeId) :
    (r.insert a b).get? x = if x = a then some b else r.get? x := by
  show ((a, b) :: r.pairs.filter (·.1 ≠ a)).lookup x = _
  rw [List.lookup_cons]
  by_cases h : x = a
  · simp [h]
  · rw [lookup_filter_ne r.pairs h, beq_eq_false_iff_ne.2 h, if_neg h]
    rfl

/-- The first round of copying: each node gets a copy without edges. -/
def addCopies (policy : LeafPolicy) (nodes : List (NodeId × Node)) (replacements : Renaming) : GraphM Renaming :=
  nodes.foldlM (fun map p => return map.insert p.1 (← addBare policy p.2)) replacements

/-- The other rounds: the slots of the copies are written in one direction. -/
def connect (map : Renaming) (d : Direction)
    (resolve : NodeId → Node → Option NodeId → GraphM (Option NodeId)) (nodes : List (NodeId × Node)) :
    GraphM PUnit :=
  forIn nodes PUnit.unit fun q _ => do
    if let some new := map.get? q.1 then
      for x in q.2.walk d do attach new q.2 x.1 (← resolve q.1 q.2 x.2)
    return ForInStep.yield PUnit.unit

theorem duplicateNodes_eq (nodes : List (NodeId × Node)) (replacements : Renaming) (policy : LeafPolicy)
    (sameGraph : Bool) : duplicateNodes nodes replacements policy sameGraph = do
      let map ← addCopies policy nodes replacements
      connect map .inputs (fun old n v => v.mapM (mapInput map sameGraph old n)) nodes
      connect map .successors (fun _ _ v => pure (v.bind map.get?)) nodes
      return map := rfl

/-- The first round of copying keeps an invariant on the nodes that have their copy. -/
theorem meets_firstRound {policy : LeafPolicy} {nodes : List (NodeId × Node)} {replacements : Renaming}
    {fail : Fault → Prop} (inv : Renaming → List (NodeId × Node) → Graph → Prop)
    (hg : inv replacements [] g)
    (step : ∀ q done rest map s, nodes = done ++ q :: rest → inv map done s →
      Meets (addBare policy q.2) s (fun id s' => inv (map.insert q.1 id) (done ++ [q]) s') fail) :
    Meets (addCopies policy nodes replacements) g (fun map s => inv map nodes s) fail := by
  refine (Meets.foldlM (fun rest map s => ∃ done, nodes = done ++ rest ∧ inv map done s) ⟨[], rfl, hg⟩
    fun q rest map s ⟨done, hdone, h⟩ => ?_).imp fun map s ⟨done, hdone, h⟩ => ?_
  · exact (step q done rest map s hdone h).bind fun id s' h' => ⟨done ++ [q], by simp [hdone], h'⟩
  · rwa [hdone, List.append_nil]

/-- Among nodes with handles of their own, one is apart from those before it. -/
theorem not_mem_of_nodup {nodes done rest : List (NodeId × Node)} {q : NodeId × Node}
    (hnodup : (nodes.map (·.1)).Nodup) (hdone : nodes = done ++ q :: rest) : q.1 ∉ done.map (·.1) := by
  rw [hdone, List.map_append, List.map_cons, List.nodup_middle, List.nodup_cons] at hnodup
  exact fun hmem => hnodup.1 (List.mem_append_left _ hmem)

/-- Copies are made first, and all of them are alive. -/
theorem addCopies_grows (hg : g.Consistent) (policy : LeafPolicy) (nodes : List (NodeId × Node))
    (replacements : Renaming) :
    Ensures (addCopies policy nodes replacements) g
      (fun map g' => Grows g g' ∧
        ∀ p ∈ nodes, ∀ new, map.get? p.1 = some new → g'.isAlive new) := by
  refine meets_firstRound (fun map done s => Grows g s ∧
    ∀ p ∈ done, ∀ new, map.get? p.1 = some new → s.isAlive new = true) ⟨.refl hg, nofun⟩
    fun p done _ map s _ ⟨hs, halive⟩ => ?_
  refine (addBare_grows hs.consistent policy p.2).imp fun id s' h => ?_
  refine ⟨hs.trans h.1, fun q hq new hnew => ?_⟩
  rw [get?_insert] at hnew
  split at hnew
  · cases hnew
    exact h.2
  · rename_i hne
    rcases List.mem_append.1 hq with hq | hq
    · exact h.1.isAlive new (halive q hq new hnew)
    · exact absurd (by rw [List.mem_singleton.1 hq]) hne

instance (nodes : List (NodeId × Node)) (replacements : Renaming) (policy : LeafPolicy)
    (sameGraph : Bool) : Carries Steady (duplicateNodes nodes replacements policy sameGraph) := by
  refine carries_iff.2 fun g hg => ?_
  rw [duplicateNodes_eq]
  refine (addCopies_grows hg policy nodes replacements).bind fun map g1 h1 => ?_
  obtain ⟨h1, halive⟩ := h1
  -- the edges of the copies in one direction
  have edges (s : Graph) (hs : Grows g1 s) (d : Direction)
      (resolve : NodeId → Node → Option NodeId → GraphM (Option NodeId))
      (hr : ∀ old n v, Observes (resolve old n v)) :
      Ensures (connect map d resolve nodes) s (fun _ s' => Grows g1 s') := by
    refine Meets.forIn_passed (fun _ s => Grows g1 s) hs fun q done rest s hq hs => ?_
    cases hnew : map.get? q.1 with
    | none => exact ⟨rfl, hs⟩
    | some new =>
      have ha := halive q (by simp [hq]) new hnew
      refine (Meets.forIn (fun _ s => Grows g1 s) hs fun x _ s hs => ?_).bind fun _ _ h => ⟨rfl, h⟩
      refine ((hr q.1 q.2 x.2).ensures s).bind fun v s' h => ?_
      subst h
      exact (attach_grows hs.consistent (hs.isAlive new ha) q.2 x.1 v).bind
        fun _ _ h => ⟨rfl, hs.trans h⟩
  refine (edges g1 (.refl h1.consistent) .inputs _ inferInstance).bind fun _ g2 h2 => ?_
  exact (edges g2 h2 .successors _ inferInstance).bind fun _ _ h => h.consistent

/-! ### Calls -/

/-- A call of an operation that changes a graph. -/
inductive Call
  | add (n : Node)
  | addFresh (n : Node)
  | addOrIntern (n : Node)
  | intern (n : Node)
  | findEqual (n : Node)
  | setEdge (id : NodeId) (p : Position) (value : Option NodeId)
  | pushEdge (id : NodeId) (d : Direction) (name : String) (value : Option NodeId)
  | dropEdge (id : NodeId) (p : Position)
  | setInput (id : NodeId) (name : String) (value : Option NodeId)
  | setSuccessor (id : NodeId) (name : String) (value : Option NodeId)
  | setNext (id : NodeId) (next : Option NodeId)
  | setStateAfter (id : NodeId) (state : Option NodeId)
  | addForwardEnd (merge forwardEnd : NodeId)
  | addPhiInput (phi : NodeId) (value : Option NodeId)
  | replaceFirstInput (id old : NodeId) (new : Option NodeId)
  | replaceAllInputs (id old : NodeId) (new : Option NodeId)
  | replaceFirstSuccessor (id old : NodeId) (new : Option NodeId)
  | replaceAtUsages (id : NodeId) (other : Option NodeId)
  /-- The test may look at the graph as it is when it comes to a user. -/
  | replaceAtUsagesWhere (id : NodeId) (other : Option NodeId) (accept : Graph → NodeId → Bool)
  | replaceAtUsagesOfRole (id : NodeId) (role : Role) (other : Option NodeId)
  | replaceAtPredecessor (id : NodeId) (other : Option NodeId)
  | replaceAndDelete (id other : NodeId)
  | clearInputs (id : NodeId)
  | clearSuccessors (id : NodeId)
  | delete (id : NodeId)
  | spliceOut (id : NodeId)
  | cloneNode (id : NodeId) (kept : KeptEdges)
  | addDuplicates (ids : List NodeId) (source : Graph) (replacements : Renaming)
  | duplicateInPlace (ids : List NodeId) (replacements : Renaming)

/-- What a call does; its result is left out. -/
def Call.run : Call → GraphM Unit
  | .add n => discard (Graph.add n)
  | .addFresh n => discard (Graph.addFresh n)
  | .addOrIntern n => discard (Graph.addOrIntern n)
  | .intern n => discard (Graph.intern n)
  | .findEqual n => discard (Graph.findEqual n)
  | .setEdge id p value => discard (Graph.setEdge id p value)
  | .pushEdge id d name value => discard (Graph.pushEdge id d name value)
  | .dropEdge id p => discard (Graph.dropEdge id p)
  | .setInput id name value => discard (Graph.setInput id name value)
  | .setSuccessor id name value => discard (Graph.setSuccessor id name value)
  | .setNext id next => Graph.setNext id next
  | .setStateAfter id state => Graph.setStateAfter id state
  | .addForwardEnd merge forwardEnd => Graph.addForwardEnd merge forwardEnd
  | .addPhiInput phi value => Graph.addPhiInput phi value
  | .replaceFirstInput id old new => discard (Graph.replaceFirstInput id old new)
  | .replaceAllInputs id old new => discard (Graph.replaceAllInputs id old new)
  | .replaceFirstSuccessor id old new => discard (Graph.replaceFirstSuccessor id old new)
  | .replaceAtUsages id other => Graph.replaceAtUsages id other
  | .replaceAtUsagesWhere id other accept =>
    Graph.replaceAtUsagesWhere id other fun user => return accept (← get) user
  | .replaceAtUsagesOfRole id role other => Graph.replaceAtUsagesOfRole id role other
  | .replaceAtPredecessor id other => Graph.replaceAtPredecessor id other
  | .replaceAndDelete id other => Graph.replaceAndDelete id other
  | .clearInputs id => Graph.clearInputs id
  | .clearSuccessors id => Graph.clearSuccessors id
  | .delete id => Graph.delete id
  | .spliceOut id => Graph.spliceOut id
  | .cloneNode id kept => discard (Graph.cloneNode id kept)
  | .addDuplicates ids source replacements => discard (Graph.addDuplicates ids source replacements)
  | .duplicateInPlace ids replacements => discard (Graph.duplicateInPlace ids replacements)

/-- A call gives an edge to a deleted node, or makes a deleted node a successor. -/
def Call.WiresDeleted (g : Graph) : Call → Prop
  | .setEdge id _ value | .pushEdge id _ _ value | .setInput id _ value | .setSuccessor id _ value
  | .setNext id value | .setStateAfter id value | .addPhiInput id value =>
    value.isSome ∧ g.IsDeleted id
  | .addForwardEnd merge _ => g.IsDeleted merge
  | .replaceFirstSuccessor id old new =>
    0 < g.uses .successors id old ∧ ∃ t, new = some t ∧ g.IsDeleted t
  | .replaceAtPredecessor id other =>
    g.predecessor? id ≠ none ∧ ∃ t, other = some t ∧ g.IsDeleted t
  | .replaceAndDelete id other => g.IsDeleted other ∧ ∃ p, g.predecessor? id = some p ∧ p ≠ id
  | _ => False

theorem meets_discard {α : Type} {act : GraphM α} {post : Unit → Graph → Prop} {fail : Fault → Prop} :
    Meets (discard act) g post fail ↔ Meets act g (fun _ g' => post () g') fail := by
  unfold discard
  exact meets_map

/-- A call that returns leaves a consistent graph consistent unless it wires a deleted node, and then
the deleted node has an edge. -/
theorem Call.meets_run_hinges (hg : g.Consistent) (c : Call) :
    Ensures c.run g (fun _ g' => g'.Hinges (¬ c.WiresDeleted g)) := by
  cases c with
  | setEdge id p value => exact meets_discard.2 ((setEdge_writesTo hg id p value).imp fun _ _ h => h.1)
  | pushEdge id d name value =>
    exact meets_discard.2 ((pushEdge_writesTo hg id d name value).imp fun _ _ h => h.1)
  | setInput id name value | setSuccessor id name value =>
    exact meets_discard.2 ((setField_writesTo hg id _ name value).imp fun _ _ h => h.1)
  | setNext id next => exact (setNext_writesTo hg id next).imp fun _ _ h => h.1
  | setStateAfter id state => exact (setField_writesTo hg id _ _ state).bind fun _ _ h => h.1
  | addForwardEnd merge forwardEnd =>
    exact (pushEdge_writesTo hg merge _ _ (some forwardEnd)).bind fun _ _ h => by
      simpa [Call.WiresDeleted] using h.1
  | addPhiInput phi value => exact (pushEdge_writesTo hg phi _ _ value).bind fun _ _ h => h.1
  | replaceFirstSuccessor id old new =>
    exact meets_discard.2 ((replaceFirstSuccessor_hinges hg id old new).imp fun b _ h =>
      h.2.1.congr (by rw [h.1]; rfl))
  | replaceAtPredecessor id other =>
    exact (replaceAtPredecessor_hinges hg id other).imp fun _ _ h => h.1
  | replaceAndDelete id other => exact replaceAndDelete_hinges hg id other
  | _ =>
    -- the other calls wire nothing that is deleted
    dsimp only [Call.run]
    exact (carried Steady g).imp fun _ _ h => (h hg).hinges not_false

theorem Call.meets_run (hg : g.Consistent) (c : Call) :
    Ensures c.run g (fun _ g' => g'.Consistent ↔ ¬ c.WiresDeleted g) :=
  (c.meets_run_hinges hg).imp fun _ _ h => ⟨fun hg' => h.holds hg'.sealed, h.consistent⟩

/-! ### Runs -/

/-- A call after another. -/
def Call.runAll : List Call → GraphM Unit
  | [] => pure ()
  | c :: rest => do
    c.run
    runAll rest

/-- No call of a run wires a node that is deleted when its turn comes. -/
def Call.NoneWiresDeleted : List Call → Graph → Prop
  | [], _ => True
  | c :: rest, g => ¬ c.WiresDeleted g ∧ ∀ g', c.run g = .ok ((), g') → NoneWiresDeleted rest g'

theorem Call.runAll_consistent (hg : g.Consistent) (calls : List Call)
    (hw : NoneWiresDeleted calls g) :
    Ensures (runAll calls) g (fun _ g' => g'.Consistent) := by
  induction calls generalizing g with
  | nil => exact hg
  | cons c rest ih =>
    obtain ⟨hc, hrest⟩ := hw
    show Meets (c.run >>= fun _ => runAll rest) g _ _
    rw [meets_bind]
    cases hrun : c.run g with
    | ok r => simpa [Meets, hrun] using ih (((c.meets_run hg).of_ok hrun).2 hc) (hrest r.2 hrun)
    | error e => simp [Meets, hrun]

/-- Calls that never wire a deleted node make a consistent graph. -/
theorem Call.consistent_of_runAll {calls : List Call} {name : String}
    (hw : ∀ c ∈ calls, ∀ g, ¬ c.WiresDeleted g) (hrun : runAll calls (empty name) = .ok ((), g)) :
    g.Consistent := by
  have hnone (g : Graph) : NoneWiresDeleted calls g := by
    clear hrun
    induction calls generalizing g with
    | nil => trivial
    | cons c rest ih =>
      exact ⟨hw c (by simp) g, fun g' _ => ih (fun c hc => hw c (by simp [hc])) g'⟩
  exact (runAll_consistent (consistent_empty name) calls (hnone _)).of_ok hrun

/-- The graph without nodes is consistent, and a call that returns leaves a consistent graph
consistent exactly if it wires no deleted node. -/
theorem call_consistent_iff (name : String) (c : Call) (hg : g.Consistent)
    (hrun : c.run g = .ok ((), g')) :
    (empty name).Consistent ∧ (g'.Consistent ↔ ¬ c.WiresDeleted g) :=
  ⟨consistent_empty name, (c.meets_run hg).of_ok hrun⟩

/-- Taking the second of two nodes out of the control flow. -/
theorem call_consistent_spliceOut :
    ∃ g g', Call.runAll [.add (.begin none), .add (.begin (some ⟨0⟩))] (empty "") = .ok ((), g) ∧
      (Call.spliceOut ⟨0⟩).run g = .ok ((), g') ∧ g'.Consistent := by
  obtain ⟨g, hg, g', hg'⟩ :
      ∃ g, Call.runAll [.add (.begin none), .add (.begin (some ⟨0⟩))] (empty "") = .ok ((), g) ∧
        ∃ g', (Call.spliceOut ⟨0⟩).run g = .ok ((), g') := ⟨_, rfl, _, rfl⟩
  have hc : g.Consistent := Call.consistent_of_runAll (by simp [Call.WiresDeleted]) hg
  exact ⟨g, g', hg, hg', (call_consistent_iff "" _ hc hg').2.2 id⟩

/-- A call that returns leaves an edge at a deleted node exactly if it wires one. -/
theorem call_sealed_iff (c : Call) (hg : g.Consistent) (hrun : c.run g = .ok ((), g')) :
    g'.Sealed ↔ ¬ c.WiresDeleted g :=
  have h := (c.meets_run_hinges hg).of_ok hrun
  ⟨h.holds, fun hc => (h.consistent hc).sealed⟩

/-- A successor is replaced by a node that is there, while a third one is deleted. -/
theorem call_sealed_replaced :
    ∃ g g', Call.runAll [.add (.begin none), .add (.begin (some ⟨0⟩)), .add (.begin none),
        .add (.begin none), .delete ⟨3⟩] (empty "") = .ok ((), g) ∧ g.IsDeleted ⟨3⟩ ∧
      (Call.replaceFirstSuccessor ⟨1⟩ ⟨0⟩ (some ⟨2⟩)).run g = .ok ((), g') ∧ g'.Sealed := by
  obtain ⟨g, hg, hd, hw, g', hg'⟩ :
      ∃ g, Call.runAll [.add (.begin none), .add (.begin (some ⟨0⟩)), .add (.begin none),
          .add (.begin none), .delete ⟨3⟩] (empty "") = .ok ((), g) ∧ g.IsDeleted ⟨3⟩ ∧
        g.isAlive ⟨2⟩ = true ∧
        ∃ g', (Call.replaceFirstSuccessor ⟨1⟩ ⟨0⟩ (some ⟨2⟩)).run g = .ok ((), g') :=
    ⟨_, rfl, ⟨rfl, rfl⟩, rfl, _, rfl⟩
  have hc : g.Consistent := Call.consistent_of_runAll (by simp [Call.WiresDeleted]) hg
  refine ⟨g, g', hg, hd, hg', (call_sealed_iff _ hc hg').2 ?_⟩
  rintro ⟨-, _, ⟨⟩, ht⟩
  exact ht.ne_of_isAlive hw rfl

/-- A successor is replaced by a deleted node. -/
theorem replaceFirstSuccessor_deleted_not_sealed :
    ∃ g', Call.runAll [.add (.begin none), .add (.begin (some ⟨0⟩)), .add (.begin none), .delete ⟨2⟩,
        .replaceFirstSuccessor ⟨1⟩ ⟨0⟩ (some ⟨2⟩)] (empty "") = .ok ((), g') ∧ ¬ g'.Sealed := by
  refine ⟨_, rfl, fun h => ?_⟩
  have := (h.live ⟨1⟩ ⟨2⟩ (by decide) ⟨by decide, by decide⟩).1 .successors
  revert this
  decide

/-- A deleted node is given a successor, and keeps it. -/
theorem setNext_deleted_not_consistent :
    ∃ g', Call.runAll [.add (.begin none), .add (.begin none), .delete ⟨0⟩,
        .setNext ⟨0⟩ (some ⟨1⟩)] (empty "") = .ok ((), g') ∧ ¬ g'.Consistent := by
  refine ⟨_, rfl, fun h => ?_⟩
  have := (h.deleted ⟨0⟩ (by decide) (by decide)).1 .successors ⟨1⟩
  revert this
  decide

end SeaOfNodes.Graph
