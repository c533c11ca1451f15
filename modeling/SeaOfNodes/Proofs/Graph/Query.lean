import SeaOfNodes.Graph.Query
import SeaOfNodes.Proofs.Graph.Splicing
import SeaOfNodes.Proofs.Repetition

/-!
# Reading merges and loops

What the queries about phis, ends of loops and sides of merges find, in terms of the joints of the
graph.
-/

namespace SeaOfNodes

variable {J : NodeId → Option Joint} {merge loopBegin : NodeId} {ends ends' : List NodeId}
  {J' : NodeId → Option Joint} {count : Nat} {x : NodeId} {index : Int32} {j : Joint}

/-- The ends of a loop, each once, by place. -/
structure LoopEnds (J : NodeId → Option Joint) (loopBegin : NodeId) (ends : List NodeId) : Prop where
  nodup : ends.Nodup
  mem : ∀ x index, IsLoopEnd J loopBegin x index → x ∈ ends
  place : ∀ (i : Nat) x, ends[i]? = some x → IsLoopEnd J loopBegin x (Int32.ofNat i)

theorem LoopEnds.mem_iff (h : LoopEnds J loopBegin ends) :
    x ∈ ends ↔ ∃ index, IsLoopEnd J loopBegin x index := by
  refine ⟨fun hx => ?_, fun ⟨index, hx⟩ => h.mem x index hx⟩
  obtain ⟨i, hi⟩ := List.mem_iff_getElem?.1 hx
  exact ⟨_, h.place i x hi⟩

theorem LoopEnds.perm (h : LoopEnds J loopBegin ends) (hnodup : ends'.Nodup)
    (hmem : ∀ x, x ∈ ends' ↔ ∃ index, IsLoopEnd J loopBegin x index) : ends'.Perm ends :=
  (List.perm_ext_iff_of_nodup hnodup h.nodup).2 fun x => (hmem x).trans h.mem_iff.symm

/-- From how many sides a merge or a loop is entered. -/
inductive Sides (J : NodeId → Option Joint) (merge : NodeId) : Nat → Prop
  | merge (ends : List (Option NodeId)) (joint : J merge = some ⟨.merge, ends, []⟩) :
    Sides J merge ends.length
  | loop (ends : List (Option NodeId)) (back : List NodeId)
    (joint : J merge = some ⟨.loopBegin, ends, []⟩) (loopEnds : LoopEnds J merge back) :
    Sides J merge (ends.length + back.length)

theorem LoopEnds.congr (h : LoopEnds J loopBegin ends)
    (hiff : ∀ x index, IsLoopEnd J' loopBegin x index ↔ IsLoopEnd J loopBegin x index) :
    LoopEnds J' loopBegin ends :=
  ⟨h.nodup, fun x index hx => h.mem x index ((hiff x index).1 hx), fun i x hx =>
    (hiff x _).2 (h.place i x hx)⟩

theorem LoopEnds.anchored (h : LoopEnds J loopBegin ends) (ha : Anchored J J') : LoopEnds J' loopBegin ends :=
  h.congr fun x _ => ha x _ rfl

theorem Sides.anchored (h : Sides J merge count) (ha : Anchored J J') : Sides J' merge count := by
  cases h with
  | merge ends joint => exact .merge ends ((ha merge _ rfl).2 joint)
  | loop ends back joint loopEnds =>
    exact .loop ends back ((ha merge _ rfl).2 joint) (loopEnds.anchored ha)

theorem Sides.congr (h : Sides J merge count) (hm : J' merge = J merge)
    (hiff : ∀ x index, IsLoopEnd J' merge x index ↔ IsLoopEnd J merge x index) : Sides J' merge count := by
  cases h with
  | merge ends joint => exact .merge ends (hm.trans joint)
  | loop ends back joint loopEnds => exact .loop ends back (hm.trans joint) (loopEnds.congr hiff)

/-- What has sides is a merge or a loop. -/
theorem Sides.joint (h : Sides J merge count) :
    ∃ ends, J merge = some ⟨.merge, ends, []⟩ ∨ J merge = some ⟨.loopBegin, ends, []⟩ := by
  cases h with
  | merge ends joint => exact ⟨ends, .inl joint⟩
  | loop ends back joint => exact ⟨ends, .inr joint⟩

theorem isLoopEnd_update_iff {b y : NodeId} (hj : j.op.cls ≠ .loopEnd)
    (hx : ∀ j, J x = some j → j.op.cls = .merge) :
    IsLoopEnd (Function.update J x (some j)) b y index ↔ IsLoopEnd J b y index := by
  refine ⟨fun h => ?_, fun h => update_of_joint h fun h => by cases hx _ h⟩
  exact ((joint_of_update h).resolve_left fun h => hj (h.2 ▸ rfl)).2

theorem Sides.unique {count' : Nat} (h : Sides J merge count) (h' : Sides J merge count') :
    count = count' := by
  cases h with
  | merge ends h =>
    cases h' with
    | merge ends' h' =>
      rw [h] at h'
      cases h'
      rfl
    | loop ends' back h' =>
      rw [h] at h'
      cases h'
  | loop ends back h hl =>
    cases h' with
    | merge ends' h' =>
      rw [h] at h'
      cases h'
    | loop ends' back' h' hl' =>
      rw [h] at h'
      cases h'
      rw [(hl'.perm hl.nodup fun x => hl.mem_iff).length_eq]

theorem Sides.isSome (h : Sides J merge count) : (J merge).isSome := by
  cases h with
  | merge ends h | loop ends back h => simp [h]

theorem Sides.cls? {g : Graph} (h : Sides g.joint? merge count) :
    g.cls? merge = some .merge ∨ g.cls? merge = some .loopBegin := by
  cases h with
  | merge ends h => exact .inl (Graph.cls?_of_op? (Graph.of_joint? h).2)
  | loop ends back h => exact .inr (Graph.cls?_of_op? (Graph.of_joint? h).2)

/-- The sides of other merges are as before. -/
theorem Sides.update (h : Sides J merge count)
    (hx : ∀ j, J x = some j → j.op.cls = .merge) (hj : j.op.cls ≠ .loopEnd) (hne : merge ≠ x) :
    Sides (Function.update J x (some j)) merge count := by
  cases h with
  | merge ends h => exact .merge ends (by rw [Function.update_of_ne hne, h])
  | loop ends back h hl =>
    exact .loop ends back (by rw [Function.update_of_ne hne, h])
      (hl.congr fun y index => isLoopEnd_update_iff hj hx)

namespace Node

variable {n : Node} {cls? : NodeId → Option NodeClass}

theorem phiMerge?_eq_some_iff (hf : n.Fits cls?) :
    n.phiMerge? = some merge ↔ ∃ kind values, n.joint? = some ⟨.phi kind, [some merge], values⟩ := by
  by_cases hc : n.cls = .phi
  · obtain ⟨kind, hop⟩ := op_of_phi hc
    obtain ⟨m, values, hinputs⟩ := hf.inputs_of_phi hc
    simp [phiMerge?, joint?, hc, hop, hinputs, Links.get, slotsAt, links, Link.slots]
  · have hnone : n.phiMerge? = none := by
      unfold phiMerge?
      split
      · rename_i hop
        exact absurd (congrArg Op.cls hop) hc
      · rfl
    rw [hnone]
    refine iff_of_false (by rintro ⟨⟩) ?_
    rintro ⟨kind, values, hj⟩
    exact hc (congrArg Op.cls (op_of_joint? hj))

theorem loopEndIndex?_eq_some_iff (hf : n.Fits cls?) :
    Graph.loopEndIndex? n loopBegin = some index ↔
      n.joint? = some ⟨.loopEnd index, [some loopBegin], []⟩ := by
  by_cases hc : n.cls = .loopEnd
  · obtain ⟨i, hop⟩ := op_of_loopEnd hc
    obtain ⟨b, hinputs⟩ := hf.inputs_of_loopEnd hc
    simp [Graph.loopEndIndex?, joint?, hc, hop, hinputs, Links.get, slotsAt, links, Link.slots,
      and_comm]
  · have hnone : Graph.loopEndIndex? n loopBegin = none := by
      unfold Graph.loopEndIndex?
      split
      · rename_i hop
        exact absurd (congrArg Op.cls hop) hc
      · rfl
    rw [hnone]
    exact iff_of_false (by rintro ⟨⟩) fun hj => hc (congrArg Op.cls (op_of_joint? hj))

theorem uses_of_loopEnd (hf : n.Fits cls?)
    (hj : n.joint? = some ⟨.loopEnd index, [some loopBegin], []⟩) : n.uses .inputs loopBegin = 1 := by
  have hop : n.op = .loopEnd index := op_of_joint? hj
  obtain ⟨b, hinputs⟩ := hf.inputs_of_loopEnd (congrArg Op.cls hop)
  obtain rfl : b = some loopBegin := by
    simpa [joint?, cls, hop, Op.cls, slotsAt, links, hinputs, Link.slots] using hj
  simp [uses, slots, links, hinputs, Links.slots, Link.slots]

end Node

namespace Graph

variable {g : Graph} {id : NodeId} {n : Node} {cls? : NodeId → Option NodeClass}
  {fail : Fault → Prop}

theorem meets_usages {post : List NodeId → Graph → Prop} (hid : (g.node? id).isSome) :
    Meets (usages id) g post fail ↔ post (g.users id) g := by
  obtain ⟨n, hn⟩ := Option.isSome_iff_exists.1 hid
  obtain ⟨e, he, -⟩ := get?_of_node? hn
  unfold usages
  rw [meets_bind, meets_entry, he]
  simp [users_of_get? he]

theorem phiMerge?_eq_some_iff_isPhi (hn : g.node? id = some n) (hf : n.Fits cls?) (ha : g.isAlive id) :
    n.phiMerge? = some merge ↔ ∃ values, IsPhi g.joint? merge id values := by
  unfold IsPhi
  rw [Node.phiMerge?_eq_some_iff hf, joint?_of_node? hn ha, exists_comm]

/-- Whether a node is a phi of a merge. Of a node that is gone only its class matters. -/
theorem meets_isPhiAt (hn : g.node? id = some n) (hf : n.Fits cls?) :
    Meets (isPhiAt id merge) g
      (fun b g' => g' = g ∧ (b → n.cls = .phi) ∧
        (g.isAlive id → (b ↔ ∃ values, IsPhi g.joint? merge id values))) fail := by
  unfold isPhiAt
  rw [meets_bind, meets_node_of hn]
  refine ⟨rfl, fun h => ?_, fun ha => ?_⟩
  · obtain ⟨kind, values, hj⟩ := (Node.phiMerge?_eq_some_iff hf).1 (by simpa using h)
    exact congrArg Op.cls (Node.op_of_joint? hj)
  · rw [beq_iff_eq, phiMerge?_eq_some_iff_isPhi hn hf ha]

/-- What is found of a list, sorted by what was found there. -/
theorem perm_mergeSort_found {β : Type} (f : NodeId → Option β) (l : List NodeId)
    (le : β × NodeId → β × NodeId → Bool) :
    (((l.filterMap fun u => (f u).map (·, u)).mergeSort le).map (·.2)).Perm
      (l.filter fun u => (f u).isSome) := by
  refine ((List.mergeSort_perm _ _).map _).trans (.of_eq ?_)
  rw [List.map_filterMap, ← List.filterMap_eq_filter]
  refine List.filterMap_congr fun u _ => ?_
  cases h : f u <;> simp [Option.guard, h]

/-- The ends of a loop that are found are all there are, each once. -/
theorem meets_loopEnds (hg : g.Consistent) (hfits : ∀ x n, g.node? x = some n → n.Fits cls?)
    (hid : (g.node? id).isSome) :
    Meets (loopEnds id) g
      (fun r g' => g' = g ∧ r.Nodup ∧ ∀ x, x ∈ r ↔ ∃ index, IsLoopEnd g.joint? id x index) fail := by
  unfold loopEnds
  refine meets_bind.2 ((meets_usages hid).2 ?_)
  have hfound (u : NodeId) (hu : u ∈ g.users id) (index : Int32) :
      (g.node? u).bind (loopEndIndex? · id) = some index ↔ IsLoopEnd g.joint? id u index := by
    obtain ⟨n, hn⟩ := exists_node?_of_isAlive (hg.isAlive_user hu)
    rw [hn, Option.bind_some, Node.loopEndIndex?_eq_some_iff (hfits u n hn), IsLoopEnd,
      joint?_of_node? hn (hg.isAlive_user hu)]
  refine (Meets.filterMapM (fun u => ((g.node? u).bind (loopEndIndex? · id)).map (·, u))
    fun u hu => ?_).bind ?_
  · obtain ⟨n, hn⟩ := exists_node?_of_isAlive (hg.isAlive_user hu)
    rw [meets_bind, meets_node, hn]
    simp
  rintro _ g ⟨rfl, rfl⟩
  refine meets_pure.2 ⟨rfl, ?_⟩
  -- what is found are the users that are ends, and each of them uses the loop once
  have hperm := perm_mergeSort_found (fun u => (g.node? u).bind (loopEndIndex? · id)) (g.users id)
    fun a b => a.1 < b.1 || (a.1 == b.1 && a.2.le b.2)
  have hcount (x : NodeId) (index : Int32) (h : IsLoopEnd g.joint? id x index) :
      (g.users id).count x = 1 := by
    obtain ⟨n, hn, hj⟩ := exists_node?_of_joint? h
    exact (hg.listed x id).trans ((uses_of_node? hn ..).trans (Node.uses_of_loopEnd (hfits x n hn) hj))
  have hmem (x : NodeId) : x ∈ ((g.users id).filter fun u =>
      ((g.node? u).bind (loopEndIndex? · id)).isSome) ↔ ∃ index, IsLoopEnd g.joint? id x index := by
    rw [List.mem_filter]
    constructor
    · rintro ⟨hu, h⟩
      obtain ⟨index, h⟩ := Option.isSome_iff_exists.1 h
      exact ⟨index, (hfound x hu index).1 h⟩
    · rintro ⟨index, h⟩
      have hu : x ∈ g.users id := List.count_pos_iff.1 (by rw [hcount x index h]; exact Nat.one_pos)
      exact ⟨hu, Option.isSome_iff_exists.2 ⟨index, (hfound x hu index).2 h⟩⟩
  refine ⟨hperm.nodup_iff.2 (List.nodup_iff_count_le_one.2 fun x => ?_),
    fun x => hperm.mem_iff.trans (hmem x)⟩
  by_cases hx : x ∈ (g.users id).filter fun u => ((g.node? u).bind (loopEndIndex? · id)).isSome
  · obtain ⟨index, h⟩ := (hmem x).1 hx
    exact (List.filter_sublist.count_le x).trans (hcount x index h).le
  · rw [List.count_eq_zero_of_not_mem hx]
    exact Nat.zero_le 1

/-- Whom a joint is tied to, or what value it holds, it uses. -/
theorem Consistent.mem_users_of_joint? (hg : g.Consistent) {t : NodeId}
    (hx : g.joint? x = some j) (ht : some t ∈ j.first ∨ some t ∈ j.second) : x ∈ g.users t := by
  obtain ⟨n, hn, hj⟩ := exists_node?_of_joint? hx
  rw [hg.mem_users_iff]
  rcases ht with ht | ht
  · rw [Node.first_of_joint? hj] at ht
    exact uses_pos_of_slot hn ht
  · rcases Node.second_of_joint? hj with hj | hj <;> rw [hj] at ht
    · exact uses_pos_of_slot hn ht
    · cases ht

/-- The phis of a merge that are found are all there are, each once. -/
theorem meets_phisAt (hg : g.Consistent) (hfits : ∀ x n, g.node? x = some n → n.Fits cls?)
    (hid : (g.node? merge).isSome) :
    Meets (phisAt merge) g
      (fun r g' => g' = g ∧ r.Nodup ∧ ∀ x, x ∈ r ↔ ∃ values, IsPhi g.joint? merge x values) fail := by
  unfold phisAt
  refine meets_bind.2 ((meets_usages hid).2 ?_)
  refine (Meets.filterM (fun u => ((g.node? u).bind Node.phiMerge?) == some merge) fun u hu => ?_).bind ?_
  · obtain ⟨n, hn⟩ := exists_node?_of_isAlive (hg.isAlive_user hu)
    unfold isPhiAt
    rw [meets_bind, meets_node, hn]
    simp
  rintro _ g ⟨rfl, rfl⟩
  refine meets_pure.2 ⟨rfl, nodup_eraseDups _, fun x => ?_⟩
  rw [List.mem_eraseDups, List.mem_filter]
  have hiff (ha : g.isAlive x) : ((g.node? x).bind Node.phiMerge? == some merge) ↔
      ∃ values, IsPhi g.joint? merge x values := by
    obtain ⟨n, hn⟩ := exists_node?_of_isAlive ha
    rw [hn, Option.bind_some, beq_iff_eq, phiMerge?_eq_some_iff_isPhi hn (hfits x n hn) ha]
  refine ⟨fun ⟨hu, hx⟩ => (hiff (hg.isAlive_user hu)).1 hx, fun hx => ?_⟩
  obtain ⟨values, kind, hj⟩ := hx
  exact ⟨hg.mem_users_of_joint? hj (.inl (List.mem_singleton.2 rfl)),
    (hiff (of_joint? hj).1).2 ⟨values, kind, hj⟩⟩

/-- From how many sides a merge is entered. -/
theorem meets_phiValueCount {c : NodeClass} (hg : g.Consistent)
    (hfits : ∀ x n, g.node? x = some n → n.Fits cls?) (hm : g.cls? merge = some c)
    (hc : c = .merge ∨ c = .loopBegin) :
    Meets (phiValueCount merge) g (fun r g' => g' = g ∧ ∀ sides, Sides g.joint? merge sides → r = sides)
      fail := by
  obtain ⟨n, hn, rfl⟩ := exists_node?_of_cls? hm
  obtain ⟨ends, state, hinputs⟩ := (hfits merge n hn).inputs_of_merge hc
  have hends : n.ends? = some ends := by
    cases hop : n.op <;> simp [Node.cls, hop, Op.cls] at hc <;>
      simp [Node.ends?, hop, Node.inputList, hinputs]
  -- the ends are those of the joint
  have hjoint {op : Op} {ends' : List (Option NodeId)} (h : g.joint? merge = some ⟨op, ends', []⟩) :
      ends' = ends := by
    have := (of_joint? h).1
    rw [joint?_of_node? hn this] at h
    rcases hc with hc | hc <;> simp_all [Node.joint?, Node.slotsAt, Node.links, Link.slots]
  unfold phiValueCount forwardEndCount
  simp only [meets_bind, meets_node, hn, Option.some.injEq, forall_eq', reduceCtorEq, false_implies,
    and_true, hends, meets_pure]
  split
  · rename_i hloop
    refine (meets_loopEnds hg hfits (by simp [hn])).bind ?_
    rintro back g ⟨rfl, hnodup, hmem⟩
    refine ⟨rfl, fun sides hs => ?_⟩
    cases hs with
    | merge ends' h =>
      have := (of_joint? h).2
      rw [op?_of_node? hn] at this
      rw [Node.cls, Option.some.inj this] at hloop
      cases hloop
    | loop ends' back' h hl => rw [hjoint h, (hl.perm hnodup hmem).length_eq]
  · rename_i hloop
    refine ⟨rfl, fun sides hs => ?_⟩
    cases hs with
    | merge ends' h => rw [hjoint h]
    | loop ends' back' h hl =>
      have := (of_joint? h).2
      rw [op?_of_node? hn] at this
      rw [Node.cls, Option.some.inj this] at hloop
      exact absurd rfl hloop

end Graph

end SeaOfNodes
