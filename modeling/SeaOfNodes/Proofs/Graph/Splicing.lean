import SeaOfNodes.Proofs.Graph.Joints
import SeaOfNodes.Proofs.Graph.Notes

/-!
# Changes at the joints

Two kinds of change matter to merges and loops. Where frames meet, phis of one merge come and get
values, and phis and proxies may go (`Splices`). Where a loop is left, exits, proxies and frame states
come (`Grafts`); most changes bring no exits either (`Quiet`). Merges, loops and their ends stay as they
are in all of them.
-/

namespace SeaOfNodes

variable {J J' : NodeId → Option Joint} {o o' o'' : Option Joint} {merge x : NodeId}
  {values : List (Option NodeId)} {merge' : NodeId}

/-- A phi of a merge, with its values. -/
def IsPhi (J : NodeId → Option Joint) (merge x : NodeId) (values : List (Option NodeId)) : Prop :=
  ∃ kind, J x = some ⟨.phi kind, [some merge], values⟩

/-- A proxy at an exit of a loop. -/
def IsProxy (J : NodeId → Option Joint) (loopExit x : NodeId) : Prop :=
  ∃ kind first, J x = some ⟨.proxy kind, first, [some loopExit]⟩

/-- An end of a loop, at a place among its ends. -/
def IsLoopEnd (J : NodeId → Option Joint) (loopBegin x : NodeId) (index : Int32) : Prop :=
  J x = some ⟨.loopEnd index, [some loopBegin], []⟩

/-- A joint of a map in which one was written is this one, or was there before. -/
theorem joint_of_update {y : NodeId} {j j' : Joint} (h : Function.update J x (some j) y = some j') :
    y = x ∧ j' = j ∨ y ≠ x ∧ J y = some j' := by
  by_cases hy : y = x
  · rw [hy, Function.update_self] at h
    exact .inl ⟨hy, (Option.some.inj h).symm⟩
  · rw [Function.update_of_ne hy] at h
    exact .inr ⟨hy, h⟩

/-- A joint that is not overwritten stays. -/
theorem update_of_joint {y : NodeId} {j : Joint} (h : J y = some j) (hx : J x ≠ some j) :
    Function.update J x o y = some j := by
  rw [Function.update_of_ne, h]
  rintro rfl
  exact hx h

theorem isPhi_update_iff {y : NodeId} {j : Joint} (hj : j.op.cls ≠ .phi)
    (hx : ∀ j, J x = some j → j.op.cls ≠ .phi) :
    IsPhi (Function.update J x (some j)) merge y values ↔ IsPhi J merge y values := by
  refine exists_congr fun kind => ⟨fun h => ?_, fun h => update_of_joint h fun h => hx _ h rfl⟩
  exact ((joint_of_update h).resolve_left fun h => hj (h.2 ▸ rfl)).2

theorem IsPhi.unique {values' : List (Option NodeId)} (h : IsPhi J merge x values)
    (h' : IsPhi J merge' x values') : merge = merge' ∧ values = values' := by
  obtain ⟨kind, h⟩ := h
  obtain ⟨kind', h'⟩ := h'
  rw [h] at h'
  cases h'
  exact ⟨rfl, rfl⟩

namespace Joint

variable {j j' j'' : Joint} {kind : Kind} {first second : List (Option NodeId)}

/-- What a joint is apart from the values that a phi, a proxy or a frame state holds. -/
def bare (j : Joint) : Joint :=
  match j.op.cls with
  | .phi => { j with second := [] }
  | .proxy => { j with first := [] }
  | .frameState => ⟨j.op, [], []⟩
  | _ => j

/-- A joint that holds no values. -/
def firm (j : Joint) : Bool := !Graph.mayGo j.op.cls && decide (j.op.cls ≠ .frameState)

theorem firm_iff : j.firm ↔ Graph.mayGo j.op.cls = false ∧ j.op.cls ≠ .frameState := by
  simp [firm]

theorem op_bare (j : Joint) : j.bare.op = j.op := by
  unfold bare
  split <;> rfl

theorem op_eq_of_bare (h : j'.bare = j.bare) : j'.op = j.op := by
  rw [← op_bare, h, op_bare]

theorem bare_of_firm (h : j.firm) : j.bare = j := by
  obtain ⟨hgo, hc⟩ := firm_iff.1 h
  unfold bare
  split <;> simp_all [Graph.mayGo]

theorem eq_of_bare (h : j'.bare = j.bare) (hj : j.firm) : j' = j := by
  rw [← bare_of_firm (j := j') (by rwa [firm, op_eq_of_bare h]), h, bare_of_firm hj]

theorem eq_some_of_bare (h : o'.map bare = o.map bare) (ho : o = some j) (hj : j.firm) : o' = some j := by
  subst ho
  obtain ⟨j', rfl, hbare⟩ := Option.map_eq_some_iff.1 h
  rw [eq_of_bare hbare hj]

theorem exists_of_bare_phi (h : j.bare = ⟨.phi kind, first, []⟩) : ∃ values, j = ⟨.phi kind, first, values⟩ := by
  obtain ⟨op, first', values⟩ := j
  obtain rfl : op = .phi kind := (op_bare _).symm.trans (congrArg Joint.op h)
  cases h
  exact ⟨values, rfl⟩

/-- What merging frames may do to a joint: a frame state loses values, and a phi of the merge gets
others. -/
structure Alters (merge : NodeId) (j j' : Joint) : Prop where
  bare : j'.bare = j.bare
  state : j.op.cls = .frameState → ∀ t, some t ∈ j'.first → some t ∈ j.first
  value : j.op.cls ≠ .frameState → j' = j ∨ j.op.cls = .phi ∧ j.first = [some merge]

theorem Alters.refl (merge : NodeId) (j : Joint) : Alters merge j j :=
  ⟨rfl, fun _ _ h => h, fun _ => .inl rfl⟩

theorem Alters.trans (h : Alters merge j j') (h' : Alters merge j' j'') : Alters merge j j'' := by
  have hop := op_eq_of_bare h.bare
  refine ⟨h'.bare.trans h.bare, fun hc t ht => h.state hc t (h'.state (by rwa [hop]) t ht), fun hc => ?_⟩
  rcases h.value hc with rfl | hphi
  · exact h'.value hc
  · exact .inr hphi

/-- What merging frames may do to a node. Phis and proxies may go. -/
inductive Changes (merge : NodeId) : Option Joint → Option Joint → Prop
  | absent : Changes merge none none
  | gone (j : Joint) (op : Graph.mayGo j.op.cls = true) : Changes merge (some j) none
  | stays {j j' : Joint} (alters : Alters merge j j') : Changes merge (some j) (some j')

theorem Changes.refl (merge : NodeId) (o : Option Joint) : Changes merge o o := by
  cases o with
  | none => exact .absent
  | some j => exact .stays (.refl merge j)

theorem Changes.trans (h : Changes merge o o') (h' : Changes merge o' o'') : Changes merge o o'' := by
  cases h with
  | absent => exact h'
  | gone j hj =>
    cases h'
    exact .gone j hj
  | stays h =>
    cases h' with
    | gone _ hj => exact .gone _ (by rwa [op_eq_of_bare h.bare] at hj)
    | stays h' => exact .stays (h.trans h')

theorem Changes.of_none (h : Changes merge none o) : o = none := by
  cases h
  rfl

theorem Changes.bare (h : Changes merge o o') (ho : o'.isSome) : o'.map Joint.bare = o.map Joint.bare := by
  cases h with
  | absent => rfl
  | gone => cases ho
  | stays h => exact congrArg some h.bare

/-- The phis of other merges keep their values. -/
theorem Changes.eq_of_phi (h : Changes merge o (some ⟨.phi kind, [some merge'], values⟩))
    (hne : merge ≠ merge') : o = some ⟨.phi kind, [some merge'], values⟩ := by
  cases h with
  | stays h =>
    obtain ⟨values, rfl⟩ := exists_of_bare_phi h.bare.symm
    rcases h.value nofun with h | ⟨-, h⟩
    · rw [h]
    · cases h
      exact absurd rfl hne

theorem Changes.of_frameState (h : Changes merge (some j) o) (hc : j.op.cls = .frameState) :
    ∃ j', o = some j' ∧ j'.op = j.op ∧ ∀ t, some t ∈ j'.first → some t ∈ j.first := by
  cases h with
  | gone _ hj =>
    rw [hc] at hj
    cases hj
  | stays h => exact ⟨_, rfl, op_eq_of_bare h.bare, h.state hc⟩

/-- What holds no values neither goes nor changes. -/
theorem Changes.iff_of_firm (h : Changes merge o o') (hj : j.firm) : o' = some j ↔ o = some j := by
  cases h with
  | absent => rfl
  | gone j' hgo =>
    refine iff_of_false nofun ?_
    rintro ⟨⟩
    simp [firm, hgo] at hj
  | stays h =>
    have hbare := (Changes.stays h).bare rfl
    exact ⟨fun h => eq_some_of_bare hbare.symm h hj, fun h => eq_some_of_bare hbare h hj⟩

end Joint

section

variable (h : (J' x).map Joint.bare = (J x).map Joint.bare)

include h

theorem IsPhi.of_bare (hx : IsPhi J merge x values) : ∃ values, IsPhi J' merge x values := by
  obtain ⟨kind, hx⟩ := hx
  rw [hx] at h
  obtain ⟨j, hj, hbare⟩ := Option.map_eq_some_iff.1 h
  obtain ⟨values, rfl⟩ := Joint.exists_of_bare_phi hbare
  exact ⟨values, kind, hj⟩

theorem IsProxy.of_bare {loopExit : NodeId} (hx : IsProxy J loopExit x) : IsProxy J' loopExit x := by
  obtain ⟨kind, first, hx⟩ := hx
  rw [hx] at h
  obtain ⟨⟨op, first, second⟩, hj, hbare⟩ := Option.map_eq_some_iff.1 h
  obtain rfl : op = .proxy kind := Joint.op_eq_of_bare hbare
  cases hbare
  exact ⟨kind, first, hj⟩

end

namespace Joint

variable {j : Joint}

/-- A merge, a loop, or an end of a loop. -/
def isAnchor (j : Joint) : Bool :=
  j.op.cls = .merge || j.op.cls = .loopBegin || j.op.cls = .loopEnd

theorem isAnchor_iff : j.isAnchor ↔
    j.op.cls = .merge ∨ j.op.cls = .loopBegin ∨ j.op.cls = .loopEnd := by
  simp [isAnchor, or_assoc]

theorem firm_of_isAnchor (h : j.isAnchor) : j.firm := by
  rw [firm_iff]
  rcases isAnchor_iff.1 h with hc | hc | hc <;> rw [hc] <;> decide

/-- A joint that is neither a merge nor a loop, nor an end or a phi of one. -/
def isSide (j : Joint) : Bool :=
  j.op.cls = .loopExit || j.op.cls = .proxy || j.op.cls = .frameState

end Joint

/-- The same merges, loops and ends of loops. -/
def Anchored (J J' : NodeId → Option Joint) : Prop :=
  ∀ x j, j.isAnchor = true → (J' x = some j ↔ J x = some j)

namespace Graph

variable {g g' g'' : Graph} {j : Joint} {t : NodeId}

theorem of_joint? (h : g.joint? x = some j) : g.isAlive x ∧ g.op? x = some j.op := by
  unfold joint? at h
  split at h
  · rename_i ha
    obtain ⟨n, hn, hj⟩ := Option.bind_eq_some_iff.1 h
    exact ⟨ha, (op?_of_node? hn).trans (congrArg some (Node.op_of_joint? hj))⟩
  · cases h

theorem exists_node?_of_joint? (h : g.joint? x = some j) : ∃ n, g.node? x = some n ∧ n.joint? = some j := by
  unfold joint? at h
  split at h
  · exact Option.bind_eq_some_iff.1 h
  · cases h

theorem registered_of_joint? (h : g.joint? x = some j) : (g.node? x).isSome := by
  have := Option.isSome_of_eq_some (of_joint? h).2
  rwa [op?, Option.isSome_map] at this

theorem joint?_eq_none_of_not_isAlive (h : g.isAlive x = false) : g.joint? x = none := by
  simp [joint?, h]

theorem joint?_eq_none_of_fresh (h : g.node? x = none) : g.joint? x = none := by
  simp [joint?, h]

/-- A live node of a class with joints is one. -/
theorem exists_joint? (ha : g.isAlive x) {op : Op} (hop : g.op? x = some op)
    (hc : op.cls = .phi ∨ op.cls = .proxy ∨ op.cls = .frameState ∨ op.cls = .loopExit ∨
      op.cls = .merge ∨ op.cls = .loopBegin ∨ op.cls = .loopEnd) :
    ∃ first second, g.joint? x = some ⟨op, first, second⟩ := by
  obtain ⟨n, hn, rfl⟩ := Option.map_eq_some_iff.1 hop
  rw [joint?_of_node? hn ha, Node.joint?]
  change n.cls = _ ∨ n.cls = _ ∨ n.cls = _ ∨ n.cls = _ ∨ n.cls = _ ∨ n.cls = _ ∨ n.cls = _ at hc
  rcases hc with hc | hc | hc | hc | hc | hc | hc <;> rw [hc] <;> exact ⟨_, _, rfl⟩

/-- Nodes of one operation are joints alike, if they are alive. -/
theorem isSome_joint? (hop : g'.op? t = some j.op) (ha : g'.isAlive t) (hx : g.joint? x = some j) :
    (g'.joint? t).isSome := by
  obtain ⟨n, -, hn⟩ := exists_node?_of_joint? hx
  obtain ⟨n', hn', hop'⟩ := Option.map_eq_some_iff.1 hop
  have hcls : n'.cls = n.cls := congrArg Op.cls (hop'.trans (Node.op_of_joint? hn).symm)
  have hsome : n.joint?.isSome := by simp [hn]
  rw [joint?_of_node? hn' ha]
  unfold Node.joint? at hsome ⊢
  rw [hcls]
  split at hsome <;> simp_all

theorem exists_joint?_of_merge (ha : g.isAlive x) (hc : g.cls? x = some .merge) :
    ∃ ends, g.joint? x = some ⟨.merge, ends, []⟩ := by
  obtain ⟨n, hn, hcls⟩ := Option.map_eq_some_iff.1 hc
  have hop : n.op = .merge := by
    cases hop : n.op <;> simp [Node.cls, hop, Op.cls] at hcls ⊢
  rw [joint?_of_node? hn ha, Node.joint?, hcls, hop]
  exact ⟨_, rfl⟩

theorem exists_joint?_of_loopBegin (ha : g.isAlive x) (hc : g.cls? x = some .loopBegin) :
    ∃ ends, g.joint? x = some ⟨.loopBegin, ends, []⟩ := by
  obtain ⟨n, hn, hcls⟩ := Option.map_eq_some_iff.1 hc
  have hop : n.op = .loopBegin := by
    cases hop : n.op <;> simp [Node.cls, hop, Op.cls] at hcls ⊢
  rw [joint?_of_node? hn ha, Node.joint?, hcls, hop]
  exact ⟨_, rfl⟩

/-- What a joint ties a live node to is alive. -/
theorem Consistent.isAlive_first (hg : g.Consistent) (h : g.joint? x = some j) {v : NodeId}
    (hv : some v ∈ j.first) : g.isAlive v := by
  obtain ⟨n, hn, hj⟩ := exists_node?_of_joint? h
  rw [Node.first_of_joint? hj] at hv
  exact hg.isAlive_of_slot hn hv

/-- A node that is not there yet has no phis. -/
theorem Consistent.not_isPhi (hg : g.Consistent) (hm : g.node? merge = none) :
    ¬ IsPhi g.joint? merge x values := by
  rintro ⟨kind, hx⟩
  obtain ⟨n, hn⟩ := exists_node?_of_isAlive (hg.isAlive_first hx (List.mem_singleton.2 rfl))
  rw [hm] at hn
  cases hn

/-- What merging frames may do to the joints: nodes that are there change, and new ones are phis of
the merge. -/
structure Splices (merge : NodeId) (g g' : Graph) : Prop where
  old : ∀ x, (g.node? x).isSome → Joint.Changes merge (g.joint? x) (g'.joint? x)
  new : ∀ x, g.node? x = none → g'.joint? x = none ∨ ∃ values, IsPhi g'.joint? merge x values

theorem Splices.refl (merge : NodeId) (g : Graph) : Splices merge g g :=
  ⟨fun _ _ => .refl .., fun _ hx => .inl (joint?_eq_none_of_fresh hx)⟩

theorem Splices.trans (hk : KeepsOps g g') (h : Splices merge g g') (h' : Splices merge g' g'') :
    Splices merge g g'' := by
  refine ⟨fun x hx => ?_, fun x hx => ?_⟩
  · obtain ⟨n, hn⟩ := Option.isSome_iff_exists.1 hx
    have hx' : (g'.node? x).isSome := by
      simpa [op?] using Option.isSome_of_eq_some (hk.ops x n.op (op?_of_node? hn))
    exact (h.old x hx).trans (h'.old x hx')
  · cases hx' : g'.node? x with
    | none => exact h'.new x hx'
    | some n =>
      have hchange := h'.old x (by simp [hx'])
      rcases h.new x hx with hnone | ⟨values, hphi⟩
      · rw [hnone] at hchange
        exact .inl hchange.of_none
      · cases hj : g''.joint? x with
        | none => exact .inl rfl
        | some j => exact .inr (hphi.of_bare (hchange.bare (by simp [hj])))

section

variable (h : Splices merge g g')

include h

theorem Splices.joint?_iff (hj : j.firm) : g'.joint? x = some j ↔ g.joint? x = some j := by
  cases hn : g.node? x with
  | some n => exact (h.old x (by simp [hn])).iff_of_firm hj
  | none =>
    rw [joint?_eq_none_of_fresh hn]
    refine iff_of_false (fun hx => ?_) nofun
    rcases h.new x hn with hnone | ⟨values, kind, hphi⟩
    · simp [hx] at hnone
    · rw [hx] at hphi
      cases hphi
      cases hj

theorem Splices.anchored : Anchored g.joint? g'.joint? :=
  fun _ _ hj => h.joint?_iff (Joint.firm_of_isAnchor hj)

/-- What stays alive stays the joint that it is, apart from its values. -/
theorem Splices.bare (hk : KeepsOps g g') (hx : g.joint? x = some j) (ha : g'.isAlive x) :
    (g'.joint? x).map Joint.bare = (g.joint? x).map Joint.bare :=
  (h.old x (registered_of_joint? hx)).bare (isSome_joint? (hk.ops x _ (of_joint? hx).2) ha hx)

/-- A phi stays one while it is alive. -/
theorem Splices.exists_isPhi (hk : KeepsOps g g')
    (hx : IsPhi g.joint? merge' x values) (ha : g'.isAlive x) :
    ∃ values, IsPhi g'.joint? merge' x values :=
  hx.of_bare (h.bare hk hx.choose_spec ha)

/-- A proxy stays one while it is alive. -/
theorem Splices.isProxy (hk : KeepsOps g g') {exit : NodeId}
    (hx : IsProxy g.joint? exit x) (ha : g'.isAlive x) : IsProxy g'.joint? exit x :=
  hx.of_bare (h.bare hk hx.choose_spec.choose_spec ha)

end

/-- Joints at the side may change, come and go, and no others. -/
def Grafts (g g' : Graph) : Prop :=
  ∀ x, g'.joint? x = g.joint? x ∨
    (∀ j, g.joint? x = some j → j.isSide = true) ∧ ∀ j, g'.joint? x = some j → j.isSide = true

theorem Grafts.refl (g : Graph) : Grafts g g := fun _ => .inl rfl

theorem Grafts.of_eq (h : g'.joint? = g.joint?) : Grafts g g' := fun x => .inl (congrFun h x)

theorem Grafts.trans (h : Grafts g g') (h' : Grafts g' g'') : Grafts g g'' := by
  intro x
  rcases h x with hx | ⟨hx, hx'⟩ <;> rcases h' x with hx'' | ⟨hy, hy'⟩
  · exact .inl (hx''.trans hx)
  · rw [hx] at hy
    exact .inr ⟨hy, hy'⟩
  · rw [← hx''] at hx'
    exact .inr ⟨hx, hx'⟩
  · exact .inr ⟨hx, hy'⟩

theorem Grafts.symm (h : Grafts g g') : Grafts g' g :=
  fun x => (h x).imp Eq.symm And.symm

/-- A joint that is not at the side stays. -/
theorem Grafts.joint? (h : Grafts g g') (hx : g.joint? x = some j) (hj : j.isSide = false) :
    g'.joint? x = some j := by
  rcases h x with heq | ⟨hside, -⟩
  · rw [heq, hx]
  · rw [hside j hx] at hj
    cases hj

theorem Grafts.anchored (h : Grafts g g') : Anchored g.joint? g'.joint? := by
  intro x j hj
  have hside : j.isSide = false := by
    rcases Joint.isAnchor_iff.1 hj with hc | hc | hc <;> simp [Joint.isSide, hc]
  exact ⟨fun hx => h.symm.joint? hx hside, fun hx => h.joint? hx hside⟩

theorem Grafts.isPhi (h : Grafts g g') (hx : IsPhi g.joint? merge x values) :
    IsPhi g'.joint? merge x values :=
  hx.imp fun _ hx => h.joint? hx rfl

/-- New joints are proxies or frame states, and no joint changes. -/
def Quiet (g g' : Graph) : Prop :=
  ∀ x, g'.joint? x = g.joint? x ∨ g.joint? x = none ∧
    ∀ j, g'.joint? x = some j → j.op.cls = .proxy ∨ j.op.cls = .frameState

theorem Quiet.refl (g : Graph) : Quiet g g := fun _ => .inl rfl

theorem Quiet.of_eq (h : g'.joint? = g.joint?) : Quiet g g' := fun x => .inl (congrFun h x)

theorem Quiet.trans (h : Quiet g g') (h' : Quiet g' g'') : Quiet g g'' := by
  intro x
  rcases h x with hx | ⟨hx, hx'⟩ <;> rcases h' x with hx'' | ⟨hy, hy'⟩
  · exact .inl (hx''.trans hx)
  · exact .inr ⟨hx ▸ hy, hy'⟩
  · exact .inr ⟨hx, by rwa [hx'']⟩
  · exact .inr ⟨hx, hy'⟩

theorem Quiet.joint? (h : Quiet g g') (hx : g.joint? x = some j) : g'.joint? x = some j := by
  rcases h x with heq | ⟨hnone, -⟩
  · rw [heq, hx]
  · rw [hnone] at hx
    cases hx

theorem Quiet.grafts (h : Quiet g g') : Grafts g g' := fun x =>
  (h x).imp_right fun ⟨hnone, hnew⟩ => ⟨by simp [hnone], fun j hj => by
    rcases hnew j hj with hc | hc <;> simp [Joint.isSide, hc]⟩

/-- A new proxy or frame state. -/
theorem Quiet.of_update {o : Option Joint} (h : g'.joint? = Function.update g.joint? x o)
    (hx : g.joint? x = none) (ho : ∀ j, o = some j → j.op.cls = .proxy ∨ j.op.cls = .frameState) :
    Quiet g g' := by
  intro y
  rw [h]
  by_cases hy : y = x
  · subst hy
    rw [Function.update_self]
    exact .inr ⟨hx, ho⟩
  · rw [Function.update_of_ne hy]
    exact .inl rfl

end Graph

end SeaOfNodes
