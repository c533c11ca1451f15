import SeaOfNodes.Proofs.Graph.Evolution
import SeaOfNodes.Proofs.Node.Rename

/-!
# Connecting copies

Nodes are copied in three rounds: each gets a copy without edges, then the inputs of all copies are
written, then their successors, each slot led over by a map of handles. Writing the slots of one
direction touches nothing but the copies. An input can always be written; a successor only if what
it leads to has no predecessor yet, so that no two slots may lead to the same node.
-/

namespace SeaOfNodes

variable {spec : FieldSpec}

theorem NodeClass.fieldIndex?_of_getElem? {c : NodeClass} {d : Direction} {i : Nat}
    (h : (c.layout.fields d)[i]? = some spec) :
    c.layout.fieldIndex? d spec.name = some i := by
  have hall : ∀ i : Fin 4, ((c.layout.fields d)[i.val]?).all
      (fun spec => c.layout.fieldIndex? d spec.name == some i.val) = true := by
    cases d <;> cases c <;> decide
  simpa [h] using hall ⟨i, NodeClass.lt_of_getElem?_fields h⟩

@[simp] theorem Node.withLinks_withLinks (n : Node) (d : Direction) (links links' : List Link) :
    (n.withLinks d links).withLinks d links' = n.withLinks d links' := by
  cases d <;> rfl

/-- A node without edge fields. -/
def Node.Edgeless (n : Node) : Prop := ∀ d, n.links d = []

namespace Graph

variable {g g' s s' : Graph} {id : NodeId} {n m m' : Node} {d : Direction} {field : Nat}
  {old value : Option NodeId} {ρ : NodeId → Option NodeId} {fail : Fault → Prop}

/-! ### Writing one slot -/

/-- In a consistent graph a live node can take the place of what a slot holds, as a successor if it
has no predecessor yet. -/
theorem Consistent.canRewire (hg : g.Consistent) (hm : g.node? id = some m)
    (hold : ∀ o, old = some o → 0 < m.uses d o) (hvalue : ∀ t, value = some t → g.isAlive t)
    (hfree : d = .successors → ∀ t, value = some t → g.predecessor? t = none) :
    g.CanRewire id d old value := by
  have hreg (t : NodeId) (ht : value = some t) := registered_of_isAlive (hvalue t ht)
  cases d with
  | inputs =>
    refine ⟨fun o ho => ?_, hreg⟩
    rw [hg.listed, uses_of_node? hm]
    exact hold o ho
  | successors =>
    refine .inr ⟨fun o ho => hg.predecessor id o ?_, fun t ht => ⟨hreg t ht, hfree rfl t ht⟩⟩
    rw [uses_of_node? hm]
    exact hold o ho

/-- The next slot of a field of `id` is written; as a successor nothing else is claimed. -/
structure Attaches (g g' : Graph) (id : NodeId) (m : Node) (d : Direction) (field : Nat)
    (value : Option NodeId) : Prop where
  stays : Stays g g'
  node? : ∀ x, g'.node? x =
    if x = id then some (m.withLinks d (Links.attach (m.links d) field value)) else g.node? x
  free : ∀ y, (d = .successors → value ≠ some y) → g.predecessor? y = none → g'.predecessor? y = none

theorem Rewires.attaches (h : Rewires g g' id d m m' old value) (he : m.Edit m' d field old value)
    (hm' : m' = m.withLinks d (Links.attach (m.links d) field value)) (hg : g.Consistent)
    (ha : g.isAlive id) (hvalue : ∀ t, value = some t → g.isAlive t) :
    Attaches g g' id m d field value where
  stays := ⟨h.consistent he hg (fun _ => ha) hvalue, h.sameNodes⟩
  node? x := by rw [h.node?, hm']
  free y hy hnone := by
    rw [h.predecessor?]
    split
    · exact hnone
    · rename_i hd
      have hsucc : d = .successors := by
        cases d
        · exact absurd (.inl rfl) hd
        · rfl
      rw [if_neg (hy hsucc)]
      split
      · rfl
      · exact hnone

/-- The next slot of a copy is written, unless what it gets as a successor has a predecessor. -/
theorem meets_attach (hg : g.Consistent) (ha : g.isAlive id) (hm : g.node? id = some m)
    (hop : m.op = n.op) {p : Position} (hspec : n.fieldSpec? p = some spec)
    {link : Link} (hlink : (m.links p.direction)[p.field.toNat]? = some link)
    (hshape : link.isList = (spec.shape == .list))
    (hvalue : ∀ t, value = some t → g.isAlive t) :
    Meets (attach id n p value) g
      (fun _ g' => Attaches g g' id m p.direction p.field.toNat value)
      (fun _ => ¬ (p.direction = .successors → ∀ t, value = some t → g.predecessor? t = none)) := by
  unfold attach
  simp only [hspec]
  by_cases hs : spec.shape = .list
  · rw [if_pos hs]
    obtain ⟨targets, rfl⟩ : ∃ targets, link = .many targets := by
      cases link with
      | one _ => simp [Link.isList, hs] at hshape
      | many targets => exact ⟨targets, rfl⟩
    have hidx : m.layout.fieldIndex? p.direction spec.name = some p.field.toNat := by
      rw [Node.layout, hop]
      exact NodeClass.fieldIndex?_of_getElem? hspec
    have hpush : m.push p.direction p.field.toNat value =
        .ok (Position.of p.direction p.field.toNat targets.length,
          m.withLinks p.direction (Links.attach (m.links p.direction) p.field.toNat value)) := by
      simp [Node.push, hlink, Links.attach]
    refine meets_bind.2 ((meets_pushEdge hg.packed id p.direction spec.name value).mono
      (fun _ g' h => ?_) fun _ hno hfree => hno ⟨hvalue, m, _, _, hm, hidx, hpush,
        hg.canRewire hm (by simp) hvalue hfree⟩)
    obtain ⟨m1, m', field, hidx', hpush', -, h⟩ := h
    obtain rfl : m = m1 := Option.mem_unique hm h.node
    obtain rfl : p.field.toNat = field := Option.mem_unique hidx hidx'
    have he := Node.edit_of_push hpush'
    rw [hpush] at hpush'
    cases hpush'
    exact h.attaches he rfl hg ha hvalue
  · rw [if_neg hs]
    obtain ⟨target, rfl⟩ : ∃ target, link = .one target := by
      cases link with
      | one target => exact ⟨target, rfl⟩
      | many _ => simp [Link.isList, hs] at hshape
    cases value with
    | none =>
      have hsame : m.withLinks p.direction (Links.attach (m.links p.direction) p.field.toNat none) =
          m := by
        simp [Links.attach, hlink]
      refine ⟨.refl hg, fun x => ?_, fun _ _ h => h⟩
      rw [hsame]
      split
      · subst_vars; exact hm
      · rfl
    | some t =>
      have hput : m.put p (some t) =
          .ok (m.withLinks p.direction (Links.attach (m.links p.direction) p.field.toNat (some t))) := by
        simp [Node.put, hlink, Links.attach]
      have hold (o : NodeId) (ho : m.get p = some o) : 0 < m.uses p.direction o :=
        Node.uses_pos_of_get ho
      refine meets_bind.2 ((meets_setEdge hg.packed id p (some t)).mono (fun _ g' h => ?_)
        fun _ hno hfree => hno ⟨hvalue, m, _, hm, hput, hg.canRewire hm hold hvalue hfree⟩)
      obtain ⟨m1, m', hput', rfl, -, h⟩ := h
      obtain rfl : m = m1 := Option.mem_unique hm h.node
      have he := Node.edit_of_put hput'
      rw [hput] at hput'
      cases hput'
      exact h.attaches he rfl hg ha hvalue

/-! ### Writing the slots of one copy -/

/-- What the slots of a node in one direction lead to, led over by a map. -/
def claims (ρ : NodeId → Option NodeId) (d : Direction) (n : Node) : List NodeId :=
  (n.slots d).filterMap (·.bind ρ)

/-- As successors the nodes can be claimed, each once. -/
def Claimable (g : Graph) (d : Direction) (ys : List NodeId) : Prop :=
  d = .successors → ys.Nodup ∧ ∀ y ∈ ys, g.predecessor? y = none

/-- The copy `id` of `n`, which was `m` in `g`, has `links` in one direction by now, and the slots
in `rest` are still to be written to it. -/
structure Writing (ρ : NodeId → Option NodeId) (g : Graph) (id : NodeId) (n m : Node) (d : Direction)
    (rest : List (Position × Option NodeId)) (links : List Link) (s : Graph) : Prop where
  stays : Stays g s
  node : s.node? id = some (m.withLinks d links)
  others : ∀ x, x ≠ id → s.node? x = g.node? x
  shape : links.map Link.isList = (n.links d).map Link.isList
  result : rest.foldl (fun links x => Links.attach links x.1.field.toNat (x.2.bind ρ)) links =
    (n.links d).map (Link.rename ρ)
  slots : ∀ x ∈ rest, x ∈ n.walk d
  free : g.Claimable d (claims ρ d n) → s.Claimable d (rest.filterMap (·.2.bind ρ))
  unclaimed : ∀ y, (d = .successors → y ∉ claims ρ d n) → g.predecessor? y = none →
    s.predecessor? y = none

/-- The next slot is written. -/
theorem Writing.step {x : Position × Option NodeId} {rest : List (Position × Option NodeId)}
    {links : List Link} (h : Writing ρ g id n m d (x :: rest) links s) (hn : n.Shaped)
    (hop : m.op = n.op) (ha : g.isAlive id)
    (hvalue : ∀ t, x.2.bind ρ = some t → g.isAlive t) :
    Meets (attach id n x.1 (x.2.bind ρ)) s
      (fun _ s' => ∃ links', Writing ρ g id n m d rest links' s')
      (fun _ => ¬ g.Claimable d (claims ρ d n)) := by
  obtain ⟨p, target⟩ := x
  obtain ⟨hd, link0, hlink0, -⟩ := Links.mem_walk (hn.length_links_le d) (h.slots (p, target) (by simp))
  obtain rfl : p.direction = d := hd
  -- the field of the slot, and the link as it is by now
  obtain ⟨spec, hspec, hlist⟩ := hn.exists_field hlink0
  have hlinks := congrArg (·[p.field.toNat]?) h.shape
  simp only [List.getElem?_map, hlink0] at hlinks
  obtain ⟨link, hlink, hsame⟩ := Option.map_eq_some_iff.1 hlinks
  have hshape : link.isList = (spec.shape == .list) := hsame.trans hlist
  refine (meets_attach h.stays.consistent (by rwa [h.stays.sameNodes.isAlive]) h.node (n := n)
    (by rw [Node.op_withLinks, hop]) hspec (by rwa [Node.links_withLinks]) hshape
    (fun t ht => by rw [h.stays.sameNodes.isAlive]; exact hvalue t ht)).mono (fun _ s' hs' => ?_)
    fun _ hno hg => hno fun hd t ht =>
      (h.free hg hd).2 t (List.mem_filterMap.2 ⟨(p, target), by simp, ht⟩)
  -- what comes next is not what was just claimed
  have hnext (hg : g.Claimable p.direction (claims ρ p.direction n)) (hd : p.direction = .successors)
      (y : NodeId) (hy : y ∈ rest.filterMap (·.2.bind ρ)) : target.bind ρ ≠ some y := by
    intro he
    have hnodup := (h.free hg hd).1
    rw [List.filterMap_cons_some (f := fun x : Position × Option NodeId => x.2.bind ρ) he,
      List.nodup_cons] at hnodup
    exact hnodup.1 hy
  have htarget : target ∈ n.slots p.direction := by
    rw [← n.map_snd_walk]
    exact List.mem_map.2 ⟨(p, target), h.slots _ (by simp), rfl⟩
  exact ⟨Links.attach links p.field.toNat (target.bind ρ), {
    stays := h.stays.trans hs'.stays
    node := by rw [hs'.node?, if_pos rfl, Node.links_withLinks, Node.withLinks_withLinks]
    others := fun x hx => by rw [hs'.node?, if_neg hx, h.others x hx]
    shape := (Links.map_isList_attach ..).trans h.shape
    result := h.result
    slots := fun x hx => h.slots x (List.mem_cons_of_mem _ hx)
    free := fun hg hd => by
      have hsub : (rest.filterMap (·.2.bind ρ)).Sublist
          (((p, target) :: rest).filterMap (·.2.bind ρ)) :=
        (List.sublist_cons_self _ _).filterMap _
      exact ⟨(h.free hg hd).1.sublist hsub, fun y hy =>
        hs'.free y (fun _ => hnext hg hd y hy) ((h.free hg hd).2 y (hsub.subset hy))⟩
    unclaimed := fun y hy hnone => hs'.free y
      (fun hd he => hy hd (List.mem_filterMap.2 ⟨target, htarget, he⟩)) (h.unclaimed y hy hnone) }⟩

/-- All slots of a copy are written in one direction. -/
theorem meets_writeSlots (hg : g.Consistent) (ha : g.isAlive id) (hm : g.node? id = some m)
    (hn : n.Shaped) (hop : m.op = n.op) (hclear : m.links d = Links.clear (n.links d))
    (hvalue : ∀ y ∈ claims ρ d n, g.isAlive y)
    {resolve : Option NodeId → GraphM (Option NodeId)}
    (hresolve : ∀ v ∈ n.slots d, ∀ s, Meets (resolve v) s (fun r s' => r = v.bind ρ ∧ s' = s) fail)
    (hfail : ∀ e, ¬ g.Claimable d (claims ρ d n) → fail e) :
    Meets (forIn (n.walk d) PUnit.unit fun x _ => do
        attach id n x.1 (← resolve x.2)
        pure (ForInStep.yield PUnit.unit)) g
      (fun _ s => Writing ρ g id n m d [] ((n.links d).map (Link.rename ρ)) s) fail := by
  have hslots {x : Position × Option NodeId} (hx : x ∈ n.walk d) : x.2 ∈ n.slots d := by
    rw [← n.map_snd_walk]
    exact List.mem_map.2 ⟨x, hx, rfl⟩
  have hclaims : (n.walk d).filterMap (·.2.bind ρ) = claims ρ d n := by
    rw [claims, ← n.map_snd_walk, List.filterMap_map]
    rfl
  refine (Meets.forIn (fun rest s => ∃ links, Writing ρ g id n m d rest links s)
    ⟨m.links d, ?_⟩ fun x rest s h => ?_).imp fun _ s h => ?_
  · exact {
      stays := .refl hg
      node := by rw [Node.withLinks_links, hm]
      others := fun _ _ => rfl
      shape := by rw [hclear, Links.clear, List.map_map]; simp [Function.comp_def]
      result := by
        rw [hclear]
        exact Links.foldl_attach_walk (n.links d) (hn.length_links_le d)
      slots := fun _ hx => hx
      free := fun hg => by rwa [hclaims]
      unclaimed := fun _ _ h => h }
  · obtain ⟨links, h⟩ := h
    have hx : x ∈ n.walk d := h.slots x (by simp)
    refine (hresolve x.2 (hslots hx) s).bind fun v s1 hv => ?_
    obtain ⟨rfl, rfl⟩ := hv
    exact ((h.step hn hop ha fun t ht => hvalue t (List.mem_filterMap.2 ⟨x.2, hslots hx, ht⟩)).mono
      (fun _ _ h => h) hfail).bind fun _ _ h => ⟨rfl, h⟩
  · obtain ⟨links, h⟩ := h
    rwa [← show links = (n.links d).map (Link.rename ρ) from h.result]

/-! ### Writing the slots of all copies -/

/-- Each of the nodes has a live copy, which is what `f` makes of the node. Only nodes without edges
share a copy. -/
structure Copies (map : Renaming) (nodes : List (NodeId × Node)) (f : Node → Node) (g : Graph) :
    Prop where
  consistent : g.Consistent
  apart : ∀ q ∈ nodes, ∀ q' ∈ nodes, ¬ q.2.Edgeless → map.get? q.1 = map.get? q'.1 → q.1 = q'.1
  copy : ∀ q ∈ nodes, ∃ new, map.get? q.1 = some new ∧ g.isAlive new = true ∧
    g.node? new = some (f q.2)

/-- A copy with its slots written in one direction. -/
def connected (ρ : NodeId → Option NodeId) (d : Direction) (f : Node → Node) (n : Node) : Node :=
  (f n).withLinks d ((n.links d).map (Link.rename ρ))

variable {map : Renaming} {nodes done rest : List (NodeId × Node)} {f : Node → Node} {q : NodeId × Node}

theorem mem_claims {y : NodeId} : y ∈ claims ρ d n ↔ ∃ t, 0 < n.uses d t ∧ ρ t = some y := by
  rw [claims, List.mem_filterMap]
  constructor
  · rintro ⟨slot, hslot, hy⟩
    obtain ⟨t, rfl, ht⟩ := Option.bind_eq_some_iff.1 hy
    exact ⟨t, List.count_pos_iff.2 hslot, ht⟩
  · rintro ⟨t, ht, hy⟩
    exact ⟨some t, List.count_pos_iff.1 ht, hy⟩

/-- The slots of the nodes in `done` are written in one direction, those in `rest` are to be. -/
structure Connecting (map : Renaming) (ρ : NodeId → Option NodeId) (d : Direction) (f : Node → Node)
    (g : Graph) (done rest : List (NodeId × Node)) (s : Graph) : Prop where
  stays : Stays g s
  written : ∀ q ∈ done, ∃ new, map.get? q.1 = some new ∧ s.node? new = some (connected ρ d f q.2)
  unwritten : ∀ q ∈ rest, ∃ new, map.get? q.1 = some new ∧ s.node? new = some (f q.2)
  others : ∀ x, (∀ q ∈ done ++ rest, ¬ q.2.Edgeless → map.get? q.1 ≠ some x) →
    s.node? x = g.node? x
  unclaimed : ∀ y, (d = .successors → y ∉ done.flatMap fun q => claims ρ d q.2) →
    g.predecessor? y = none → s.predecessor? y = none

theorem connected_of_edgeless (hn : n.Edgeless) (hclear : (f n).links d = Links.clear (n.links d)) :
    connected ρ d f n = f n := by
  have hsame := (f n).withLinks_links d
  rw [connected, hn d]
  rwa [hclear, hn d] at hsame

section

variable (h : Connecting map ρ d f g done (q :: rest) s)

include h

/-- A node without edges has nothing to be written. -/
theorem Connecting.skip (hq : q.2.Edgeless) (hclear : (f q.2).links d = Links.clear (q.2.links d)) :
    Connecting map ρ d f g (done ++ [q]) rest s where
  stays := h.stays
  written q' hq' := by
    rcases List.mem_append.1 hq' with hq' | hq'
    · exact h.written q' hq'
    · obtain rfl := List.mem_singleton.1 hq'
      rw [connected_of_edgeless hq hclear]
      exact h.unwritten q' (by simp)
  unwritten q' hq' := h.unwritten q' (List.mem_cons_of_mem _ hq')
  others x hx := h.others x fun q' hq' => hx q' (by simpa using hq')
  unclaimed y hy := h.unclaimed y fun hd hmem => hy hd (by simp [List.flatMap_append, hmem])

/-- The slots of one more copy are written. -/
theorem Connecting.next {new : NodeId} {s' : Graph} (hnew : map.get? q.1 = some new)
    (hq : ¬ q.2.Edgeless) (hother : ∀ q' ∈ done ++ rest, map.get? q'.1 ≠ some new)
    (hs' : Writing ρ s new q.2 (f q.2) d [] ((q.2.links d).map (Link.rename ρ)) s') :
    Connecting map ρ d f g (done ++ [q]) rest s' where
  stays := h.stays.trans hs'.stays
  written q' hq' := by
    rcases List.mem_append.1 hq' with hq' | hq'
    · obtain ⟨new', hnew', hnode'⟩ := h.written q' hq'
      have hne : new' ≠ new := fun e => hother q' (by simp [hq']) (e ▸ hnew')
      exact ⟨new', hnew', by rw [hs'.others new' hne, hnode']⟩
    · obtain rfl := List.mem_singleton.1 hq'
      exact ⟨new, hnew, hs'.node⟩
  unwritten q' hq' := by
    obtain ⟨new', hnew', hnode'⟩ := h.unwritten q' (List.mem_cons_of_mem _ hq')
    have hne : new' ≠ new := fun e => hother q' (by simp [hq']) (e ▸ hnew')
    exact ⟨new', hnew', by rw [hs'.others new' hne, hnode']⟩
  others x hx := by
    have hne : x ≠ new := fun e => hx q (by simp) hq (e ▸ hnew)
    rw [hs'.others x hne, h.others x fun q' hq' => hx q' (by simpa using hq')]
  unclaimed y hy hnone := by
    refine hs'.unclaimed y (fun hd hmem => hy hd ?_) (h.unclaimed y (fun hd hmem => hy hd ?_) hnone)
    · simp [List.flatMap_append, hmem]
    · simp [List.flatMap_append, hmem]

/-- What is left to be claimed can be claimed if everything can. -/
theorem Connecting.claimable (hg : g.Claimable d ((done ++ q :: rest).flatMap fun q => claims ρ d q.2)) :
    s.Claimable d (claims ρ d q.2) := by
  intro hd
  obtain ⟨hnodup, hfree⟩ := hg hd
  rw [List.flatMap_append, List.flatMap_cons, List.nodup_append] at hnodup
  obtain ⟨-, hrest, hdisj⟩ := hnodup
  refine ⟨(List.nodup_append.1 hrest).1, fun y hy => h.unclaimed y (fun _ hmem => ?_) (hfree y ?_)⟩
  · exact hdisj y hmem y (List.mem_append_left _ hy) rfl
  · simp [List.flatMap_append, hy]

end

/-- The slots of all copies are written in one direction. -/
theorem meets_connect (hnodup : (nodes.map (·.1)).Nodup) (hshaped : ∀ q ∈ nodes, q.2.Shaped)
    (hg : Copies map nodes f g) (hop : ∀ n, (f n).op = n.op)
    (hclear : ∀ n, (f n).links d = Links.clear (n.links d))
    (halive : ∀ q ∈ nodes, ∀ y ∈ claims ρ d q.2, g.isAlive y)
    (resolve : NodeId → Node → Option NodeId → GraphM (Option NodeId))
    (hresolve : ∀ q ∈ nodes, ∀ v ∈ q.2.slots d, ∀ s,
      Meets (resolve q.1 q.2 v) s (fun r s' => r = v.bind ρ ∧ s' = s) fail)
    (hfail : ∀ e, ¬ g.Claimable d (nodes.flatMap fun q => claims ρ d q.2) → fail e) :
    Meets (connect map d resolve nodes) g
      (fun _ s => Copies map nodes (connected ρ d f) s ∧ Connecting map ρ d f g nodes [] s) fail := by
  refine (Meets.forIn (fun rest s => ∃ done, nodes = done ++ rest ∧ Connecting map ρ d f g done rest s)
    ⟨[], rfl, ?_⟩ fun q rest s ⟨done, hdone, h⟩ => ?_).imp fun _ s ⟨done, hdone, h⟩ => ?_
  · exact {
      stays := .refl hg.consistent
      written := nofun
      unwritten := fun q hq => (hg.copy q hq).imp fun _ h => ⟨h.1, h.2.2⟩
      others := fun _ _ => rfl
      unclaimed := fun _ _ h => h }
  · have hq : q ∈ nodes := by simp [hdone]
    obtain ⟨new, hnew, hnode⟩ := h.unwritten q (by simp)
    simp only [hnew]
    by_cases hedges : q.2.Edgeless
    · have hwalk : q.2.walk d = [] := by
        rw [Node.walk, hedges d]
        rfl
      rw [hwalk]
      exact ⟨rfl, done ++ [q], by simp [hdone], h.skip hedges (hclear q.2)⟩
    · have halive' : s.isAlive new := by
        obtain ⟨new', hnew', ha, -⟩ := hg.copy q hq
        obtain rfl : new = new' := Option.mem_unique hnew hnew'
        rw [h.stays.sameNodes.isAlive, ha]
      -- the other nodes have other copies
      have hother (q' : NodeId × Node) (hq' : q' ∈ done ++ rest) : map.get? q'.1 ≠ some new := by
        intro hnew'
        have hmem : q' ∈ nodes := by
          rcases List.mem_append.1 hq' with hq' | hq' <;> simp [hdone, hq']
        have hsame := hg.apart q hq q' hmem hedges (hnew.trans hnew'.symm)
        rw [hdone, List.map_append, List.map_cons, List.nodup_middle, ← List.map_append,
          List.nodup_cons] at hnodup
        exact hnodup.1 (hsame ▸ List.mem_map.2 ⟨q', hq', rfl⟩)
      refine (meets_writeSlots h.stays.consistent halive' hnode (hshaped q hq) (hop q.2) (hclear q.2)
        (fun y hy => ?_) (hresolve q hq) fun e hno => hfail e fun hg => hno (h.claimable (hdone ▸ hg))).bind
          fun _ s' hs' => ?_
      · rw [h.stays.sameNodes.isAlive]
        exact halive q hq y hy
      · exact ⟨rfl, done ++ [q], by simp [hdone], h.next hnew hedges hother hs'⟩
  · rw [List.append_nil] at hdone
    subst hdone
    refine ⟨⟨h.stays.consistent, hg.apart, fun q hq => ?_⟩, h⟩
    obtain ⟨new, hnew, hnode⟩ := h.written q hq
    obtain ⟨new', hnew', ha, -⟩ := hg.copy q hq
    obtain rfl : new = new' := Option.mem_unique hnew hnew'
    exact ⟨new, hnew, by rw [h.stays.sameNodes.isAlive, ha], hnode⟩

/-! ### Successors -/

/-- Nodes of which each successor stands in one slot of one of them. -/
structure Owned (nodes : List (NodeId × Node)) : Prop where
  nodup : (nodes.map (·.1)).Nodup
  successors : ∀ q ∈ nodes, ∀ t, q.2.uses .successors t ≤ 1
  owner : ∀ q ∈ nodes, ∀ q' ∈ nodes, ∀ t, 0 < q.2.uses .successors t →
    0 < q'.2.uses .successors t → q.1 = q'.1

theorem Consistent.owned (hg : g.Consistent) (hnodup : (nodes.map (·.1)).Nodup)
    (hnode : ∀ q ∈ nodes, g.node? q.1 = some q.2) : Owned nodes where
  nodup := hnodup
  successors q hq t := by
    rw [← uses_of_node? (hnode q hq)]
    exact hg.uses_successors_le q.1 t
  owner q hq q' hq' t ht ht' := by
    rw [← uses_of_node? (hnode q hq)] at ht
    rw [← uses_of_node? (hnode q' hq')] at ht'
    exact Option.mem_unique (hg.predecessor q.1 t ht) (hg.predecessor q'.1 t ht')

/-- No node is claimed as a successor twice, where no two successors lead to the same node. -/
theorem Owned.nodup_claims (hc : Owned nodes)
    (hinj : ∀ q ∈ nodes, ∀ q' ∈ nodes, ∀ t t' y, 0 < q.2.uses .successors t →
      0 < q'.2.uses .successors t' → ρ t = some y → ρ t' = some y → t = t') :
    (nodes.flatMap fun q => claims ρ .successors q.2).Nodup := by
  rw [List.nodup_flatMap]
  constructor
  · intro q hq
    rw [List.nodup_iff_count_le_one]
    intro y
    by_cases hy : y ∈ claims ρ .successors q.2
    · obtain ⟨t, ht, hty⟩ := mem_claims.1 hy
      have hle : (claims ρ .successors q.2).count y ≤ q.2.uses .successors t := by
        rw [claims, List.count_filterMap, Node.uses, List.count]
        refine List.countP_mono_left fun v hv hy => ?_
        obtain ⟨t', rfl, hty'⟩ := Option.bind_eq_some_iff.1 (beq_iff_eq.1 hy)
        exact beq_iff_eq.2 (congrArg some
          (hinj q hq q hq t' t y (List.count_pos_iff.2 hv) ht hty' hty))
      exact hle.trans (hc.successors q hq t)
    · rw [List.count_eq_zero.2 hy]
      exact Nat.zero_le 1
  · refine (List.pairwise_map.1 hc.nodup).imp_of_mem fun {q q'} hq hq' hne y hy hy' => ?_
    obtain ⟨t, ht, hty⟩ := mem_claims.1 hy
    obtain ⟨t', ht', hty'⟩ := mem_claims.1 hy'
    obtain rfl : t = t' := hinj q hq q' hq' t t' y ht ht' hty hty'
    exact hne (hc.owner q hq q' hq' t ht ht')

/-! ### The nodes to be copied -/

theorem uses_copy_none (n : Node) (d : Direction) (t : NodeId) : (n.copy .none).uses d t = 0 := by
  rw [Node.uses, List.count_eq_zero]
  intro h
  rw [Node.slots, Node.links_copy_none] at h
  cases Links.eq_none_of_mem_slots_clear h

theorem exists_snapshot {source : Graph} {ids : List NodeId} (replacements : Renaming)
    (hreg : ∀ x ∈ ids, (source.node? x).isSome) :
    ∃ nodes, source.snapshot ids replacements = .ok nodes ∧
      nodes.map (·.1) = ids.filter (fun id => (replacements.get? id).isNone) ∧
        ∀ q ∈ nodes, source.node? q.1 = some q.2 := by
  have hreg' (x : NodeId) (hx : x ∈ ids.filter fun id => (replacements.get? id).isNone) :
      (source.node? x).isSome := hreg x (List.mem_of_mem_filter hx)
  unfold snapshot
  generalize ids.filter (fun id => (replacements.get? id).isNone) = kept at hreg' ⊢
  induction kept with
  | nil => exact ⟨[], rfl, rfl, by simp⟩
  | cons x rest ih =>
    obtain ⟨n, hn⟩ := Option.isSome_iff_exists.1 (hreg' x (by simp))
    obtain ⟨nodes, hrun, hids, hnodes⟩ := ih fun y hy => hreg' y (List.mem_cons_of_mem _ hy)
    refine ⟨(x, n) :: nodes, ?_, by simp [hids], by simpa [hn] using hnodes⟩
    rw [List.mapM_cons, hn, hrun]
    rfl

end Graph

end SeaOfNodes
