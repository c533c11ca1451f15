import SeaOfNodes.Proofs.Node.Shape

/-!
# Renaming the nodes that a node refers to

A renamed node has the same operation and the same fields, with every slot led over by a map of
handles; empty slots stay empty. The edges of a copy are written one slot after another, each in its
field, a list by appending. Written in the order of the slots, they make up the renamed links.
-/

namespace SeaOfNodes

variable {ρ : NodeId → Option NodeId} {d : Direction} {t t' : NodeId}

/-- Every slot led over by a map. -/
def Link.rename (ρ : NodeId → Option NodeId) : Link → Link
  | .one target => .one (target.bind ρ)
  | .many targets => .many (targets.map (·.bind ρ))

theorem Link.slots_rename (link : Link) : (link.rename ρ).slots = link.slots.map (·.bind ρ) := by
  cases link <;> rfl

@[simp] theorem Link.isList_rename (link : Link) : (link.rename ρ).isList = link.isList := by
  cases link <;> rfl

@[simp] theorem Link.isList_cleared (link : Link) : link.cleared.isList = link.isList := by
  cases link <;> rfl

namespace Node

/-- The node with every slot led over by a map. -/
def rename (ρ : NodeId → Option NodeId) (n : Node) : Node :=
  ⟨n.op, n.inputs.map (Link.rename ρ), n.successors.map (Link.rename ρ)⟩

theorem links_rename (n : Node) (d : Direction) :
    (n.rename ρ).links d = (n.links d).map (Link.rename ρ) := by
  cases d <;> rfl

theorem slots_rename (n : Node) (d : Direction) :
    (n.rename ρ).slots d = (n.slots d).map (·.bind ρ) := by
  rw [slots, links_rename, slots, Links.slots, Links.slots, List.flatMap_map, List.map_flatMap]
  exact List.flatMap_congr fun link _ => link.slots_rename

/-- A renamed node refers to the image of a node as often as the node to the node itself. -/
theorem uses_rename (n : Node) (d : Direction) (ht : ρ t = some t')
    (hinj : ∀ x, ρ x = some t' → x = t) : (n.rename ρ).uses d t' = n.uses d t := by
  rw [uses, slots_rename, uses, List.count, List.countP_map, List.count]
  refine List.countP_congr fun slot _ => ?_
  cases slot with
  | none => simp
  | some x =>
    simp only [Function.comp_apply, Option.bind_some, beq_iff_eq, Option.some.injEq]
    exact ⟨hinj x, fun h => h ▸ ht⟩

theorem links_copy_none (n : Node) (d : Direction) :
    (n.copy .none).links d = Links.clear (n.links d) := by
  cases d <;> rfl

end Node

namespace Links

/-- Write the next slot of a field: a list gets one more slot, and a single slot is filled unless
there is nothing to fill it with. -/
def attach (links : List Link) (field : Nat) (value : Option NodeId) : List Link :=
  match links[field]? with
  | some (.many targets) => links.set field (.many (targets ++ [value]))
  | some (.one _) => if value.isSome then links.set field (.one value) else links
  | none => links

theorem map_isList_attach (links : List Link) (field : Nat) (value : Option NodeId) :
    (attach links field value).map Link.isList = links.map Link.isList := by
  unfold attach
  split
  · rename_i h
    exact map_isList_set h rfl
  · rename_i h
    split
    · exact map_isList_set h rfl
    · rfl
  · rfl

theorem attach_append (before after : List Link) (link : Link) (value : Option NodeId) :
    attach (before ++ link :: after) before.length value =
      before ++ (match link with
        | .many targets => .many (targets ++ [value])
        | .one target => .one (if value.isSome then value else target)) :: after := by
  cases link with
  | many targets => simp [attach]
  | one target => cases value <;> simp [attach]

/-- The slots of one field, written one after another. -/
theorem foldl_attach_slots (before after : List Link) (link : Link)
    (hlen : before.length < 65536) :
    (link.slots.zipIdx.map fun (target, index) =>
      (Position.of d before.length index, target)).foldl
        (fun links x => attach links x.1.field.toNat (x.2.bind ρ)) (before ++ link.cleared :: after) =
      before ++ link.rename ρ :: after := by
  have hfield (index : Nat) : (Position.of d before.length index).field.toNat = before.length := by
    simp [Position.of, Nat.mod_eq_of_lt hlen]
  cases link with
  | one target =>
    simp only [Link.slots, Link.cleared, List.zipIdx_cons, List.zipIdx_nil, List.map_cons,
      List.map_nil, List.foldl_cons, List.foldl_nil, hfield, attach_append, Link.rename]
    cases target.bind ρ <;> rfl
  | many targets =>
    -- what is written so far stands at the front of the list
    have key (rest done : List (Option NodeId)) (k : Nat) :
        ((rest.zipIdx k).map fun (target, index) =>
          (Position.of d before.length index, target)).foldl
            (fun links x => attach links x.1.field.toNat (x.2.bind ρ))
            (before ++ .many done :: after) =
          before ++ .many (done ++ rest.map (·.bind ρ)) :: after := by
      induction rest generalizing done k with
      | nil => simp
      | cons target rest ih =>
        rw [List.zipIdx_cons, List.map_cons, List.foldl_cons, hfield, attach_append, ih]
        simp
    simpa [Link.slots, Link.cleared, Link.rename] using key targets [] 0

/-- All slots, written one after another onto cleared links. -/
theorem foldl_attach_rest (rest before : List Link) (h : before.length + rest.length ≤ 65536) :
    ((rest.zipIdx before.length).flatMap fun (link, field) =>
      link.slots.zipIdx.map fun (target, index) => (Position.of d field index, target)).foldl
        (fun links x => attach links x.1.field.toNat (x.2.bind ρ)) (before ++ clear rest) =
      before ++ rest.map (Link.rename ρ) := by
  induction rest generalizing before with
  | nil => simp [clear]
  | cons link rest ih =>
    rw [List.length_cons] at h
    rw [List.zipIdx_cons, List.flatMap_cons, List.foldl_append]
    rw [show clear (link :: rest) = link.cleared :: clear rest from rfl,
      foldl_attach_slots before (clear rest) link (by omega)]
    have := ih (before ++ [link.rename ρ]) (by simp; omega)
    simpa using this

theorem foldl_attach_walk (links : List Link) (hlen : links.length ≤ 65536) :
    (walk d links).foldl (fun links x => attach links x.1.field.toNat (x.2.bind ρ)) (clear links) =
      links.map (Link.rename ρ) := by
  simpa [walk] using foldl_attach_rest links [] (by simpa using hlen)

variable {links : List Link}

/-- A walk meets the slots of all fields. -/
theorem mem_walk_iff {x : Position × Option NodeId} : x ∈ walk d links ↔ ∃ field index link,
    x.1 = .of d field index ∧ links[field]? = some link ∧ link.slots[index]? = some x.2 := by
  obtain ⟨p, slot⟩ := x
  simp only [walk, List.mem_flatMap, List.mem_map, Prod.exists, List.mk_mem_zipIdx_iff_getElem?,
    Prod.mk.injEq]
  constructor
  · rintro ⟨link, field, hlink, _, index, hslot, rfl, rfl⟩
    exact ⟨field, index, link, rfl, hlink, hslot⟩
  · rintro ⟨field, index, link, rfl, hlink, hslot⟩
    exact ⟨link, field, hlink, slot, index, hslot, rfl, rfl⟩

theorem mem_walk {x : Position × Option NodeId} (hlen : links.length ≤ 65536)
    (h : x ∈ walk d links) : x.1.direction = d ∧
      ∃ link, links[x.1.field.toNat]? = some link ∧ x.2 ∈ link.slots := by
  obtain ⟨field, index, link, hp, hlink, hslot⟩ := mem_walk_iff.1 h
  have hlt : field < links.length := (List.getElem?_eq_some_iff.1 hlink).1
  rw [hp, Node.toNat_field_of (by omega)]
  exact ⟨rfl, link, hlink, List.mem_of_getElem? hslot⟩

theorem exists_mem_walk {field : Nat} {link : Link} {slot : Option NodeId}
    (hlink : links[field]? = some link) (hslot : slot ∈ link.slots) :
    ∃ index, (Position.of d field index, slot) ∈ walk d links := by
  obtain ⟨index, hindex⟩ := List.mem_iff_getElem?.1 hslot
  exact ⟨index, mem_walk_iff.2 ⟨field, index, link, rfl, hlink, hindex⟩⟩

theorem map_snd_walk (links : List Link) : (walk d links).map (·.2) = slots links := by
  have hfield (x : Link × Nat) :
      (x.1.slots.zipIdx.map fun (target, index) => (Position.of d x.2 index, target)).map (·.2) =
        x.1.slots := by
    rw [List.map_map]
    exact List.zipIdx_map_fst 0 x.1.slots
  calc (walk d links).map (·.2)
      = links.zipIdx.flatMap (·.1.slots) := by
        rw [walk, List.map_flatMap]
        exact List.flatMap_congr fun x _ => hfield x
    _ = (links.zipIdx.map (·.1)).flatMap Link.slots := by rw [List.flatMap_map]
    _ = slots links := by rw [List.zipIdx_map_fst, slots]

end Links

theorem Node.map_snd_walk (n : Node) : (n.walk d).map (·.2) = n.slots d := Links.map_snd_walk _

/-! ### Exchanging a node -/

variable {p q : NodeId → Bool} {links : List Link}

theorem Link.rename_congr {ρ ρ' : NodeId → Option NodeId} {link : Link}
    (h : ∀ t, some t ∈ link.slots → ρ t = ρ' t) : link.rename ρ = link.rename ρ' := by
  cases link with
  | one target =>
    cases target with
    | none => rfl
    | some t => simpa [rename] using h t (by simp [slots])
  | many targets =>
    simp only [rename, many.injEq]
    refine List.map_congr_left fun slot hslot => ?_
    cases slot with
    | none => rfl
    | some t => exact h t hslot

/-- A map that leaves the nodes of the links where they are does nothing. -/
theorem Links.map_rename_eq_self (h : ∀ t, some t ∈ slots links → ρ t = some t) :
    links.map (Link.rename ρ) = links := by
  have hsome (link : Link) : link.rename some = link := by cases link <;> simp [Link.rename]
  refine (List.map_congr_left fun link hlink => ?_).trans (List.map_id' links)
  rw [Link.rename_congr fun t ht => h t (List.mem_flatMap.2 ⟨link, hlink, ht⟩), hsome]

/-- A map that leads the new value where it leads the old one does not see the exchange. -/
theorem Links.map_rename_of_replaceFirst {links' : List Link} {new : Option NodeId}
    (hnew : new.bind ρ = ρ t) (h : replaceFirst t new links = some links') :
    links'.map (Link.rename ρ) = links.map (Link.rename ρ) := by
  induction links generalizing links' with
  | nil => cases h
  | cons link rest ih =>
    cases link with
    | one target =>
      rw [replaceFirst] at h
      split at h
      · cases h
        simp [Link.rename, *]
      · obtain ⟨rest', hrest, rfl⟩ := Option.map_eq_some_iff.1 h
        rw [List.map_cons, List.map_cons, ih hrest]
    | many targets =>
      rw [replaceFirst] at h
      split at h
      · rename_i i hi
        cases h
        obtain ⟨hlt, hfound, -⟩ := List.findIdx?_eq_some_iff_getElem.1 hi
        have hslot : (targets[i]).bind ρ = new.bind ρ := by
          simp [of_decide_eq_true hfound, hnew]
        simp only [List.map_cons, Link.rename, List.map_set]
        rw [← hslot, ← List.getElem_map (fun x => Option.bind x ρ) (h := by simpa using hlt),
          List.set_getElem_self]
      · obtain ⟨rest', hrest, rfl⟩ := Option.map_eq_some_iff.1 h
        rw [List.map_cons, List.map_cons, ih hrest]

namespace Node

variable {n n' : Node} {new : Option NodeId}

/-- The node with `new` in every slot of one direction that holds `t`. -/
def exchange (n : Node) (d : Direction) (t : NodeId) (new : Option NodeId) : Node :=
  n.withLinks d ((n.links d).map (Link.rename (Function.update some t new)))

theorem exchange_of_replaceFirst (hne : new ≠ some t) (h : n.replaceFirst d t new = some n') :
    n'.exchange d t new = n.exchange d t new := by
  obtain ⟨links, hlinks, rfl⟩ := Option.map_eq_some_iff.1 h
  have hnew : new.bind (Function.update some t new) = Function.update some t new t := by
    cases new with
    | none => simp
    | some x => simp [Function.update_of_ne (show x ≠ t by simpa using hne)]
  rw [exchange, links_withLinks, Links.map_rename_of_replaceFirst hnew hlinks, exchange]
  cases d <;> rfl

theorem exchange_eq_self (h : n.uses d t = 0) : n.exchange d t new = n := by
  have hstays (x : NodeId) (hx : some x ∈ n.slots d) : Function.update some t new x = some x :=
    Function.update_of_ne (by rintro rfl; exact List.count_eq_zero.1 h hx) ..
  rw [exchange, Links.map_rename_eq_self hstays]
  cases d <;> rfl

/-! ### Emptying slots -/

/-- The node with only the inputs that are in a set; the slots of the others are empty. -/
def keeping (p : NodeId → Bool) (n : Node) : Node :=
  { n with inputs := n.inputs.map (Link.rename (Option.guard p)) }

theorem slots_keeping (p : NodeId → Bool) (n : Node) :
    (n.keeping p).slots .inputs = (n.slots .inputs).map (·.filter p) := by
  have : (n.keeping p).slots .inputs = (n.rename (Option.guard p)).slots .inputs := rfl
  rw [this, slots_rename]
  simp only [Option.bind_guard]

theorem slotsAt_keeping (p : NodeId → Bool) (n : Node) (field : Nat) :
    (n.keeping p).slotsAt .inputs field = (n.slotsAt .inputs field).map (·.filter p) := by
  show (((n.inputs.map (Link.rename (Option.guard p)))[field]?).map Link.slots).getD [] = _
  rw [List.getElem?_map, slotsAt]
  show _ = (((n.inputs[field]?).map Link.slots).getD []).map _
  cases n.inputs[field]? with
  | none => rfl
  | some link => simp [Link.slots_rename, Option.bind_guard]

theorem mem_slotsAt_keeping {field : Nat} (h : some t ∈ (n.keeping p).slotsAt .inputs field) :
    some t ∈ n.slotsAt .inputs field := by
  rw [slotsAt_keeping] at h
  obtain ⟨slot, hslot, heq⟩ := List.mem_map.1 h
  rwa [(Option.filter_eq_some_iff.1 heq).1] at hslot

theorem uses_keeping (p : NodeId → Bool) (n : Node) (t : NodeId) :
    (n.keeping p).uses .inputs t = if p t then n.uses .inputs t else 0 := by
  rw [uses, slots_keeping, List.count, List.countP_map]
  split
  · rename_i ht
    refine List.countP_congr fun slot _ => ?_
    cases slot with
    | none => simp
    | some x =>
      simp only [Function.comp_apply, beq_iff_eq, Option.filter_eq_some_iff, Option.some.injEq]
      exact ⟨fun h => h.1, fun h => ⟨h, ht⟩⟩
  · rename_i ht
    rw [List.countP_eq_zero]
    intro slot _ heq
    exact ht (Option.filter_eq_some_iff.1 (by simpa using heq)).2

theorem keeping_congr (h : ∀ t, 0 < n.uses .inputs t → p t = q t) : n.keeping p = n.keeping q := by
  unfold keeping
  congr 1
  refine List.map_congr_left fun link hlink => Link.rename_congr fun t ht => ?_
  have hpq := h t (List.count_pos_iff.2 (List.mem_flatMap.2 ⟨link, hlink, ht⟩))
  simp only [Option.guard, hpq]

theorem keeping_eq_self (h : ∀ t, 0 < n.uses .inputs t → p t) : n.keeping p = n := by
  rw [keeping, Links.map_rename_eq_self fun t ht => ?_]
  rw [Option.guard, if_pos (h t (List.count_pos_iff.2 ht))]

theorem keeping_keeping (p q : NodeId → Bool) (n : Node) :
    (n.keeping p).keeping q = n.keeping fun t => p t && q t := by
  have (link : Link) : (link.rename (Option.guard p)).rename (Option.guard q) =
      link.rename (Option.guard fun t => p t && q t) := by
    cases link <;> simp [Link.rename, Option.bind_guard, Option.filter_filter]
  simp [keeping, Function.comp_def, this]

theorem exchange_none (n : Node) (t : NodeId) : n.exchange .inputs t none = n.keeping (· ≠ t) := by
  have : Function.update some t none = Option.guard (· ≠ t) := by
    funext x
    by_cases hx : x = t <;> simp [hx, Option.guard]
  rw [exchange, this]
  rfl

theorem clear_keeping (p : NodeId → Bool) (n : Node) : (n.keeping p).clear .inputs = n.clear .inputs := by
  have (link : Link) : (link.rename (Option.guard p)).cleared = link.cleared := by cases link <;> rfl
  show { n with inputs := Links.clear (n.inputs.map _) } = { n with inputs := Links.clear n.inputs }
  simp [Links.clear, Function.comp_def, this]

theorem Fits.keeping {cls? : NodeId → Option NodeClass} (h : n.Fits cls?) (p : NodeId → Bool) :
    (n.keeping p).Fits cls? := by
  intro d
  cases d with
  | successors => exact h .successors
  | inputs =>
    show List.Forall₂ (LinkFits cls? n.cls .inputs) n.layout.inputs (n.inputs.map _)
    rw [List.forall₂_map_right_iff]
    refine (h .inputs).imp fun spec link hl => ⟨by rw [Link.isList_rename, hl.shape], fun t ht => ?_⟩
    rw [Link.slots_rename] at ht
    obtain ⟨slot, hslot, heq⟩ := List.mem_map.1 ht
    rw [Option.bind_guard] at heq
    exact hl.accepts t (by rwa [(Option.filter_eq_some_iff.1 heq).1] at hslot)

end Node

end SeaOfNodes
