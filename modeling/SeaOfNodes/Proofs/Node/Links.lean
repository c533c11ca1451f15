import Mathlib.Tactic
import SeaOfNodes.Node.Basic

/-!
# Rewriting the edges of a node

A write to an edge takes one node out of a slot and puts another one in, or none. `Edit` says what
every such write does to the node as a whole: the slots of one field change by that exchange, and
everything else stays. So each node stands in the slots as often as before, but for the two.
-/

namespace SeaOfNodes

/-- Whether a link is a list of slots. -/
def Link.isList : Link → Bool
  | .one _ => false
  | .many _ => true

/-- One if a slot with this content holds the node, and zero otherwise. -/
def occurs (slot : Option NodeId) (t : NodeId) : Nat := if slot = some t then 1 else 0

@[simp] theorem occurs_none (t : NodeId) : occurs none t = 0 := rfl

@[simp] theorem occurs_self (t : NodeId) : occurs (some t) t = 1 := if_pos rfl

variable {t : NodeId}

theorem occurs_of_ne {slot : Option NodeId} (h : slot ≠ some t) : occurs slot t = 0 :=
  if_neg h

theorem count_singleton_eq_occurs (slot : Option NodeId) (t : NodeId) :
    [slot].count (some t) = occurs slot t := by
  rw [occurs, List.count_singleton]
  simp

/-! ### Slots -/

/-- The slots `ys` are `xs` with `old` taken out of one slot and `new` put in. -/
structure Swaps (xs ys : List (Option NodeId)) (old new : Option NodeId) : Prop where
  count : ∀ t, ys.count (some t) + occurs old t = xs.count (some t) + occurs new t
  mem : ∀ x ∈ ys, x = new ∨ x ∈ xs
  old_mem : ∀ t, old = some t → some t ∈ xs
  place : ∀ i : Nat, ys[i]? = xs[i]? ∨ (ys[i]? = some new ∧ (xs[i]? = none ∨ xs[i]? = some old)) ∨
    new = none
  length : ys.length = xs.length ∨ old = none ∨ new = none

namespace Swaps

variable {xs ys : List (Option NodeId)} {old new : Option NodeId} {y x : Option NodeId}

theorem refl (xs : List (Option NodeId)) : Swaps xs xs none none :=
  ⟨fun _ => rfl, fun _ h => .inr h, fun _ h => (by cases h), fun _ => .inl rfl, .inl rfl⟩

theorem singleton (old new : Option NodeId) : Swaps [old] [new] old new where
  count t := by rw [count_singleton_eq_occurs, count_singleton_eq_occurs, Nat.add_comm]
  mem x hx := .inl (by simpa using hx)
  old_mem t h := by simp [h]
  place i := by cases i <;> simp
  length := .inl rfl

theorem append_singleton (xs : List (Option NodeId)) (new : Option NodeId) :
    Swaps xs (xs ++ [new]) none new where
  count t := by rw [List.count_append, count_singleton_eq_occurs]; rfl
  mem x hx := by simpa [or_comm] using hx
  old_mem t h := by cases h
  place i := by
    rcases Nat.lt_trichotomy i xs.length with hi | rfl | hi
    · simp [List.getElem?_append_left hi]
    · simp
    · simp [List.getElem?_eq_none (Nat.le_of_lt hi), hi]
  length := .inr (.inl rfl)

theorem set {i : Nat} (hi : i < xs.length) (new : Option NodeId) :
    Swaps xs (xs.set i new) xs[i] new where
  count t := by
    have h1 := (List.set_perm_cons_eraseIdx hi new).count_eq (some t)
    have h2 := (List.getElem_cons_eraseIdx_perm hi).count_eq (some t)
    rw [← List.singleton_append, List.count_append, count_singleton_eq_occurs] at h1 h2
    omega
  mem x hx := (List.mem_or_eq_of_mem_set hx).symm
  old_mem t h := h ▸ List.getElem_mem hi
  place j := by
    by_cases hj : i = j
    · subst hj
      simp [hi]
    · simp [List.getElem?_set_ne hj]
  length := .inl (List.length_set ..)

theorem eraseIdx {i : Nat} (hi : i < xs.length) : Swaps xs (xs.eraseIdx i) xs[i] none where
  count t := by
    have h := (List.getElem_cons_eraseIdx_perm hi).count_eq (some t)
    rw [← List.singleton_append, List.count_append, count_singleton_eq_occurs] at h
    rw [occurs_none]
    omega
  mem x hx := .inr (List.mem_of_mem_eraseIdx hx)
  old_mem t h := h ▸ List.getElem_mem hi
  place _ := .inr (.inr rfl)
  length := .inr (.inr rfl)

theorem head (h : Swaps xs ys old new) : ys.head? = xs.head? ∨
    (ys.head? = some new ∧ (xs = [] ∨ xs.head? = some old)) ∨ new = none := by
  simpa [List.head?_eq_getElem?, List.getElem?_eq_none_iff] using h.place 0

/-- A single slot that takes a node in holds it afterwards. -/
theorem eq_of_singleton (h : Swaps [x] [y] old (some t)) :
    y = some t := by
  by_contra hy
  have hcount := h.count t
  rw [count_singleton_eq_occurs, count_singleton_eq_occurs, occurs_of_ne hy, occurs_self] at hcount
  have hold : old = some t := by
    by_contra hne
    rw [occurs_of_ne hne] at hcount
    omega
  have hx : x = some t := by simpa [eq_comm] using h.old_mem t hold
  rw [hx, hold, occurs_self] at hcount
  omega

end Swaps

/-! ### Lists of links -/

namespace Links

variable {links links' : List Link} {t : NodeId} {new : Option NodeId}

theorem slots_cons (link : Link) (links : List Link) :
    slots (link :: links) = link.slots ++ slots links := by
  simp [slots]

/-- Exchanging one link exchanges its slots. -/
theorem count_slots_set {i : Nat} {link : Link} (h : links[i]? = some link) (link' : Link)
    (x : Option NodeId) :
    (slots (links.set i link')).count x + link.slots.count x =
      (slots links).count x + link'.slots.count x := by
  induction links generalizing i with
  | nil => simp at h
  | cons l rest ih =>
    cases i with
    | zero =>
      simp only [List.getElem?_cons_zero, Option.some.injEq] at h
      subst h
      simp only [List.set_cons_zero, slots_cons, List.count_append]
      omega
    | succ i =>
      simp only [List.getElem?_cons_succ] at h
      have := ih h
      simp only [List.set_cons_succ, slots_cons, List.count_append]
      omega

theorem map_isList_set {i : Nat} {link link' : Link} (h : links[i]? = some link)
    (hl : link'.isList = link.isList) :
    (links.set i link').map Link.isList = links.map Link.isList := by
  obtain ⟨hlt, rfl⟩ := List.getElem?_eq_some_iff.1 h
  apply List.ext_getElem (by simp)
  intro j h1 h2
  simp only [List.getElem_map, List.getElem_set]
  split
  · subst_vars; exact hl
  · rfl

theorem eq_none_of_mem_slots_clear {x : Option NodeId} (h : x ∈ slots (clear links)) : x = none := by
  simp only [slots, clear, List.mem_flatMap, List.mem_map] at h
  obtain ⟨_, ⟨link, _, rfl⟩, hx⟩ := h
  cases link <;> simp_all [Link.cleared, Link.slots]

theorem count_targets (links : List Link) (t : NodeId) :
    (targets links).count t = (slots links).count (some t) := by
  rw [targets]
  induction slots links with
  | nil => rfl
  | cons x rest ih =>
    cases x with
    | none => simpa using ih
    | some a =>
      rw [List.filterMap_cons_some (f := id) (b := a) rfl, List.count_cons, List.count_cons, ih]
      simp

/-- Putting a value into the first slot that holds `old` is an exchange in one link. -/
theorem replaceFirst_eq_some {old : NodeId} (h : replaceFirst old new links = some links') :
    ∃ i link link', links[i]? = some link ∧ links' = links.set i link' ∧
      link'.isList = link.isList ∧ Swaps link.slots link'.slots (some old) new := by
  induction links generalizing links' with
  | nil => simp [replaceFirst] at h
  | cons l rest ih =>
    -- the exchange is in this link, or in one of the later ones
    have later {rest' : List Link} (hr : replaceFirst old new rest = some rest') :
        ∃ i link link', (l :: rest)[i]? = some link ∧ l :: rest' = (l :: rest).set i link' ∧
          link'.isList = link.isList ∧ Swaps link.slots link'.slots (some old) new := by
      obtain ⟨i, link, link', hi, rfl, hlink⟩ := ih hr
      exact ⟨i + 1, link, link', hi, rfl, hlink⟩
    cases l with
    | one target =>
      rw [replaceFirst] at h
      split at h
      · cases h
        subst_vars
        exact ⟨0, .one (some old), .one new, rfl, rfl, rfl, .singleton _ _⟩
      · obtain ⟨rest', hrest, rfl⟩ := Option.map_eq_some_iff.1 h
        exact later hrest
    | many targets =>
      rw [replaceFirst] at h
      split at h
      · cases h
        rename_i i hi
        obtain ⟨hlt, hold, -⟩ := List.findIdx?_eq_some_iff_getElem.1 hi
        have hold : targets[i] = some old := by simpa using hold
        exact ⟨0, .many targets, .many (targets.set i new), rfl, rfl, rfl, hold ▸ .set hlt new⟩
      · obtain ⟨rest', hrest, rfl⟩ := Option.map_eq_some_iff.1 h
        exact later hrest

/-- There is a slot to put a value into exactly if some slot holds `old`. -/
theorem replaceFirst_isSome {old : NodeId} :
    (replaceFirst old new links).isSome ↔ some old ∈ slots links := by
  induction links with
  | nil => simp [replaceFirst, slots]
  | cons l rest ih =>
    rw [slots_cons, List.mem_append, ← ih]
    cases l with
    | one target =>
      rw [replaceFirst]
      by_cases ht : target = some old
      · simp [ht, Link.slots]
      · simp [ht, Link.slots, Ne.symm ht]
    | many targets =>
      rw [replaceFirst]
      split
      · rename_i i hi
        obtain ⟨hlt, hold, -⟩ := List.findIdx?_eq_some_iff_getElem.1 hi
        have hold : targets[i] = some old := by simpa using hold
        simpa [Link.slots] using .inl (hold ▸ List.getElem_mem hlt)
      · rename_i hnone
        have : some old ∉ targets := fun hm => by
          simpa using List.findIdx?_eq_none_iff.1 hnone _ hm
        simp [Link.slots, this]

end Links

/-! ### Nodes -/

namespace Node

variable {n n' : Node} {d : Direction} {field : Nat} {old new : Option NodeId} {t : NodeId}
  {x value : Option NodeId} {d' : Direction} {p : Position}

/-- The slots of one field. -/
def slotsAt (n : Node) (d : Direction) (field : Nat) : List (Option NodeId) :=
  (((n.links d)[field]?).map Link.slots).getD []

/-- How often a node stands in the slots of one direction. -/
def uses (n : Node) (d : Direction) (t : NodeId) : Nat := (n.slots d).count (some t)

theorem count_targets (n : Node) (d : Direction) (t : NodeId) :
    (n.targets d).count t = n.uses d t := Links.count_targets _ t

theorem mem_targets : t ∈ n.targets d ↔ 0 < n.uses d t := by
  rw [← count_targets, List.count_pos_iff]

theorem mem_slots_of_mem_slotsAt (h : x ∈ n.slotsAt d field) : x ∈ n.slots d := by
  unfold slotsAt at h
  cases hlink : (n.links d)[field]? with
  | none => simp [hlink] at h
  | some link =>
    rw [hlink] at h
    exact List.mem_flatMap.2 ⟨link, List.mem_of_getElem? hlink, h⟩

theorem mem_slotsAt_of_get (h : n.get p = some t) :
    some t ∈ n.slotsAt p.direction p.field.toNat := by
  unfold get Links.get at h
  unfold slotsAt
  cases hlink : (n.links p.direction)[p.field.toNat]? with
  | none => simp [hlink] at h
  | some link =>
    cases link with
    | one target => simp_all [Link.slots]
    | many targets =>
      simp only [hlink, Option.join_eq_some_iff] at h
      exact List.mem_of_getElem? h

theorem uses_pos_of_get (h : n.get p = some t) : 0 < n.uses p.direction t :=
  List.count_pos_iff.2 (mem_slots_of_mem_slotsAt (mem_slotsAt_of_get h))

@[simp] theorem links_withLinks (n : Node) (d : Direction) (links : List Link) :
    (n.withLinks d links).links d = links := by
  cases d <;> rfl

@[simp] theorem withLinks_links (n : Node) (d : Direction) : n.withLinks d (n.links d) = n := by
  cases d <;> rfl

theorem links_withLinks_of_ne (h : d' ≠ d) (links : List Link) :
    (n.withLinks d links).links d' = n.links d' := by
  cases d <;> cases d' <;> first | rfl | exact absurd rfl h

@[simp] theorem op_withLinks (n : Node) (d : Direction) (links : List Link) :
    (n.withLinks d links).op = n.op := by
  cases d <;> rfl

theorem slotsAt_set {link : Link} (h : (n.links d)[field]? = some link) (link' : Link) :
    (n.withLinks d ((n.links d).set field link')).slotsAt d field = link'.slots := by
  rw [slotsAt, links_withLinks, List.getElem?_set_self (List.getElem?_eq_some_iff.1 h).1]
  rfl

/-- The slots of one field change by the exchange of `old` for `new`; everything else stays. -/
inductive Edit (n : Node) : Node → Direction → Nat → Option NodeId → Option NodeId → Prop
  | set {d : Direction} {field : Nat} {old new : Option NodeId} {link link' : Link}
    (h : (n.links d)[field]? = some link) (hl : link'.isList = link.isList)
    (hs : Swaps link.slots link'.slots old new) :
    Edit n (n.withLinks d ((n.links d).set field link')) d field old new
  | same (d : Direction) (field : Nat) : Edit n n d field none none

theorem edit_one (hx : (n.links d)[field]? = some (.one old)) (new : Option NodeId) :
    n.Edit (n.withLinks d ((n.links d).set field (.one new))) d field old new :=
  .set hx rfl (.singleton _ _)

namespace Edit

variable (h : n.Edit n' d field old new)

include h

theorem op : n'.op = n.op := by
  cases h with
  | set => exact op_withLinks ..
  | same => rfl

theorem cls : n'.cls = n.cls := congrArg Op.cls h.op

theorem layout : n'.layout = n.layout := congrArg Op.layout h.op

theorem other (d' : Direction) (hd : d' ≠ d) : n'.links d' = n.links d' := by
  cases h with
  | set => exact links_withLinks_of_ne hd _
  | same => rfl

theorem shape : (n'.links d).map Link.isList = (n.links d).map Link.isList := by
  cases h with
  | set h hl => rw [links_withLinks, Links.map_isList_set h hl]
  | same => rfl

theorem elsewhere (j : Nat) (hj : j ≠ field) : (n'.links d)[j]? = (n.links d)[j]? := by
  cases h with
  | set => rw [links_withLinks, List.getElem?_set_ne hj.symm]
  | same => rfl

theorem swaps : Swaps (n.slotsAt d field) (n'.slotsAt d field) old new := by
  cases h with
  | set h _ hs =>
    rw [slotsAt_set h, slotsAt, h]
    exact hs
  | same => exact .refl _

theorem uses_add (t : NodeId) : n'.uses d t + occurs old t = n.uses d t + occurs new t := by
  cases h with
  | @set _ _ _ _ _ link' h _ hs =>
    have hslots := Links.count_slots_set h link' (some t)
    have hcount := hs.count t
    rw [uses, slots, links_withLinks, uses, slots]
    omega
  | same => rfl

theorem uses_other (hd : d' ≠ d) (t : NodeId) : n'.uses d' t = n.uses d' t := by
  simp only [uses, slots, h.other d' hd]

/-- What a field holds afterwards it held before, but for the new one. -/
theorem mem_slotsAt {j : Nat} (hx : x ∈ n'.slotsAt d j) : (j = field ∧ x = new) ∨ x ∈ n.slotsAt d j := by
  by_cases hj : j = field
  · subst hj
    exact (h.swaps.mem x hx).imp_left fun e => ⟨rfl, e⟩
  · right
    rwa [slotsAt, h.elsewhere j hj] at hx

/-- The slots of another direction are as before. -/
theorem slotsAt_other (d' : Direction) (hd : d' ≠ d) (j : Nat) :
    n'.slotsAt d' j = n.slotsAt d' j := by
  rw [slotsAt, h.other d' hd, slotsAt]

/-- The slots of another field are as before. -/
theorem slotsAt_elsewhere {j : Nat} (hj : j ≠ field) :
    n'.slotsAt d j = n.slotsAt d j := by
  rw [slotsAt, h.elsewhere j hj, slotsAt]

end Edit

/-- What is taken out was there. -/
theorem Edit.uses_old_pos (h : n.Edit n' d field (some t) new) : 0 < n.uses d t := by
  exact List.count_pos_iff.2 (mem_slots_of_mem_slotsAt (h.swaps.old_mem t rfl))

theorem edit_of_put (h : n.put p value = .ok n') :
    n.Edit n' p.direction p.field.toNat (n.get p) value := by
  unfold put at h
  simp only at h
  cases hlink : (n.links p.direction)[p.field.toNat]? with
  | none => simp [hlink] at h
  | some link =>
    cases link with
    | one target =>
      simp only [hlink, Except.ok.injEq] at h
      subst h
      rw [get, Links.get, hlink]
      exact .set hlink rfl (.singleton _ _)
    | many targets =>
      simp only [hlink] at h
      split at h
      · rename_i hlt
        cases h
        have hget : n.get p = targets[p.index.toNat] := by
          rw [get, Links.get, hlink]
          simp [hlt]
        rw [hget]
        exact .set hlink rfl (.set hlt _)
      · cases h

theorem toNat_field_of {index : Nat} (hlt : field < 65536) :
    (Position.of d field index).field.toNat = field := by
  simp [Position.of]
  omega

theorem get_of_one (hlt : field < 65536) (hx : (n.links d)[field]? = some (.one x)) :
    n.get (Position.of d field 0) = x := by
  rw [get, toNat_field_of hlt]
  show Links.get (n.links d) field _ = x
  rw [Links.get, hx]

theorem put_of_one (hlt : field < 65536) (hx : (n.links d)[field]? = some (.one x))
    (value : Option NodeId) : n.put (Position.of d field 0) value =
      .ok (n.withLinks d ((n.links d).set field (.one value))) := by
  simp only [put, toNat_field_of hlt, show (Position.of d field 0).direction = d from rfl, hx]

theorem edit_of_push (h : n.push d field value = .ok (p, n')) : n.Edit n' d field none value := by
  unfold push at h
  split at h
  · rename_i targets hlink
    cases h
    exact .set hlink rfl (.append_singleton _ _)
  · cases h

theorem edit_removeAt (n : Node) (p : Position) :
    n.Edit (n.removeAt p).2 p.direction p.field.toNat (n.removeAt p).1 none := by
  have unchanged : n.Edit (n.withLinks p.direction (n.links p.direction)) p.direction p.field.toNat
      none none := by
    rw [withLinks_links]
    exact .same ..
  show n.Edit (n.withLinks p.direction (Links.removeAt ..).2) p.direction p.field.toNat
    (Links.removeAt ..).1 none
  unfold Links.removeAt
  split
  · rename_i targets hlink
    split
    · rename_i hlt
      simp only [List.getElem?_eq_getElem hlt, Option.join_some]
      exact .set hlink rfl (.eraseIdx hlt)
    · exact unchanged
  · exact unchanged

theorem edit_of_replaceFirst (h : n.replaceFirst d t new = some n') :
    ∃ field, n.Edit n' d field (some t) new := by
  obtain ⟨links', hl, rfl⟩ := Option.map_eq_some_iff.1 h
  obtain ⟨i, link, link', hi, rfl, hlist, hs⟩ := Links.replaceFirst_eq_some hl
  exact ⟨i, .set hi hlist hs⟩

theorem replaceFirst_isSome (new : Option NodeId) :
    (n.replaceFirst d t new).isSome ↔ 0 < n.uses d t := by
  rw [replaceFirst, Option.isSome_map, Links.replaceFirst_isSome, uses, List.count_pos_iff, slots]

theorem replaceFirst_eq_none : n.replaceFirst d t new = none ↔ n.uses d t = 0 := by
  rw [← Option.not_isSome_iff_eq_none, replaceFirst_isSome, Nat.pos_iff_ne_zero, not_not]

/-! ### Clearing -/

theorem uses_clear (n : Node) (d : Direction) (t : NodeId) : (n.clear d).uses d t = 0 := by
  rw [uses, List.count_eq_zero]
  intro h
  rw [slots, clear, links_withLinks] at h
  cases Links.eq_none_of_mem_slots_clear h

theorem links_clear_of_ne (h : d' ≠ d) : (n.clear d).links d' = n.links d' :=
  links_withLinks_of_ne h _

theorem uses_clear_of_ne (h : d' ≠ d) (t : NodeId) :
    (n.clear d).uses d' t = n.uses d' t := by
  simp only [uses, slots, links_clear_of_ne h]

theorem uses_clear_ite (n : Node) (d d' : Direction) (t : NodeId) :
    (n.clear d).uses d' t = if d' = d then 0 else n.uses d' t := by
  split
  · subst_vars; exact uses_clear ..
  · exact uses_clear_of_ne ‹_› t

end Node

end SeaOfNodes
