import SeaOfNodes.Proofs.Node.Rename

/-!
# Positions as addresses

A position names one slot as long as no list has more slots than sixteen bits can number. A walk meets
every slot once, by field and then by place, and reading, writing, appending and removing at positions
are reading and writing of single slots. A walk that is stopped goes on where it was.
-/

namespace SeaOfNodes

/-- Positions by field, and within a field by place. -/
def Position.Before (p q : Position) : Prop :=
  p.field < q.field ∨ (p.field = q.field ∧ p.index < q.index)

theorem Position.before_of {d : Direction} {field index field' index' : Nat}
    (hf : field' < 65536) (hi : index < 65536) (hi' : index' < 65536)
    (h : field < field' ∨ (field = field' ∧ index < index')) :
    (Position.of d field index).Before (.of d field' index') := by
  simp only [Before, Position.of, UInt16.lt_iff_toNat_lt, ← UInt16.toNat_inj, Nat.toUInt16_eq,
    UInt16.toNat_ofNat']
  omega

namespace Links

variable {d : Direction} {links ls : List Link} {field index : Nat}

theorem pairwise_zipIdx {α : Type} (l : List α) : l.zipIdx.Pairwise (·.2 < ·.2) := by
  rw [← List.pairwise_map (f := Prod.snd) (R := (· < ·)), List.zipIdx_map_snd]
  exact List.pairwise_lt_range'

/-- A walk meets slots in the order of their positions. -/
theorem pairwise_walk (hlen : links.length ≤ 65536) (hroom : ∀ link ∈ links, link.slots.length ≤ 65536) :
    (walk d links).Pairwise fun a b => a.1.Before b.1 := by
  have hfield {x : Link × Nat} (hx : x ∈ links.zipIdx) : x.2 < 65536 ∧
      ∀ y ∈ x.1.slots.zipIdx, y.2 < 65536 := by
    have hx := List.mem_zipIdx_iff_getElem?.1 hx
    refine ⟨(List.getElem?_eq_some_iff.1 hx).1.trans_le hlen, fun y hy => ?_⟩
    exact (List.getElem?_eq_some_iff.1 (List.mem_zipIdx_iff_getElem?.1 hy)).1.trans_le
      (hroom _ (List.mem_of_getElem? hx))
  refine List.pairwise_flatMap.2 ⟨fun x hx => ?_, ?_⟩
  · obtain ⟨hf, hi⟩ := hfield hx
    exact List.pairwise_map.2 ((pairwise_zipIdx _).imp_of_mem fun ha hb hlt =>
      Position.before_of hf (hi _ ha) (hi _ hb) (.inr ⟨rfl, hlt⟩))
  · refine (pairwise_zipIdx links).imp_of_mem fun {x y} hx hy hlt a ha b hb => ?_
    obtain ⟨i, hmi, rfl⟩ := List.mem_map.1 ha
    obtain ⟨j, hmj, rfl⟩ := List.mem_map.1 hb
    exact Position.before_of (hfield hy).1 ((hfield hx).2 _ hmi) ((hfield hy).2 _ hmj) (.inl hlt)

/-! ### Stopping and going on -/

/-- The slots that are ahead of a walk at a place of the first of some fields. -/
def aheadIn (d : Direction) : List Link → Nat → Nat → List (Position × Option NodeId)
  | [], _, _ => []
  | .one target :: rest, field, index =>
    (Position.of d field 0, target) :: aheadIn d rest (field + 1) index
  | .many targets :: rest, field, index =>
    (targets.zipIdx.drop index).map (fun x => (Position.of d field x.2, x.1)) ++ aheadIn d rest (field + 1) 0

/-- The slots that are ahead of a walk at a point. -/
def ahead (d : Direction) (links : List Link) (p : Point) : List (Position × Option NodeId) :=
  aheadIn d (links.drop p.field) p.field p.index

theorem walk_eq_ahead (d : Direction) (links : List Link) : walk d links = ahead d links ⟨0, 0⟩ := by
  suffices ∀ field, (links.zipIdx field).flatMap (fun x => x.1.slots.zipIdx.map fun y =>
      (Position.of d x.2 y.2, y.1)) = aheadIn d links field 0 from this 0
  induction links with
  | nil => exact fun _ => rfl
  | cons link rest ih =>
    intro field
    rw [List.zipIdx_cons, List.flatMap_cons, ih]
    cases link <;> simp [Link.slots, aheadIn]

theorem stepIn_ahead (hls : links.drop field = ls) :
    (stepIn d ls field index).1 = (aheadIn d ls field index).head? ∧
      ahead d links (stepIn d ls field index).2 = (aheadIn d ls field index).tail := by
  induction ls generalizing field index with
  | nil => exact ⟨rfl, by rw [ahead, stepIn, hls]; rfl⟩
  | cons link ls ih =>
    have hnext : links.drop (field + 1) = ls := by rw [← List.tail_drop, hls]; rfl
    cases link with
    | one target => exact ⟨rfl, by rw [ahead, stepIn, hnext]; rfl⟩
    | many targets =>
      rw [aheadIn, stepIn]
      cases ht : targets[index]? with
      | some target =>
        obtain ⟨hlt, rfl⟩ := List.getElem?_eq_some_iff.1 ht
        rw [List.drop_eq_getElem_cons (by simpa using hlt)]
        exact ⟨by simp, by rw [ahead, hls]; rfl⟩
      | none =>
        rw [List.drop_eq_nil_of_le (by simpa using ht)]
        exact ih hnext

/-- A step gives the first of the slots ahead, and leaves the others ahead. -/
theorem step_ahead (d : Direction) (links : List Link) (p : Point) :
    (step d links p).1 = (ahead d links p).head? ∧
      ahead d links (step d links p).2 = (ahead d links p).tail :=
  stepIn_ahead rfl

theorem walkOn_eq_take (d : Direction) (links : List Link) (n : Nat) (p : Point) :
    walkOn d links n p = (ahead d links p).take n := by
  induction n generalizing p with
  | zero => rfl
  | succ n ih =>
    obtain ⟨hfirst, hrest⟩ := step_ahead d links p
    rw [walkOn]
    generalize step d links p = r at hfirst hrest
    obtain ⟨item, q⟩ := r
    cases hahead : ahead d links p with
    | nil => simp_all
    | cons => simp_all

/-- After some steps, the slots ahead are those that were not met. -/
theorem ahead_iterate (d : Direction) (links : List Link) (k : Nat) :
    ahead d links ((fun p => (step d links p).2)^[k] ⟨0, 0⟩) = (walk d links).drop k := by
  induction k with
  | zero => exact (walk_eq_ahead d links).symm
  | succ k ih => rw [Function.iterate_succ_apply', (step_ahead ..).2, ih, List.tail_drop]

end Links

namespace Node

theorem toNat_index_of {d : Direction} {field index : Nat} (hlt : index < 65536) :
    (Position.of d field index).index.toNat = index := by
  simp [Position.of]
  omega

variable {n : Node} {d : Direction} {field index : Nat} {x : Option NodeId} {link : Link}
  {targets : List (Option NodeId)}

/-! ### Single fields -/

theorem getElem?_slotsAt : (n.slotsAt d field)[index]? = some x ↔
    ∃ link, (n.links d)[field]? = some link ∧ link.slots[index]? = some x := by
  rw [slotsAt]
  cases (n.links d)[field]? <;> simp

/-- A field has other slots; everything else stays. -/
structure Rewrites (n n' : Node) (d : Direction) (field : Nat) (slots : List (Option NodeId)) : Prop where
  op : n'.op = n.op
  slotsAt : ∀ d' f, n'.slotsAt d' f = if d' = d ∧ f = field then slots else n.slotsAt d' f

theorem rewrites_set (hlink : (n.links d)[field]? = some link) (link' : Link) :
    n.Rewrites (n.withLinks d ((n.links d).set field link')) d field link'.slots := by
  refine ⟨op_withLinks .., fun d' f => ?_⟩
  by_cases hd : d' = d
  · subst hd
    by_cases hf : f = field
    · rw [if_pos ⟨rfl, hf⟩, hf, slotsAt_set hlink]
    · rw [if_neg fun h => hf h.2, slotsAt, links_withLinks, List.getElem?_set_ne (Ne.symm hf), slotsAt]
  · rw [if_neg fun h => hd h.1, slotsAt, links_withLinks_of_ne hd, slotsAt]

theorem exists_push (hlink : (n.links d)[field]? = some (.many targets)) (value : Option NodeId) :
    ∃ n', n.push d field value = .ok (.of d field targets.length, n') ∧
      n.Rewrites n' d field (targets ++ [value]) :=
  ⟨_, by rw [push, hlink], rewrites_set hlink (.many (targets ++ [value]))⟩

section

variable (hf : field < 65536) (hi : index < 65536)

include hf hi

theorem get_of (hx : (n.slotsAt d field)[index]? = some x) : n.get (.of d field index) = x := by
  obtain ⟨link, hlink, hslot⟩ := getElem?_slotsAt.1 hx
  rw [get, toNat_field_of hf, toNat_index_of hi]
  show Links.get (n.links d) field index = x
  rw [Links.get, hlink]
  cases link with
  | one target => exact (List.mem_singleton.1 (List.mem_of_getElem? hslot)).symm
  | many targets => exact congrArg Option.join hslot

theorem exists_put_of (hx : (n.slotsAt d field)[index]? = some x) (value : Option NodeId) :
    ∃ n', n.put (.of d field index) value = .ok n' ∧
      n.Rewrites n' d field ((n.slotsAt d field).set index value) := by
  obtain ⟨link, hlink, hslot⟩ := getElem?_slotsAt.1 hx
  have hlt := (List.getElem?_eq_some_iff.1 hslot).1
  rw [slotsAt_of_getElem? hlink]
  cases link with
  | one target =>
    obtain rfl : index = 0 := Nat.lt_one_iff.1 hlt
    exact ⟨_, put_of_one hf hlink value, rewrites_set hlink (.one value)⟩
  | many targets =>
    refine ⟨_, ?_, rewrites_set hlink (.many (targets.set index value))⟩
    simp only [put, toNat_field_of hf, toNat_index_of hi,
      show (Position.of d field index).direction = d from rfl, hlink]
    exact if_pos hlt

theorem removeAt_of (hlink : (n.links d)[field]? = some (.many targets)) (hx : targets[index]? = some x) :
    (n.removeAt (.of d field index)).1 = x ∧
      n.Rewrites (n.removeAt (.of d field index)).2 d field (targets.eraseIdx index) := by
  simp only [removeAt, Links.removeAt, toNat_field_of hf, toNat_index_of hi,
    show (Position.of d field index).direction = d from rfl, hlink,
    if_pos (List.getElem?_eq_some_iff.1 hx).1, hx]
  exact ⟨rfl, rewrites_set hlink (.many (targets.eraseIdx index))⟩

end

/-- Positions name slots. A walk meets every slot once, by field and then by place. What was met at a
position is read there; a write there changes that slot alone, and a removal there moves the later
slots of the list down by one. What is appended to a list is read at the new position, and no other
position changes. A walk that was stopped after any number of steps goes on with the slots left. -/
theorem positions_name_slots (n : Node) (d : Direction) (hn : n.Shaped)
    (hroom : ∀ field, (n.slotsAt d field).length ≤ 65536) :
    ((∀ p x, (p, x) ∈ n.walk d ↔
        ∃ field index, p = .of d field index ∧ (n.slotsAt d field)[index]? = some x) ∧
      (n.walk d).Pairwise (fun a b => a.1.Before b.1) ∧ (n.walk d).map (·.2) = n.slots d) ∧
    (∀ field index x, (n.slotsAt d field)[index]? = some x →
      n.get (.of d field index) = x ∧
      (∀ value, ∃ n', n.put (.of d field index) value = .ok n' ∧
        n.Rewrites n' d field ((n.slotsAt d field).set index value)) ∧
      (∀ targets, (n.links d)[field]? = some (.many targets) → (n.removeAt (.of d field index)).1 = x ∧
        n.Rewrites (n.removeAt (.of d field index)).2 d field (targets.eraseIdx index))) ∧
    (∀ field targets value, (n.links d)[field]? = some (.many targets) → targets.length < 65536 →
      ∃ n', n.push d field value = .ok (.of d field targets.length, n') ∧
        n'.get (.of d field targets.length) = value ∧ n.Rewrites n' d field (targets ++ [value])) ∧
    (∀ k, let p := (fun p => (Links.step d (n.links d) p).2)^[k] ⟨0, 0⟩
      (Links.step d (n.links d) p).1 = (n.walk d)[k]? ∧ Links.walkFrom d (n.links d) p = (n.walk d).drop k) := by
  have hlen := hn.length_links_le d
  have hfield {field : Nat} {link : Link} (hlink : (n.links d)[field]? = some link) : field < 65536 :=
    (List.getElem?_eq_some_iff.1 hlink).1.trans_le hlen
  refine ⟨⟨fun p x => ?_, ?_, n.map_snd_walk⟩, fun field index x hx => ?_,
    fun field targets value hlink hlt => ?_, fun k => ⟨?_, ?_⟩⟩
  · simp only [walk, Links.mem_walk_iff, getElem?_slotsAt, exists_and_left]
  · refine Links.pairwise_walk hlen fun link hlink => ?_
    obtain ⟨field, hlink⟩ := List.mem_iff_getElem?.1 hlink
    exact slotsAt_of_getElem? hlink ▸ hroom field
  · obtain ⟨link, hlink, -⟩ := getElem?_slotsAt.1 hx
    have hi : index < 65536 := (List.getElem?_eq_some_iff.1 hx).1.trans_le (hroom field)
    refine ⟨get_of (hfield hlink) hi hx, exists_put_of (hfield hlink) hi hx, fun targets hlist => ?_⟩
    rw [slotsAt_of_getElem? hlist] at hx
    exact removeAt_of (hfield hlink) hi hlist hx
  · obtain ⟨n', hpush, hrewrites⟩ := exists_push hlink value
    refine ⟨n', hpush, get_of (hfield hlink) hlt ?_, hrewrites⟩
    rw [hrewrites.slotsAt, if_pos ⟨rfl, rfl⟩]
    simp
  · rw [(Links.step_ahead ..).1, Links.ahead_iterate, List.head?_drop]
    rfl
  · rw [Links.walkFrom, Links.walkOn_eq_take, Links.ahead_iterate, List.take_of_length_le]
    · rfl
    · rw [List.length_drop, ← Links.map_snd_walk (d := d), List.length_map]
      omega

/-- A phi with two values loses the first one. -/
theorem positions_name_slots_phi :
    let n : Node := ⟨.phi .int, [.one (some ⟨0⟩), .many [some ⟨1⟩, some ⟨2⟩]], []⟩
    n.Shaped ∧ (∀ field, (n.slotsAt .inputs field).length ≤ 65536) ∧ n.get (.of .inputs 1 1) = some ⟨2⟩ ∧
      (n.removeAt (.of .inputs 1 0)).2.slotsAt .inputs 1 = [some ⟨2⟩] := by
  intro n
  have hn : n.Shaped := by decide
  have hroom : ∀ field, (n.slotsAt .inputs field).length ≤ 65536
    | 0 | 1 => by decide
    | _ + 2 => by simp [n, slotsAt, links]
  have hslots := (positions_name_slots n .inputs hn hroom).2.1
  refine ⟨hn, hroom, (hslots 1 1 _ rfl).1, ?_⟩
  rw [((hslots 1 0 _ rfl).2.2 _ rfl).2.slotsAt]
  rfl

end Node

end SeaOfNodes
