import SeaOfNodes.Proofs.Node.Fields

/-!
# The shape of a node

A node has the shape of its class when it has one link per field, a list where the field is a list
and a single slot elsewhere. No class has two lists in one direction, so the slots in a row tell
where each field begins: two nodes of the same operation with the same slots are equal.
-/

namespace SeaOfNodes

namespace Links

variable {links links' : List Link}

theorem length_slots_of_single (h : true ∉ links.map Link.isList) :
    (slots links).length = links.length := by
  induction links with
  | nil => rfl
  | cons link rest ih =>
    rw [List.map_cons, List.mem_cons, not_or] at h
    rw [slots_cons, List.length_append, ih h.2, List.length_cons]
    cases link with
    | one target => simp [Link.slots, Nat.add_comm]
    | many targets => simp [Link.isList] at h

/-- With at most one list among the fields, the slots in a row determine the links. -/
theorem eq_of_slots (hshape : links.map Link.isList = links'.map Link.isList)
    (hone : (links.map Link.isList).count true ≤ 1) (hslots : slots links = slots links') :
    links = links' := by
  induction links generalizing links' with
  | nil => exact (List.map_eq_nil_iff.1 hshape.symm).symm
  | cons link rest ih =>
    cases links' with
    | nil => simp at hshape
    | cons link' rest' =>
      rw [List.map_cons, List.map_cons, List.cons.injEq] at hshape
      rw [List.map_cons, List.count_cons] at hone
      rw [slots_cons, slots_cons] at hslots
      cases link with
      | one target =>
        cases link' with
        | many targets' => simp [Link.isList] at hshape
        | one target' =>
          obtain ⟨hhead, htail⟩ := List.cons.inj hslots
          rw [hhead, ih hshape.2 (by omega) htail]
      | many targets =>
        cases link' with
        | one target' => simp [Link.isList] at hshape
        | many targets' =>
          -- every later field holds one slot, so the later slots are told off from the end
          have hnone : true ∉ rest.map Link.isList :=
            List.count_eq_zero.1 (by simpa [Link.isList] using hone)
          have hlen : (slots rest).length = (slots rest').length := by
            rw [length_slots_of_single hnone, length_slots_of_single (hshape.2 ▸ hnone)]
            simpa using congrArg List.length hshape.2
          obtain ⟨hhead, htail⟩ := List.append_inj' hslots hlen
          rw [show targets = targets' from hhead, ih hshape.2 (by omega) htail]

end Links

theorem NodeClass.count_list_fields_le (c : NodeClass) (d : Direction) :
    ((c.layout.fields d).map (·.shape == .list)).count true ≤ 1 := by
  cases d <;> cases c <;> decide

theorem NodeClass.successors_of_valueNumberable {c : NodeClass} (h : c.has .valueNumberable) :
    c.layout.fields .successors = [] := by
  revert h
  cases c <;> decide

namespace Node

variable {n m : Node} {d : Direction} {t : NodeId}

theorem eq_of_links (hop : m.op = n.op) (h : ∀ d, m.links d = n.links d) : m = n := by
  obtain ⟨op, inputs, successors⟩ := m
  obtain ⟨op', inputs', successors'⟩ := n
  obtain rfl : op = op' := hop
  obtain rfl : inputs = inputs' := h .inputs
  obtain rfl : successors = successors' := h .successors
  rfl

/-- A node has one link per field of its class, of the field's shape. -/
def Shaped (n : Node) : Prop :=
  ∀ d, (n.links d).map Link.isList = (n.layout.fields d).map (·.shape == .list)

theorem shaped_iff : n.Shaped ↔
    n.inputs.map Link.isList = n.layout.inputs.map (·.shape == .list) ∧
      n.successors.map Link.isList = n.layout.successors.map (·.shape == .list) :=
  ⟨fun h => ⟨h .inputs, h .successors⟩, fun h d => by cases d; exacts [h.1, h.2]⟩

instance (n : Node) : Decidable n.Shaped := decidable_of_iff' _ shaped_iff

theorem Fits.shaped {cls? : NodeId → Option NodeClass} (h : n.Fits cls?) : n.Shaped := by
  intro d
  have hfits := h d
  generalize n.links d = links, n.layout.fields d = specs at hfits ⊢
  induction hfits with
  | nil => rfl
  | cons hl _ ih => rw [List.map_cons, List.map_cons, hl.shape, ih]

theorem shaped_ofInputs {op : Op} {inputs : List Link}
    (h : inputs.map Link.isList = op.layout.inputs.map (·.shape == .list)) :
    (ofInputs op inputs).Shaped := by
  intro d
  cases d with
  | inputs => exact h
  | successors =>
    show (op.layout.successors.map _).map Link.isList = _
    rw [List.map_map]
    refine List.map_congr_left fun f _ => ?_
    cases hs : f.shape <;> simp [hs, Link.isList]

theorem Shaped.length_links (h : n.Shaped) (d : Direction) :
    (n.links d).length = (n.layout.fields d).length := by
  simpa using congrArg List.length (h d)

theorem Shaped.length_links_le (h : n.Shaped) (d : Direction) : (n.links d).length ≤ 65536 := by
  rw [h.length_links]
  exact (n.cls.length_fields_le d).trans (by decide)

theorem Shaped.links_eq_nil (h : n.Shaped) (hd : n.layout.fields d = []) : n.links d = [] := by
  rw [← List.length_eq_zero_iff, h.length_links, hd, List.length_nil]

theorem Shaped.uses_eq_zero (h : n.Shaped) (hd : n.layout.fields d = []) (t : NodeId) : n.uses d t = 0 := by
  simp [uses, slots, h.links_eq_nil hd, Links.slots]

/-- A node of a class without successors lacks none. -/
theorem Shaped.complete (h : n.Shaped) (hd : n.layout.fields .successors = []) : n.Complete := by
  rw [Complete, show n.layout.successors = [] from hd, show n.successors = [] from h.links_eq_nil hd]
  exact .nil

/-- The field of a link. -/
theorem Shaped.exists_field (h : n.Shaped) {i : Nat} {link : Link} (hlink : (n.links d)[i]? = some link) :
    ∃ spec, (n.layout.fields d)[i]? = some spec ∧ link.isList = (spec.shape == .list) := by
  have hshape := congrArg (·[i]?) (h d)
  simp only [List.getElem?_map, hlink] at hshape
  obtain ⟨spec, hspec, hlist⟩ := Option.map_eq_some_iff.1 hshape.symm
  exact ⟨spec, hspec, hlist.symm⟩

/-- The link of a field. -/
theorem Shaped.exists_link (h : n.Shaped) {i : Nat} {spec : FieldSpec}
    (hspec : (n.layout.fields d)[i]? = some spec) :
    ∃ link, (n.links d)[i]? = some link ∧ link.isList = (spec.shape == .list) := by
  have hshape := congrArg (·[i]?) (h d)
  simp only [List.getElem?_map, hspec] at hshape
  exact Option.map_eq_some_iff.1 hshape

theorem Shaped.isLeaf_eq_false (h : n.Shaped) (hu : 0 < n.uses .inputs t) : n.op.isLeaf = false := by
  by_contra hleaf
  have hnil : n.layout.fields .inputs = [] := by
    simpa [Op.isLeaf, Layout.isLeaf, Layout.fields, Node.layout] using hleaf
  simp [h.uses_eq_zero hnil] at hu

theorem Shaped.uses_successors_eq_zero (h : n.Shaped) (hv : n.op.isValueNumberable) :
    n.uses .successors t = 0 :=
  h.uses_eq_zero (NodeClass.successors_of_valueNumberable hv) t

/-- Two nodes have the same operation and the same slots, empty ones included. -/
structure Alike (m n : Node) : Prop where
  op : m.op = n.op
  slots : ∀ d, m.slots d = n.slots d

theorem Alike.refl (n : Node) : n.Alike n := ⟨rfl, fun _ => rfl⟩

theorem Alike.uses (h : m.Alike n) (d : Direction) (t : NodeId) : m.uses d t = n.uses d t := by
  rw [Node.uses, h.slots, Node.uses]

theorem sameStructure_iff : m.sameStructure n ↔ m.Alike n := by
  simp only [sameStructure, sameSlots, Bool.and_eq_true, beq_iff_eq]
  constructor
  · rintro ⟨⟨hop, hinputs⟩, hsuccessors⟩
    exact ⟨hop, fun d => by cases d; exacts [hinputs, hsuccessors]⟩
  · intro h
    exact ⟨⟨h.op, h.slots .inputs⟩, h.slots .successors⟩

/-- Nodes of the shape of their class are alike only if they are equal. -/
theorem Alike.eq (h : m.Alike n) (hm : m.Shaped) (hn : n.Shaped) : m = n := by
  refine eq_of_links h.op fun d => ?_
  have hshape : (m.links d).map Link.isList = (n.links d).map Link.isList := by
    rw [hm d, hn d, Node.layout, h.op, Node.layout]
  refine Links.eq_of_slots hshape ?_ (h.slots d)
  rw [hm d]
  exact NodeClass.count_list_fields_le m.cls d

end Node

end SeaOfNodes
