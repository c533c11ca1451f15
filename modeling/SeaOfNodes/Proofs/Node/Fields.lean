import SeaOfNodes.Proofs.Node.Kinds

/-!
# What the fields of a node may hold

An operand is a node that has a value, a state is a frame state, and a structural link leads to the
classes that its own class is tied to. A successor is a node of the control flow to which control
comes from the node before it: neither the start nor a merge. A node fits when each of its links has
the shape of its field and holds only such nodes. It is filled when no required input is absent and
its operands are of the kinds that it takes; a phi is filled when it also has a first value and no
value is absent, and the values of phis and proxies come before them.
-/

namespace SeaOfNodes

namespace NodeClass

/-- Nodes of the class have a value. -/
def isValue : NodeClass → Bool
  | .constant | .parameter | .binary | .negate | .convert | .compare | .normalizeCompare | .isNull
  | .instanceOf | .phi | .proxy | .invoke | .loadField | .loadIndexed | .arrayLength | .newInstance
  | .checkCast | .exceptionObject => true
  | _ => false

/-- Control comes to nodes of the class from the node before them. -/
def isFollower (c : NodeClass) : Bool := c.has .fixed && !c.has .merge && c != .start

/-- The classes to which nodes of the class are tied. -/
def anchors : NodeClass → List NodeClass
  | .phi => [.merge, .loopBegin]
  | .proxy => [.loopExit]
  | .loopEnd => [.loopBegin]
  | .loopExit => [.loopBegin, .merge, .placeholder, .start]
  | .merge | .loopBegin => [.forwardEnd]
  | _ => []

/-- Whether nodes of the class take an input of class `t` for a role. -/
def takes (c : NodeClass) (role : Role) (t : NodeClass) : Bool :=
  match role with
  | .value | .condition => t.isValue
  | .state => t == .frameState
  | .association => c.anchors.contains t

/-- Whether nodes of the class take a node of class `t` in a field. -/
def accepts (c : NodeClass) (d : Direction) (spec : FieldSpec) (t : NodeClass) : Bool :=
  match d with
  | .inputs => c.takes spec.role t
  | .successors => t.isFollower

theorem length_fields_le (c : NodeClass) (d : Direction) : (c.layout.fields d).length ≤ 4 := by
  cases d <;> cases c <;> decide

variable {c : NodeClass}

theorem lt_of_getElem?_fields {d : Direction} {field : Nat} {spec : FieldSpec}
    (h : (c.layout.fields d)[field]? = some spec) : field < 4 :=
  lt_of_lt_of_le (List.getElem?_eq_some_iff.1 h).1 (c.length_fields_le d)

theorem takes_forwardEnd {role : Role} (h : c.takes role .forwardEnd) :
    c = .merge ∨ c = .loopBegin := by
  cases role <;> revert h <;> cases c <;> decide

theorem takes_placeholder {role : Role} (h : c.takes role .placeholder) :
    c = .loopExit := by
  cases role <;> revert h <;> cases c <;> decide

end NodeClass

namespace Node

variable {cls? cls?' : NodeId → Option NodeClass} {op? op?' : NodeId → Option Op} {n n' : Node}
  {id t : NodeId} {d : Direction} {field : Nat} {old new : Option NodeId} {c : NodeClass} {spec : FieldSpec}

/-- A link of a node has the shape of its field and holds what the field may hold. -/
structure LinkFits (cls? : NodeId → Option NodeClass) (c : NodeClass) (d : Direction)
    (spec : FieldSpec) (link : Link) : Prop where
  shape : link.isList = (spec.shape == .list)
  accepts : ∀ t, some t ∈ link.slots → ∃ ct, cls? t = some ct ∧ c.accepts d spec ct = true

/-- Every link of a node fits its field. -/
def Fits (cls? : NodeId → Option NodeClass) (n : Node) : Prop :=
  ∀ d, List.Forall₂ (LinkFits cls? n.cls d) (n.layout.fields d) (n.links d)

theorem forall₂_iff_getElem? {α β : Type} {R : α → β → Prop} {l : List α} {l' : List β} :
    List.Forall₂ R l l' ↔ l.length = l'.length ∧
      ∀ (i : Nat) a b, l[i]? = some a → l'[i]? = some b → R a b := by
  rw [List.forall₂_iff_get]
  refine and_congr_right fun hlen => ⟨fun h i a b ha hb => ?_, fun h i h1 h2 => ?_⟩
  · obtain ⟨hi, rfl⟩ := List.getElem?_eq_some_iff.1 ha
    obtain ⟨hi', rfl⟩ := List.getElem?_eq_some_iff.1 hb
    exact h i hi hi'
  · exact h i _ _ (List.getElem?_eq_getElem h1) (List.getElem?_eq_getElem h2)

/-- The slots of a field are those of its link. -/
theorem slotsAt_of_getElem? {link : Link} (h : (n.links d)[field]? = some link) :
    n.slotsAt d field = link.slots := by
  rw [slotsAt, h]
  rfl

theorem Fits.mono (h : n.Fits cls?) (hcls : ∀ t c, cls? t = some c → cls?' t = some c) :
    n.Fits cls?' :=
  fun d => (h d).imp fun _ _ hl =>
    ⟨hl.shape, fun t ht => (hl.accepts t ht).imp fun c hc => ⟨hcls t c hc.1, hc.2⟩⟩

/-- What stands in a field is of a class that the field may hold. -/
theorem Fits.accepts (h : n.Fits cls?) (ht : some t ∈ n.slotsAt d field) :
    ∃ spec ct, (n.layout.fields d)[field]? = some spec ∧ cls? t = some ct ∧
      n.cls.accepts d spec ct := by
  obtain ⟨hlen, hlinks⟩ := forall₂_iff_getElem?.1 (h d)
  cases hlink : (n.links d)[field]? with
  | none => simp [slotsAt, hlink] at ht
  | some link =>
    have hlt : field < (n.layout.fields d).length := by
      rw [hlen]; exact (List.getElem?_eq_some_iff.1 hlink).1
    have hspec := List.getElem?_eq_getElem hlt
    rw [slotsAt_of_getElem? hlink] at ht
    obtain ⟨ct, hct, ha⟩ := (hlinks field _ link hspec hlink).accepts t ht
    exact ⟨_, ct, hspec, hct, ha⟩

theorem exists_mem_slotsAt (h : 0 < n.uses d t) : ∃ field, some t ∈ n.slotsAt d field := by
  obtain ⟨link, hlink, ht⟩ := List.mem_flatMap.1 (List.count_pos_iff.1 h)
  obtain ⟨field, hfield⟩ := List.mem_iff_getElem?.1 hlink
  exact ⟨field, by rwa [slotsAt_of_getElem? hfield]⟩

/-- An edit keeps what holds of every link, if that rests on the shape of a link and on its slots, and
what is put in may stand there. -/
theorem Edit.forall₂ {R : FieldSpec → Link → Prop} {specs : List FieldSpec}
    (h : n.Edit n' d field old new) (hf : List.Forall₂ R specs (n.links d))
    (hR : ∀ spec link link', specs[field]? = some spec → R spec link → link'.isList = link.isList →
      (∀ x ∈ link'.slots, x = new ∨ x ∈ link.slots) → R spec link') :
    List.Forall₂ R specs (n'.links d) := by
  cases h with
  | same => exact hf
  | @set _ _ _ _ link link' hlink hl hs =>
    obtain ⟨hlen, hlinks⟩ := forall₂_iff_getElem?.1 hf
    rw [links_withLinks]
    refine forall₂_iff_getElem?.2 ⟨hlen.trans List.length_set.symm, fun i spec x hspec hx => ?_⟩
    by_cases hi : field = i
    · subst hi
      rw [List.getElem?_set_self (List.getElem?_eq_some_iff.1 hlink).1] at hx
      exact Option.some.inj hx ▸ hR spec link link' hspec (hlinks _ spec link hspec hlink) hl hs.mem
    · rw [List.getElem?_set_ne hi] at hx
      exact hlinks i spec x hspec hx

theorem Edit.fits (h : n.Edit n' d field old new) (hf : n.Fits cls?)
    (hnew : ∀ t spec, new = some t → (n.layout.fields d)[field]? = some spec →
      ∃ ct, cls? t = some ct ∧ n.cls.accepts d spec ct) : n'.Fits cls? := by
  intro d'
  rw [h.cls, h.layout]
  by_cases hd : d' = d
  · subst hd
    refine h.forall₂ (hf d') fun spec link link' hspec hfit hshape hmem => ?_
    refine ⟨hshape.trans hfit.shape, fun t ht => ?_⟩
    rcases hmem _ ht with ht | ht
    · exact hnew t spec ht.symm hspec
    · exact hfit.accepts t ht
  · rw [h.other d' hd]
    exact hf d'

theorem fits_clear (hf : n.Fits cls?) (d : Direction) : (n.clear d).Fits cls? := by
  intro d'
  have hlayout : (n.clear d).layout = n.layout := congrArg Op.layout (op_withLinks ..)
  have hcls : (n.clear d).cls = n.cls := congrArg Op.cls (op_withLinks ..)
  rw [hlayout, hcls]
  by_cases hd : d' = d
  · subst hd
    rw [clear, links_withLinks, Links.clear, List.forall₂_map_right_iff]
    refine (hf d').imp fun _ link hl => ⟨?_, fun t ht => ?_⟩
    · rw [← hl.shape]
      cases link <;> rfl
    · cases link <;> simp [Link.cleared, Link.slots] at ht
  · rw [links_clear_of_ne hd]
    exact hf d'

theorem linkFits_one (hs : spec.shape ≠ .list) {x : Option NodeId}
    (h : ∀ t, x = some t → ∃ ct, cls? t = some ct ∧ c.accepts d spec ct) :
    LinkFits cls? c d spec (.one x) := by
  refine ⟨?_, fun t ht => h t (List.mem_singleton.1 ht).symm⟩
  cases hshape : spec.shape with
  | list => exact absurd hshape hs
  | single | optional => rfl

theorem linkFits_nil (hs : spec.shape = .list) :
    LinkFits cls? c d spec (.many []) :=
  ⟨by simp [hs, Link.isList], by simp [Link.slots]⟩

/-- A node without successors fits if its inputs do. -/
theorem fits_ofInputs {op : Op} {inputs : List Link}
    (h : List.Forall₂ (LinkFits cls? op.cls .inputs) op.layout.inputs inputs) :
    (ofInputs op inputs).Fits cls? := by
  intro d
  cases d with
  | inputs => exact h
  | successors =>
    show List.Forall₂ _ op.layout.successors (op.layout.successors.map _)
    rw [List.forall₂_map_right_iff, List.forall₂_same]
    intro spec _
    split
    · exact linkFits_nil ‹_›
    · exact linkFits_one ‹_› (by simp)

/-! ### Required inputs -/

section

variable [Source]

/-- No required input of a node is absent, the operands are of the right kinds, and the values of
phis and proxies come before them. -/
structure Filled (op? : NodeId → Option Op) (id : NodeId) (n : Node) : Prop where
  present : List.Forall₂ (fun spec link => spec.shape = .single → none ∉ link.slots)
    n.layout.inputs n.inputs
  phi : n.cls = .phi → none ∉ n.slotsAt .inputs 1 ∧
    ∃ v, (n.slotsAt .inputs 1).head? = some (some v) ∧ v.index < id.index
  proxy : n.cls = .proxy → ∀ v, some v ∈ n.slotsAt .inputs 0 → v.index < id.index
  typed : n.Typed Source.method op?

theorem Filled.mono (h : n.Filled op? id) (hop : ∀ t op, op? t = some op → op?' t = some op) :
    n.Filled op?' id :=
  { h with typed := h.typed.mono hop }

theorem filled_of_cls (hp : n.cls ≠ .phi) (hq : n.cls ≠ .proxy)
    (h : List.Forall₂ (fun spec link => spec.shape = .single → none ∉ link.slots)
      n.layout.inputs n.inputs) (ht : n.Typed Source.method op?) : n.Filled op? id :=
  ⟨h, fun h => absurd h hp, fun h => absurd h hq, ht⟩

/-- Successors do not matter to the inputs. -/
theorem Edit.filled_of_successors (h : n.Edit n' .successors field old new) (hf : n.Filled op? id) :
    n'.Filled op? id := by
  have hinputs : n'.inputs = n.inputs := h.other .inputs (by decide)
  have hslots (j : Nat) := h.slotsAt_other .inputs (by decide) j
  refine ⟨by rw [h.layout, hinputs]; exact hf.present, ?_, ?_, h.typed hf.typed nofun nofun⟩
  · rw [h.cls, hslots]; exact hf.phi
  · rw [h.cls, hslots]; exact hf.proxy

/-- Writing a node into an input slot that it suits keeps a node filled, if a phi gets one more value,
or what is replaced did not come before. -/
theorem Edit.filled (h : n.Edit n' d field old (some t)) (hf : n.Filled op? id)
    (hnew : d = .inputs → n.cls = .phi ∧ old = none ∨ (∃ o, old = some o ∧ t.index ≤ o.index) ∨
      n.cls ≠ .phi ∧ n.cls ≠ .proxy)
    (hsuits : d = .inputs → Suits Source.method op? n field old t) : n'.Filled op? id := by
  have htyped : n'.Typed Source.method op? :=
    h.typed hf.typed (by rintro hd _ ⟨⟩; exact hsuits hd) (by rintro - ⟨⟩)
  cases d with
  | successors => exact h.filled_of_successors hf
  | inputs =>
    replace hnew := hnew rfl
    refine ⟨?_, fun hphi => ?_, fun hproxy v hv => ?_, htyped⟩
    · rw [h.layout]
      exact h.forall₂ hf.present fun _ _ _ _ hl _ hmem hs hnone =>
        hl hs ((hmem _ hnone).resolve_left nofun)
    · rw [h.cls] at hphi
      obtain ⟨hnone, v, hv, hlt⟩ := hf.phi hphi
      refine ⟨fun hmem => ?_, ?_⟩
      · rcases h.mem_slotsAt hmem with ⟨-, ⟨⟩⟩ | hmem
        exact hnone hmem
      by_cases hfield : 1 = field
      · subst hfield
        rcases h.swaps.head with hhead | ⟨hhead, hempty | hold⟩ | ⟨⟨⟩⟩
        · exact ⟨v, hhead.trans hv, hlt⟩
        · simp [hempty] at hv
        · obtain rfl : some v = old := Option.mem_unique hv hold
          rcases hnew with ⟨-, ⟨⟩⟩ | ⟨o, ⟨⟩, hle⟩ | ⟨hne, -⟩
          · exact ⟨t, hhead, by omega⟩
          · exact absurd hphi hne
      · exact ⟨v, by rw [h.slotsAt_elsewhere hfield, hv], hlt⟩
    · rw [h.cls] at hproxy
      rcases h.mem_slotsAt hv with ⟨rfl, ⟨⟩⟩ | hv
      · rcases hnew with ⟨hphi, -⟩ | ⟨o, ho, hle⟩ | ⟨-, hne⟩
        · rw [hproxy] at hphi; cases hphi
        · have := hf.proxy hproxy o (h.swaps.old_mem o ho)
          omega
        · exact absurd hproxy hne
      · exact hf.proxy hproxy v hv

end

/-! ### Successors -/

/-- Every successor that a node needs is there; only an exception edge may be absent. -/
def Complete (n : Node) : Prop :=
  List.Forall₂ (fun spec link => spec.name ≠ "exception_edge" → none ∉ link.slots)
    n.layout.successors n.successors

instance (n : Node) : Decidable n.Complete :=
  inferInstanceAs (Decidable (List.Forall₂ _ n.layout.successors n.successors))

theorem Edit.complete_iff_of_inputs (h : n.Edit n' .inputs field old new) :
    n'.Complete ↔ n.Complete := by
  have hsucc : n'.successors = n.successors := h.other .successors (by decide)
  rw [Complete, Complete, h.layout, hsucc]

/-- A class with a `next` field has no other successor that it needs. -/
theorem successors_of_next (h : c.layout.fieldIndex? .successors "next" = some field) :
    field = 0 ∧
      (c.layout.successors = [.next] ∨ c.layout.successors = [.next, .one "exception_edge"]) := by
  have key : ∀ field ∈ c.layout.fieldIndex? .successors "next", field = 0 ∧
      (c.layout.successors = [.next] ∨ c.layout.successors = [.next, .one "exception_edge"]) := by
    cases c <;> decide
  exact key field h

theorem successors_of_exception_edge (h : c.layout.fieldIndex? .successors "exception_edge" = some field) :
    field = 1 ∧ c.layout.successors = [.next, .one "exception_edge"] := by
  have key : ∀ field ∈ c.layout.fieldIndex? .successors "exception_edge",
      field = 1 ∧ c.layout.successors = [.next, .one "exception_edge"] := by
    cases c <;> decide
  exact key field h

/-- A field for one node has one slot. -/
theorem Fits.exists_one (h : n.Fits cls?)
    (hspec : (n.layout.fields d)[field]? = some spec) (hs : spec.shape ≠ .list) :
    ∃ x, (n.links d)[field]? = some (.one x) := by
  obtain ⟨hlen, hlinks⟩ := forall₂_iff_getElem?.1 (h d)
  obtain ⟨link, hlink⟩ : ∃ link, (n.links d)[field]? = some link :=
    ⟨_, List.getElem?_eq_getElem (hlen ▸ (List.getElem?_eq_some_iff.1 hspec).1)⟩
  have hshape := (hlinks field spec link hspec hlink).shape
  cases link with
  | one x => exact ⟨x, hlink⟩
  | many xs =>
    exfalso
    cases hs' : spec.shape <;> simp_all [Link.isList]

/-- With the next node set, a node has all successors it needs. -/
theorem Edit.complete_of_next (h : n.Edit n' .successors field old (some t)) (hf : n.Fits cls?)
    (hf' : n'.Fits cls?)
    (hfield : n.layout.fieldIndex? .successors "next" = some field) : n'.Complete := by
  obtain ⟨rfl, hsucc⟩ := successors_of_next hfield
  replace hsucc : n'.layout.successors = [.next] ∨
      n'.layout.successors = [.next, .one "exception_edge"] := by
    rw [h.layout]; exact hsucc
  have hspec : (n'.layout.fields .successors)[0]? = some .next := by
    show n'.layout.successors[0]? = _
    rcases hsucc with hsucc | hsucc <;> simp [hsucc]
  obtain ⟨x, hx⟩ := hf.exists_one (h.layout ▸ hspec) (by decide)
  obtain ⟨y, hy⟩ := hf'.exists_one hspec (by decide)
  have hswaps := h.swaps
  rw [slotsAt_of_getElem? hx, slotsAt_of_getElem? hy] at hswaps
  obtain rfl := hswaps.eq_of_singleton
  have hlinks := forall₂_iff_getElem?.1 (hf' .successors)
  refine forall₂_iff_getElem?.2 ⟨hlinks.1, fun i spec link hspec' hlink hne => ?_⟩
  cases i with
  | zero =>
    obtain rfl : Link.one (some t) = link := Option.mem_unique hy hlink
    simp [Link.slots]
  | succ i =>
    rcases hsucc with hsucc | hsucc
    · simp [hsucc] at hspec'
    · cases i with
      | zero =>
        rw [hsucc] at hspec'
        obtain rfl : FieldSpec.one "exception_edge" = spec := by simpa using hspec'
        exact absurd rfl hne
      | succ i => simp [hsucc] at hspec'

/-- Whether there is an exception edge does not matter. -/
theorem Edit.complete_iff_of_exception_edge (h : n.Edit n' .successors field old new)
    (hfield : n.layout.fieldIndex? .successors "exception_edge" = some field) :
    n'.Complete ↔ n.Complete := by
  obtain ⟨rfl, hsucc⟩ := successors_of_exception_edge hfield
  have hlen : n'.successors.length = n.successors.length := by
    have := congrArg List.length h.shape
    rwa [List.length_map, List.length_map] at this
  rw [Complete, Complete, h.layout, forall₂_iff_getElem?, forall₂_iff_getElem?, hlen]
  refine and_congr_right fun _ => forall_congr' fun i => forall₂_congr fun spec link => ?_
  by_cases hi : i = 1
  · subst hi
    have (hspec : n.layout.successors[1]? = some spec) : spec.name = "exception_edge" := by
      have hsucc : n.layout.successors = [.next, .one "exception_edge"] := hsucc
      rw [hsucc] at hspec
      obtain rfl : FieldSpec.one "exception_edge" = spec := by simpa using hspec
      rfl
    constructor <;> exact fun _ hspec _ hne => absurd (this hspec) hne
  · have : n'.successors[i]? = n.successors[i]? := h.elsewhere i hi
    rw [this]

/-- Exchanging a successor for another keeps a node complete. -/
theorem Edit.complete (h : n.Edit n' .successors field old (some t)) (hc : n.Complete) :
    n'.Complete := by
  rw [Complete, h.layout]
  exact h.forall₂ hc fun _ _ _ _ hl _ hmem hne hnone => hl hne ((hmem _ hnone).resolve_left nofun)

end Node

end SeaOfNodes
