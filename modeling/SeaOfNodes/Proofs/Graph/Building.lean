import SeaOfNodes.Proofs.Graph.Splicing

/-!
# Building a graph

A graph that grows is sound, and of the nodes ever registered only phis and proxies are gone. What
lifting does to such a graph can fail in one way only: a new node refers to one that is gone.
-/

namespace SeaOfNodes.Graph

variable {g g' g'' : Graph} {id x t : NodeId} {n n' m : Node} {d : Direction} {field : Nat}
  {old new : Option NodeId} {c : NodeClass} {gone gone' : NodeId → Prop}
  {made lost : List (Note × NodeId)} {spec : FieldSpec} {kind : Kind} {op : Op} {method : Method}

/-- No node goes. -/
def KeepsAlive (g g' : Graph) : Prop := ∀ x, g.isAlive x = true → g'.isAlive x = true

theorem KeepsAlive.trans (h : KeepsAlive g g') (h' : KeepsAlive g' g'') : KeepsAlive g g'' :=
  fun x hx => h' x (h x hx)

theorem Rewires.keepsAlive (h : Rewires g g' id d n n' old new) : KeepsAlive g g' :=
  fun x hx => (h.isAlive x).trans hx

theorem node?_eq_none_of_bound (h : x.index = g.bound) : g.node? x = none := by
  have : g.get? x = none := by
    rw [← Option.not_isSome_iff_eq_none, isSome_get?_iff]
    omega
  simp [node?, this]

/-- A new node refers to a phi or proxy that is gone. -/
def IsStale (cause : Fault) : Prop :=
  ∃ id c, mayGo c = true ∧ cause = .deletedNode .newNode ⟨id, c⟩

/-! ### Values -/

/-- A node that has a value. -/
def IsValue (g : Graph) (id : NodeId) : Prop := ∃ c, g.cls? id = some c ∧ c.isValue = true

theorem KeepsOps.isValue (h : KeepsOps g g') (hv : g.IsValue x) : g'.IsValue x := by
  obtain ⟨c, hc, hv⟩ := hv
  exact ⟨c, h x c hc, hv⟩

/-- A value fits where operands stand. -/
theorem IsValue.fits (h : g.IsValue x) (hs : spec.shape ≠ .list)
    (hr : spec.role = .value ∨ spec.role = .condition) :
    Node.LinkFits g.cls? c .inputs spec (.one (some x)) := by
  refine Node.linkFits_one hs ?_
  rintro _ ⟨⟩
  obtain ⟨ct, hct, hv⟩ := h
  refine ⟨ct, hct, ?_⟩
  show c.takes spec.role ct
  rcases hr with hr | hr <;> rw [hr] <;> exact hv

/-- A node that has a value of a kind on the stack. -/
def HasKind (g : Graph) (id : NodeId) (kind : Kind) : Prop := g.IsValue id ∧ OfKind g.op? id kind

theorem KeepsOps.hasKind (h : KeepsOps g g') (hv : g.HasKind x kind) :
    g'.HasKind x kind := by
  obtain ⟨hv, op, hop, hk⟩ := hv
  exact ⟨h.isValue hv, op, h.ops x op hop, hk⟩

theorem HasKind.fits (h : g.HasKind x kind) (hs : spec.shape ≠ .list)
    (hr : spec.role = .value ∨ spec.role = .condition) :
    Node.LinkFits g.cls? c .inputs spec (.one (some x)) :=
  h.1.fits hs hr

theorem hasKind_of_op? (h : g.op? x = some op) (hv : op.cls.isValue) :
    g.HasKind x op.valueKind.onStack :=
  ⟨⟨op.cls, cls?_of_op? h, hv⟩, op, h, rfl⟩

/-! ### Fields -/

theorem registered_of_fits (hf : n.Fits g.cls?) (hu : 0 < n.uses d t) : (g.node? t).isSome := by
  obtain ⟨field, ht⟩ := Node.exists_mem_slotsAt hu
  obtain ⟨spec, ct, -, hct, -⟩ := hf.accepts ht
  exact registered_of_cls? hct

/-- The uses of ends by a node of a class that has none. -/
theorem ne_forwardEnd_of_fits (hf : n.Fits g.cls?) (hm : n.cls.has .merge = false)
    (hu : 0 < n.uses .inputs t) : g.cls? t ≠ some .forwardEnd := by
  obtain ⟨field, ht⟩ := Node.exists_mem_slotsAt hu
  obtain ⟨spec, ct, -, hct, hacc⟩ := hf.accepts ht
  rw [hct]
  rintro ⟨⟩
  rcases NodeClass.takes_forwardEnd hacc with hc | hc <;> rw [hc] at hm <;> revert hm <;> decide

/-- Only loop exits hold placeholders. -/
theorem heldBy_eq_nil (hf : n.Fits g.cls?) (hc : n.cls ≠ .loopExit) : heldBy g n = [] := by
  simp only [heldBy, List.map_eq_nil_iff, List.filter_eq_nil_iff, decide_eq_true_eq]
  intro t ht hp
  obtain ⟨field, ht⟩ := Node.exists_mem_slotsAt (Node.mem_targets.1 ht)
  obtain ⟨spec, ct, -, hct, hacc⟩ := hf.accepts ht
  obtain rfl : ct = .placeholder := Option.mem_unique hct hp
  exact hc (NodeClass.takes_placeholder hacc)

/-- What a slot of a field for one node holds is read back from its position. -/
theorem get_eq_of_slotsAt (hf : n.Fits g.cls?)
    (hspec : (n.layout.fields d)[field]? = some spec) (hshape : spec.shape ≠ .list) :
    n.slotsAt d field = [n.get (Position.of d field 0)] := by
  have hlt := NodeClass.lt_of_getElem?_fields hspec
  obtain ⟨x, hx⟩ := hf.exists_one hspec hshape
  rw [Node.slotsAt_of_getElem? hx, Node.get_of_one (by omega) hx]
  rfl

theorem spec_of_next (h : c.layout.fieldIndex? .successors "next" = some field) :
    (c.layout.fields .successors)[field]? = some .next := by
  have key : ∀ field ∈ c.layout.fieldIndex? .successors "next",
      (c.layout.fields .successors)[field]? = some .next := by
    cases c <;> decide
  exact key field h

theorem inputs_of_state_after (h : c.layout.fieldIndex? .inputs "state_after" = some field) :
    c.layout.inputs[field]? = some .stateAfter ∧ mayGo c = false := by
  have key : ∀ field ∈ c.layout.fieldIndex? .inputs "state_after",
      c.layout.inputs[field]? = some .stateAfter ∧ mayGo c = false := by
    cases c <;> decide
  exact key field h

/-- The state after a node is no operand. -/
theorem suits_of_state_after (h : n.layout.fieldIndex? .inputs "state_after" = some field) :
    n.Suits method g.op? field old t := by
  have key (op : Op) (h : op.layout.fieldIndex? .inputs "state_after" = some field) :
      op.operandKind? method.result field = none ∧ op.cls ≠ .compare ∧ (op.cls = .invoke → field ≠ 0) := by
    revert h
    cases op <;> rintro ⟨⟩ <;> exact ⟨rfl, by rintro ⟨⟩, by simp [Op.cls]⟩
  obtain ⟨hk, hc, hi⟩ := key n.op h
  exact .link hk hc hi

/-- Ends are no operands. -/
theorem suits_of_merge (h : n.cls = .merge ∨ n.cls = .loopBegin) :
    n.Suits method g.op? field old t := by
  have key (op : Op) (h : op.cls = .merge ∨ op.cls = .loopBegin) :
      op.operandKind? method.result field = none ∧ op.cls ≠ .compare ∧ op.cls ≠ .invoke := by
    revert h
    cases op <;> simp [Op.cls, Op.operandKind?]
  obtain ⟨hk, hc, hi⟩ := key n.op h
  exact .link hk hc fun h => absurd h hi

/-! ### Notes on new nodes -/

/-- The notes that hold of a new node of a class, whose successors are to be filled in. -/
def notesOf (c : NodeClass) (id : NodeId) : List (Note × NodeId) :=
  (if c.isFollower then [(.loose, id)] else []) ++
    (if (c.layout.fieldIndex? .successors "next").isSome then [(.gap, id)] else []) ++
    (if c = .forwardEnd then [(.unlisted, id)] else []) ++
    if (c.layout.fieldIndex? .successors "exception_edge").isSome then [(.quiet, id)] else []

theorem newNotes_ofInputs (h : op.cls ≠ .branch) (inputs : List Link) (id : NodeId) :
    newNotes (Node.ofInputs op inputs) id = notesOf op.cls id := by
  cases op <;> first | rfl | exact absurd rfl h

theorem targets_successors_ofInputs (op : Op) (inputs : List Link) :
    (Node.ofInputs op inputs).targets .successors = [] := by
  cases op <;> rfl

/-- Nodes that can be shared take no part in the control flow. -/
theorem newNotes_eq_nil (hf : n.Fits g.cls?) (hv : n.op.isValueNumberable) (id : NodeId) :
    newNotes n id ++ heldBy g n = [] ∧ n.targets .successors = [] ∧ n.cls.has .merge = false := by
  have key (c : NodeClass) (h : c.has .valueNumberable) : c.isFollower = false ∧
      c.layout.successors = [] ∧ c ≠ .forwardEnd ∧ c ≠ .loopExit ∧ c.has .merge = false := by
    revert h
    cases c <;> decide
  obtain ⟨hfollower, hsucc, hend, hexit, hmerge⟩ := key n.cls hv
  have hnil : n.successors = [] := hf.shaped.links_eq_nil (d := .successors) hsucc
  have hcomplete := hf.shaped.complete hsucc
  have hslots : n.slotsAt .successors 1 = [] := by
    rw [Node.slotsAt]
    show ((n.successors[1]?).map _).getD [] = []
    rw [hnil]; rfl
  refine ⟨?_, ?_, hmerge⟩
  · simp [newNotes, hfollower, hcomplete, hend, hslots, heldBy_eq_nil hf hexit]
  · rw [Node.targets]
    show Links.targets n.successors = []
    rw [hnil]; rfl

/-! ### Graphs that grow -/

section

variable [Source] {inputs : List Link} {name : String}

/-- A graph that grows, but for the inputs of nodes that are about to go. -/
structure GrowingBut (gone : NodeId → Prop) (g : Graph) : Prop where
  sound : g.SoundBut gone
  deleted : ∀ x c, g.cls? x = some c → g.isAlive x = false → mayGo c = true

/-- A graph that grows. -/
abbrev Growing (g : Graph) : Prop := g.GrowingBut fun _ => False

theorem GrowingBut.mono (h : g.GrowingBut gone) (hg : ∀ x, gone x → gone' x) :
    g.GrowingBut gone' :=
  ⟨h.sound.mono hg, h.deleted⟩

/-- Nodes of a class that does not go are alive. -/
theorem GrowingBut.isAlive (h : g.GrowingBut gone) (hc : g.cls? id = some c) (hgo : mayGo c = false) :
    g.isAlive id := by
  by_contra ha
  simp [h.deleted id c hc (by simpa using ha)] at hgo

theorem Moves.growing (h : Moves g g' made lost) (hg : g.GrowingBut gone)
    (hs : g'.SoundBut gone') : g'.GrowingBut gone' :=
  ⟨hs, fun x c hc ha => (h.deleted x c hc ha).elim id fun h => hg.deleted x c h.1 h.2⟩

theorem GrowingBut.isStale (h : g.GrowingBut gone) {cause : Fault} (hr : g.RefersToDeleted n cause) :
    IsStale cause := by
  obtain ⟨d, t, m, -, hm, ha, rfl⟩ := hr
  exact ⟨t, m.cls, h.deleted t _ (cls?_of_node? hm) ha, rfl⟩

/-! ### New nodes -/

/-- The inputs are what an operation wants: nodes of the right classes and kinds, and none that it needs is
absent. -/
structure Supplied (g : Graph) (op : Op) (inputs : List Link) : Prop where
  fits : (Node.ofInputs op inputs).Fits g.cls?
  present : List.Forall₂ (fun spec link => spec.shape = .single → none ∉ link.slots)
    op.layout.inputs inputs
  typed : (Node.ofInputs op inputs).Typed Source.method g.op?

/-- What stands in fields for one node each, the first of which has the given place: values of the kinds
that an operation takes there. -/
inductive Takes (g : Graph) (op : Op) : Nat → List FieldSpec → List (Option NodeId) → Prop
  | nil {i : Nat} : Takes g op i [] []
  | value {i : Nat} {name : String} {specs : List FieldSpec} {x : NodeId} {xs : List (Option NodeId)}
    {kind : Kind} (has : g.HasKind x kind)
    (takes : (op.operandKind? Source.method.result i).getD kind = kind)
    (rest : Takes g op (i + 1) specs xs) : Takes g op i (.one name :: specs) (x :: xs)
  | maybe {i : Nat} {name : String} {specs : List FieldSpec} {x : Option NodeId}
    {xs : List (Option NodeId)} {kind : Kind} (has : ∀ t, x = some t → g.HasKind t kind)
    (takes : (op.operandKind? Source.method.result i).getD kind = kind)
    (rest : Takes g op (i + 1) specs xs) : Takes g op i (.maybe name :: specs) (x :: xs)
  /-- Nothing is known of the state after a new node. -/
  | noState {i : Nat} {specs : List FieldSpec} {xs : List (Option NodeId)}
    (rest : Takes g op (i + 1) specs xs) : Takes g op i (.stateAfter :: specs) (none :: xs)

section

variable {op : Op} {i : Nat} {specs : List FieldSpec} {xs : List (Option NodeId)} {inputs : List Link}

theorem Takes.fits (h : Takes g op i specs xs) :
    List.Forall₂ (Node.LinkFits g.cls? op.cls .inputs) specs (xs.map .one) := by
  induction h with
  | nil => exact .nil
  | value has _ _ ih => exact .cons (has.fits (by simp [FieldSpec.one]) (.inl rfl)) ih
  | maybe has _ _ ih =>
    exact .cons (Node.linkFits_one (by simp [FieldSpec.maybe]) fun t ht => (has t ht).1) ih
  | noState _ ih => exact .cons (Node.linkFits_one (by decide) nofun) ih

theorem Takes.present (h : Takes g op i specs xs) :
    List.Forall₂ (fun spec (link : Link) => spec.shape = .single → none ∉ link.slots) specs
      (xs.map .one) := by
  induction h with
  | nil => exact .nil
  | value _ _ _ ih => exact .cons (fun _ => by simp [Link.slots]) ih
  | maybe _ _ _ ih | noState _ ih => exact .cons (by rintro ⟨⟩) ih

theorem Takes.ofKind (h : Takes g op i specs xs) : ∀ {j : Nat} {kind : Kind},
    xs[j]? = some (some t) → op.operandKind? Source.method.result (i + j) = some kind →
    OfKind g.op? t kind := by
  induction h with
  | nil => nofun
  | value has takes _ ih | maybe has takes _ ih =>
    rintro (_ | j) kind hj hk
    · rw [Nat.add_zero] at hk
      rw [hk, Option.getD_some] at takes
      cases hj
      subst takes
      first | exact has.2 | exact (has t rfl).2
    · exact ih hj (by rwa [Nat.add_right_comm])
  | noState _ ih =>
    rintro (_ | j) kind hj hk
    · cases hj
    · exact ih hj (by rwa [Nat.add_right_comm])

/-- An operation that takes one node in each of its fields. -/
theorem Supplied.ones (xs : List (Option NodeId)) (hc : (op.cls == .compare || op.cls == .invoke) = false)
    (h : Takes g op 0 op.layout.inputs xs) : Supplied g op (xs.map .one) where
  fits := Node.fits_ofInputs h.fits
  present := h.present
  typed := Node.typed_ones xs (by simp_all) (by simp_all) fun p hp t kind ht hk =>
    h.ofKind (ht ▸ List.mem_zipIdx_iff_getElem?.1 hp) (by rwa [Nat.zero_add])

/-- A new merge has no ends. -/
theorem supplied_merge (h : op = .merge ∨ op = .loopBegin) : Supplied g op [.many [], .one none] := by
  rcases h with rfl | rfl <;> exact ⟨Node.fits_ofInputs (.cons (Node.linkFits_nil rfl)
    (.cons (Node.linkFits_one (by decide) nofun) .nil)), .cons nofun (.cons nofun .nil),
    Node.typed_plain nofun nofun fun _ => rfl⟩

theorem Supplied.filled (h : Supplied g op inputs) (hphi : op.cls ≠ .phi) (hproxy : op.cls ≠ .proxy)
    (id : NodeId) : (Node.ofInputs op inputs).Filled g.op? id :=
  Node.filled_of_cls hphi hproxy h.present h.typed

end

/-- A node is registered under a fresh handle. -/
structure Builds (gone : NodeId → Prop) (g g' : Graph) (id : NodeId) (n : Node) : Prop where
  growing : g'.GrowingBut gone
  moves : Moves g g' (newNotes n id ++ heldBy g n) ((n.targets .successors).map ((.loose, ·)))
  fresh : id.index = g.bound
  node : g'.node? id = some n
  alive : g'.isAlive id = true
  keepsAlive : KeepsAlive g g'
  joints : g'.joint? = Function.update g.joint? id n.joint?

theorem Builds.node?_eq_none (h : Builds gone g g' id n) : g.node? id = none := node?_eq_none_of_bound h.fresh

/-- What is registered belongs to no merge and no loop. -/
theorem Builds.joints_eq (h : Builds gone g g' id n) (hn : n.joint? = none) : g'.joint? = g.joint? := by
  rw [h.joints, hn, Function.update_eq_self_iff]
  exact (joint?_eq_none_of_fresh h.node?_eq_none).symm

theorem meets_addFresh_growing (hg : g.GrowingBut gone) (hfits : n.Fits g.cls?)
    (hends : ∀ t, 0 < n.uses .inputs t → g.cls? t ≠ some .forwardEnd)
    (hfilled : ∀ id : NodeId, id.index = g.bound → ¬ gone id → n.Filled g.op? id)
    (hloose : ∀ t, 0 < n.uses .successors t → g.Notes .loose t ∧ n.uses .successors t = 1) :
    Meets (addFresh n) g (fun id g' => Builds gone g g' id n) IsStale := by
  refine (meets_addFresh hg.sound.consistent.packed n).mono (fun id g' h => ?_) fun e he => ?_
  · have hm := h.moves hg.sound.consistent hends
    refine ⟨hm.growing hg (h.sound hg.sound hfits (hfilled id h.fresh) hends), hm, h.fresh, ?_, ?_, ?_,
      h.joint?⟩
    · rw [h.node?, if_pos rfl]
    · rw [h.isAlive, if_pos rfl]
    · intro x hx
      rw [h.isAlive]
      split
      · rfl
      · exact hx
  · rcases he with hr | hc
    · exact hg.isStale hr
    · exact absurd ⟨fun d t => registered_of_fits hfits,
        fun t ht => ⟨(hloose t ht).1.2.2, (hloose t ht).2⟩⟩ hc

theorem meets_add_growing (hg : g.GrowingBut gone) (hv : n.op.isValueNumberable = false)
    (hfits : n.Fits g.cls?)
    (hends : ∀ t, 0 < n.uses .inputs t → g.cls? t ≠ some .forwardEnd)
    (hfilled : ∀ id : NodeId, id.index = g.bound → ¬ gone id → n.Filled g.op? id)
    (hloose : ∀ t, 0 < n.uses .successors t → g.Notes .loose t ∧ n.uses .successors t = 1) :
    Meets (add n) g (fun id g' => Builds gone g g' id n) IsStale := by
  unfold add
  simp only [hv]
  exact meets_addFresh_growing hg hfits hends hfilled hloose

/-- Registering a node whose successors are to be filled in. -/
theorem meets_add_ofInputs (hg : g.GrowingBut gone) (hv : op.isValueNumberable = false)
    (hfits : (Node.ofInputs op inputs).Fits g.cls?)
    (hmerge : op.cls.has .merge → Links.slots inputs = [none])
    (hfilled : ∀ id : NodeId, id.index = g.bound → ¬ gone id →
      (Node.ofInputs op inputs).Filled g.op? id) :
    Meets (add (Node.ofInputs op inputs)) g
      (fun id g' => Builds gone g g' id (Node.ofInputs op inputs)) IsStale := by
  refine meets_add_growing hg hv hfits (fun t ht => ?_) hfilled fun t ht => ?_
  · cases hm : op.cls.has .merge with
    | false => exact ne_forwardEnd_of_fits hfits hm ht
    | true =>
      have : (Node.ofInputs op inputs).slots .inputs = [none] := hmerge hm
      simp [Node.uses, this] at ht
  · rw [← Node.mem_targets, targets_successors_ofInputs] at ht
    cases ht

/-- What is noted of a node whose successors are to be filled in. -/
theorem Builds.moves_ofInputs (h : Builds gone g g' id (Node.ofInputs op inputs)) (hb : op.cls ≠ .branch)
    (hheld : heldBy g (Node.ofInputs op inputs) = []) : Moves g g' (notesOf op.cls id) [] := by
  have := h.moves
  rwa [newNotes_ofInputs hb, hheld, targets_successors_ofInputs, List.append_nil] at this

/-- What asking for a node that can be shared gives: such a node, perhaps a new one. -/
structure SharesGrowing (gone : NodeId → Prop) (g g' : Graph) (id : NodeId) (n : Node) : Prop where
  growing : g'.GrowingBut gone
  moves : Moves g g' [] []
  op? : g'.op? id = some n.op
  joint : g'.joint? id = n.joint?
  quiet : Quiet g g'
  joints_eq : n.cls ≠ .proxy → g'.joint? = g.joint?

theorem meets_intern_growing (hg : g.GrowingBut gone) (hv : n.op.isValueNumberable)
    (hfits : n.Fits g.cls?)
    (hfilled : ∀ id : NodeId, id.index = g.bound → ¬ gone id → n.Filled g.op? id) :
    Meets (intern n) g (fun id g' => SharesGrowing gone g g' id n) IsStale := by
  obtain ⟨-, htargets, hmerge⟩ := newNotes_eq_nil hfits hv ⟨0⟩
  have hends (t : NodeId) := ne_forwardEnd_of_fits (t := t) hfits hmerge
  refine (meets_intern hg.sound.consistent.packed hv).mono (fun id g' h => ?_) fun e he => ?_
  · cases h with
    | found same found =>
      obtain ⟨m, hm, hop, hfound⟩ := found
      have halive : g.isAlive id := by
        rcases hfound with ⟨-, ha⟩ | ⟨-, t, -, hu⟩
        · exact ha
        · exact hg.sound.consistent.isAlive_user hu
      have hj : g.joint? id = n.joint? := by
        rw [joint?_of_node? hm halive]
        refine Node.joint?_eq_of_slots (hg.sound.fits id m hm) hfits hop hv fun hc => ?_
        rcases hfound with ⟨hleaf, -⟩ | ⟨hs, -⟩
        · have : n.cls.layout.isLeaf := hleaf
          rw [hc] at this
          cases this
        · simp only [Node.sameStructure, Node.sameSlots, Bool.and_eq_true, beq_iff_eq] at hs
          exact hs.1.2
      refine ⟨same.moves.growing hg (same.sound hg.sound), same.moves, ?_, ?_, .of_eq same.joint?,
        fun _ => same.joint?⟩
      · rw [same.op?, op?_of_node? hm, hop]
      · rw [same.joint?, hj]
    | added adds =>
      have hm := adds.moves hg.sound.consistent hends
      rw [(newNotes_eq_nil hfits hv id).1, htargets] at hm
      have hnone := joint?_eq_none_of_not_isAlive adds.not_isAlive
      refine ⟨hm.growing hg (adds.sound hg.sound hfits (hfilled id adds.fresh) hends), hm, ?_, ?_,
        .of_update adds.joint? hnone fun j hj => .inl ?_, fun hc => ?_⟩
      · rw [adds.op?, if_pos rfl]
      · rw [adds.joint?, Function.update_self]
      · rw [← Node.op_of_joint? hj]
        by_contra hc
        rw [Node.joint?_of_isValueNumberable hv hc] at hj
        cases hj
      · rw [adds.joint?, Node.joint?_of_isValueNumberable hv hc, Function.update_eq_self_iff, hnone]
  · rcases he with hr | hc
    · exact hg.isStale hr
    · refine absurd ⟨⟨fun d t => registered_of_fits hfits, fun t ht => ?_⟩,
        fun _ => hg.sound.leaves, fun t => registered_of_fits hfits, fun t _ u hu => ?_⟩ hc
      · rw [← Node.mem_targets, htargets] at ht
        cases ht
      · obtain ⟨m, hm⟩ := exists_node?_of_isAlive (hg.sound.consistent.isAlive_user hu)
        simp [hm]

/-! ### Writing edges -/

section

variable (hs : g.SoundBut gone) (hn : g.node? id = some n)

include hs hn

/-- Writing a field for one node cannot fail, if the new node is there, and no other node leads to
it where it becomes a successor. -/
theorem meets_setField_one (hfield : n.layout.fieldIndex? d name = some field)
    (hspec : (n.layout.fields d)[field]? = some spec) (hshape : spec.shape ≠ .list)
    (hnew : ∀ t, new = some t → g.isAlive t)
    (hpred : d = .successors → ∀ t, new = some t → g.predecessor? t = none) :
    Meets (setField id d name new) g
      (fun old g' => old = n.get (Position.of d field 0) ∧
        ∃ n', n.Edit n' d field old new ∧ n'.slotsAt d field = [new] ∧ Rewires g g' id d n n' old new)
      (fun _ => False) := by
  have hlt := NodeClass.lt_of_getElem?_fields hspec
  obtain ⟨x, hx⟩ := (hs.fits id n hn).exists_one hspec hshape
  refine (hs.consistent.meets_setField hn hfield (by omega) hx hnew hpred).imp ?_
  rintro _ g' ⟨rfl, hr⟩
  exact ⟨(Node.get_of_one (by omega) hx).symm, _, Node.edit_one hx new, Node.slotsAt_set hx _, hr⟩

theorem meets_pushEdge_many (hfield : n.layout.fieldIndex? .inputs name = some field)
    (hspec : n.layout.inputs[field]? = some spec) (hshape : spec.shape = .list)
    (ht : g.isAlive t) :
    Meets (pushEdge id .inputs name (some t)) g
      (fun _ g' => ∃ n', n.Edit n' .inputs field none (some t) ∧
        n'.slotsAt .inputs field = n.slotsAt .inputs field ++ [some t] ∧
        Rewires g g' id .inputs n n' none (some t))
      (fun _ => False) := by
  obtain ⟨xs, hxs⟩ : ∃ xs, n.inputs[field]? = some (.many xs) := by
    obtain ⟨hlen, hlinks⟩ := Node.forall₂_iff_getElem?.1 (hs.fits id n hn .inputs)
    obtain ⟨link, hlink⟩ : ∃ link, (n.links .inputs)[field]? = some link :=
      ⟨_, List.getElem?_eq_getElem (hlen ▸ (List.getElem?_eq_some_iff.1 hspec).1)⟩
    have := (hlinks field spec link hspec hlink).shape
    cases link with
    | one x => simp [hshape, Link.isList] at this
    | many xs => exact ⟨xs, hlink⟩
  refine (meets_pushEdge_list hs.consistent.packed hn hfield hxs ht).imp ?_
  rintro - g' ⟨n', rfl, hedit, hr⟩
  refine ⟨_, hedit, ?_, hr⟩
  rw [Node.slotsAt_of_getElem? (n := n) (d := .inputs) hxs]
  exact Node.slotsAt_set (d := .inputs) hxs _

/-- A node whose next node is there lacks no successor. -/
theorem get_next_eq_none
    (hfield : n.layout.fieldIndex? .successors "next" = some field) (hgap : g.Notes .gap id) :
    n.get (Position.of .successors field 0) = none := by
  obtain ⟨-, m, hm, hgap⟩ := hgap
  obtain rfl : n = m := Option.mem_unique hn hm
  by_contra hne
  obtain ⟨o, ho⟩ := Option.ne_none_iff_exists'.1 hne
  apply hgap
  have hfits := hs.fits id n hn
  have hspec := spec_of_next hfield
  have hslots := get_eq_of_slotsAt hfits hspec (by decide)
  have hlinks := Node.forall₂_iff_getElem?.1 (hfits .successors)
  obtain ⟨rfl, hsucc⟩ := Node.successors_of_next hfield
  refine Node.forall₂_iff_getElem?.2 ⟨hlinks.1, fun i spec link hspec' hlink hname => ?_⟩
  cases i with
  | zero =>
    rw [← Node.slotsAt_of_getElem? (d := .successors) hlink, hslots, ho]
    simp
  | succ i =>
    have hsucc' : n.layout.successors = [.next] ∨
        n.layout.successors = [.next, .one "exception_edge"] := hsucc
    rcases hsucc' with hsucc | hsucc
    · simp [hsucc] at hspec'
    · cases i with
      | zero =>
        obtain rfl : FieldSpec.one "exception_edge" = spec := by simpa [hsucc] using hspec'
        exact absurd rfl hname
      | succ i => simp [hsucc] at hspec'

/-- A successor becomes one to which no other node leads, or none. -/
theorem Rewires.sound_successor (h : Rewires g g' id .successors n n' old new)
    (he : n.Edit n' .successors field old new) (hid : g.isAlive id)
    (hnew : ∀ t, new = some t → g.Notes .loose t) : g'.SoundBut gone := by
  refine h.sound he hs (fun _ => hid) (fun t ht => (hnew t ht).1) (fun t spec ht _ => ?_)
    (fun ha hg => he.filled_of_successors (hs.filled id n hn ha hg)) (fun _ _ h => h) nofun
  exact (Option.any_eq_true _ _).1 (hnew t ht).2.1

end

section

variable (hg : g.GrowingBut gone) (hc : g.cls? id = some c)

include hg hc

/-- Letting control go on from a node to a loose one. What the node led to before becomes loose. -/
theorem meets_setNext_growing (ha : g.isAlive id)
    (hnext : (c.layout.fieldIndex? .successors "next").isSome) (ht : g.Notes .loose t) :
    Meets (setNext id (some t)) g
      (fun _ g' => g'.GrowingBut gone ∧ KeepsAlive g g' ∧ ∃ old : Option NodeId,
        Moves g g' (old.toList.map ((.loose, ·))) [(.gap, id), (.loose, t)] ∧
        (g.Notes .gap id → old = none) ∧ g'.joint? = g.joint?)
      (fun _ => False) := by
  obtain ⟨n, hn, rfl⟩ := exists_node?_of_cls? hc
  obtain ⟨field, hfield⟩ := Option.isSome_iff_exists.1 hnext
  refine Meets.bind (meets_setField_one hg.sound hn hfield (spec_of_next hfield) (by decide)
    (by rintro _ ⟨⟩; exact ht.1) (by rintro - _ ⟨⟩; exact ht.2.2)) fun old g' h => ?_
  obtain ⟨rfl, n', he, -, hr⟩ := h
  have hm := hr.moves_next hg.sound he ht hfield
  exact ⟨hm.growing hg (hr.sound_successor hg.sound hn he ha (by rintro _ ⟨⟩; exact ht)), hr.keepsAlive, _,
    hm, get_next_eq_none hg.sound hn hfield, hr.joint?_eq he.joint?_of_successors⟩

/-- Giving a node that has none an exception edge to a loose node. -/
theorem meets_setException_growing (hfield : (c.layout.fieldIndex? .successors "exception_edge").isSome)
    (hq : g.Notes .quiet id) (ht : g.Notes .loose t) :
    Meets (setSuccessor id "exception_edge" (some t)) g
      (fun _ g' => g'.GrowingBut gone ∧ Moves g g' [] [(.quiet, id), (.loose, t)] ∧
        g'.joint? = g.joint?)
      (fun _ => False) := by
  obtain ⟨n, hn, rfl⟩ := exists_node?_of_cls? hc
  obtain ⟨field, hfield⟩ := Option.isSome_iff_exists.1 hfield
  have hspec : (n.layout.fields .successors)[field]? = some (.one "exception_edge") := by
    obtain ⟨rfl, hsucc⟩ := Node.successors_of_exception_edge hfield
    show n.cls.layout.successors[1]? = _
    rw [hsucc]; rfl
  refine (meets_setField_one hg.sound hn hfield hspec (by decide)
    (by rintro _ ⟨⟩; exact ht.1) (by rintro - _ ⟨⟩; exact ht.2.2)).imp fun old g' h => ?_
  obtain ⟨rfl, n', he, -, hr⟩ := h
  have hold : n.get (Position.of .successors field 0) = none := by
    obtain ⟨-, m, hm, hslots⟩ := hq
    obtain rfl : n = m := Option.mem_unique hn hm
    have := get_eq_of_slotsAt (hg.sound.fits id n hn) hspec (by decide)
    obtain ⟨rfl, -⟩ := Node.successors_of_exception_edge hfield
    rw [hslots] at this
    simpa [eq_comm] using this
  have hm := hr.moves_exceptionEdge hg.sound he ht hfield
  rw [hold] at hm
  exact ⟨hm.growing hg (hr.sound_successor hg.sound hn he hq.1 (by rintro _ ⟨⟩; exact ht)), hm,
    hr.joint?_eq he.joint?_of_successors⟩

/-- Setting the state after a node. -/
theorem meets_setStateAfter_growing (hfield : (c.layout.fieldIndex? .inputs "state_after").isSome)
    (ht : g.cls? t = some .frameState) :
    Meets (setStateAfter id (some t)) g
      (fun _ g' => g'.GrowingBut gone ∧ KeepsAlive g g' ∧ Moves g g' [] [] ∧
        (c ≠ .loopExit → g'.joint? = g.joint?) ∧
        (c = .loopExit → ∃ first second, g.joint? id = some ⟨.loopExit, first, second⟩ ∧
          g'.joint? = Function.update g.joint? id (some ⟨.loopExit, first, [some t]⟩)))
      (fun _ => False) := by
  obtain ⟨n, hn, rfl⟩ := exists_node?_of_cls? hc
  obtain ⟨field, hfield⟩ := Option.isSome_iff_exists.1 hfield
  obtain ⟨hspec, hgo⟩ := inputs_of_state_after hfield
  have hid := hg.isAlive hc hgo
  have halive := hg.isAlive ht rfl
  refine Meets.bind (meets_setField_one hg.sound hn hfield (d := .inputs) hspec (by decide)
    (by rintro _ ⟨⟩; exact halive) (by rintro ⟨⟩)) fun old g' h => ?_
  obtain ⟨-, n', he, hslots, hr⟩ := h
  have hold (o : NodeId) (ho : old = some o) : g.cls? o = some .frameState := by
    obtain ⟨spec, ct, hspec', hct, hacc⟩ := hg.sound.accepts hn (he.swaps.old_mem o ho)
    obtain rfl : FieldSpec.stateAfter = spec := Option.mem_unique hspec hspec'
    rw [hct, show ct = .frameState by simpa [NodeClass.accepts, NodeClass.takes,
      FieldSpec.stateAfter, FieldSpec.maybe] using hacc]
  have hm := (hr.moves_input he (fun o ho => by simp [hold o ho])
    (by rintro _ ⟨⟩; simp [ht])).of_not_notes (by simp [Notes, ht])
  refine ⟨hm.growing hg (hr.sound he hg.sound (fun _ => hid) (by rintro _ ⟨⟩; exact halive) ?_ ?_
    (fun _ _ h => h) (by rintro _ - ⟨⟩ hc; simp [ht] at hc)), hr.keepsAlive, hm,
    fun hne => hr.joint?_eq (he.joint?_of_state_after hfield hne), fun hexit => ?_⟩
  · rintro _ spec ⟨⟩ hspec'
    obtain rfl : FieldSpec.stateAfter = spec := Option.mem_unique hspec hspec'
    exact ⟨_, ht, rfl⟩
  · intro _ hgone
    refine he.filled (hg.sound.filled id n hn hid hgone) (fun _ => .inr (.inr ?_))
      fun _ => suits_of_state_after hfield
    simpa [mayGo] using hgo
  · have hop := Node.op_of_loopExit hexit
    have hone : field = 1 := by
      have : n.cls.layout.fieldIndex? .inputs "state_after" = some field := hfield
      rw [hexit] at this
      cases this
      rfl
    subst hone
    have hjoint (k : Node) (hk : k.op = .loopExit) :
        k.joint? = some ⟨.loopExit, k.slotsAt .inputs 0, k.slotsAt .inputs 1⟩ := by
      simp [Node.joint?, Node.cls, hk, Op.cls]
    refine ⟨_, _, (joint?_of_node? hn hid).trans (hjoint n hop), ?_⟩
    rw [hr.joint? hid, hjoint n' (he.op.trans hop), he.slotsAt_elsewhere (by decide), hslots]

/-- Making an end one of a merge that had none. -/
theorem meets_addForwardEnd_growing (hmerge : c = .merge ∨ c = .loopBegin) (ht : g.Notes .unlisted t) :
    Meets (addForwardEnd id t) g
      (fun _ g' => g'.GrowingBut gone ∧ KeepsAlive g g' ∧ Moves g g' [] [(.unlisted, t)] ∧
        ∃ op ends, g.joint? id = some ⟨op, ends, []⟩ ∧ op.cls = c ∧
          g'.joint? = Function.update g.joint? id (some ⟨op, ends ++ [some t], []⟩))
      (fun _ => False) := by
  obtain ⟨n, hn, rfl⟩ := exists_node?_of_cls? hc
  have hgo : mayGo n.cls = false := by rcases hmerge with hc | hc <;> rw [hc] <;> rfl
  have hid := hg.isAlive hc hgo
  have hfield : n.layout.fieldIndex? .inputs "ends" = some 0 := by
    show n.cls.layout.fieldIndex? _ _ = _
    rcases hmerge with hc | hc <;> rw [hc] <;> rfl
  have hspec : n.layout.inputs[0]? = some (.many "ends" .association) := by
    show n.cls.layout.inputs[0]? = _
    rcases hmerge with hc | hc <;> rw [hc] <;> rfl
  refine Meets.bind (meets_pushEdge_many hg.sound hn hfield hspec rfl ht.1) fun _ g' h => ?_
  obtain ⟨n', he, hslots, hr⟩ := h
  have hm := hr.moves_input he (by rintro _ ⟨⟩) (by rintro _ ⟨⟩; simp [ht.2.1])
  have hjoint (k : Node) (hk : k.cls = n.cls) : k.joint? = some ⟨k.op, k.slotsAt .inputs 0, []⟩ := by
    rw [Node.joint?, hk]
    rcases hmerge with hc | hc <;> rw [hc]
  refine ⟨hm.growing hg (hr.sound he hg.sound (fun _ => hid) (by rintro _ ⟨⟩; exact ht.1) ?_ ?_
    (fun _ _ h => h) ?_), hr.keepsAlive, hm, n.op, n.slotsAt .inputs 0,
    (joint?_of_node? hn hid).trans (hjoint n rfl), rfl, ?_⟩
  · rintro _ spec ⟨⟩ hspec'
    obtain rfl : FieldSpec.many "ends" .association = spec := Option.mem_unique hspec hspec'
    refine ⟨_, ht.2.1, ?_⟩
    rcases hmerge with hc | hc <;> rw [hc] <;> rfl
  · intro _ hgone
    refine he.filled (hg.sound.filled id n hn hid hgone) (fun _ => .inr (.inr ?_))
      fun _ => suits_of_merge hmerge
    simpa [mayGo] using hgo
  · rintro _ - ⟨⟩ - u
    rw [← hg.sound.consistent.listed]
    exact users_eq_nil_iff.1 ht.2.2 u
  · rw [hr.joint? hid, hjoint n' (congrArg Op.cls he.op), he.op, hslots]

end

/-- Giving a phi one more value. -/
theorem meets_addPhiInput_growing (hg : g.GrowingBut gone) (hn : g.node? id = some n)
    (hop : n.op = .phi kind) (hid : g.isAlive id) (ht : g.isAlive t)
    (hv : g.HasKind t kind) :
    Meets (addPhiInput id (some t)) g
      (fun _ g' => g'.GrowingBut gone ∧ Moves g g' [] [] ∧ KeepsAlive g g' ∧
        ∃ n', g'.node? id = some n' ∧ n'.op = n.op ∧
          n'.slotsAt .inputs 0 = n.slotsAt .inputs 0 ∧
          n'.slotsAt .inputs 1 = n.slotsAt .inputs 1 ++ [some t] ∧
          (n.Typed Source.method g.op? → n'.Typed Source.method g'.op?) ∧
          g'.joint? = Function.update g.joint? id n'.joint?)
      (fun _ => False) := by
  obtain ⟨⟨c, hc, hvc⟩, hkind⟩ := hv
  have hphi : n.cls = .phi := congrArg Op.cls hop
  have hfield : n.layout.fieldIndex? .inputs "values" = some 1 := by
    show n.cls.layout.fieldIndex? _ _ = _
    rw [hphi]; rfl
  have hspec : n.layout.inputs[1]? = some (.many "values") := by
    show n.cls.layout.inputs[1]? = _
    rw [hphi]; rfl
  refine Meets.bind (meets_pushEdge_many hg.sound hn hfield hspec rfl ht) fun _ g' h => ?_
  obtain ⟨n', he, hslots, hr⟩ := h
  have hne : c ≠ .forwardEnd ∧ c ≠ .placeholder := by
    constructor <;> rintro rfl <;> cases hvc
  have hm := (hr.moves_input he (by rintro _ ⟨⟩) (by rintro _ ⟨⟩; simp [hc, hne.2])).of_not_notes
    (by simp [Notes, hc, hne.1])
  have hsuits : n.Suits Source.method g.op? 1 none t := .value kind hop hkind
  refine ⟨hm.growing hg (hr.sound he hg.sound (fun _ => hid) (by rintro _ ⟨⟩; exact ht) ?_ ?_
    (fun _ _ h => h) (by rintro _ - ⟨⟩ h; simp [hc, hne.1] at h)), hm, hr.keepsAlive, n', ?_, he.op,
    he.slotsAt_elsewhere (by omega), hslots, fun htyped => ?_, hr.joint? hid⟩
  · rintro _ spec ⟨⟩ hspec'
    obtain rfl : FieldSpec.many "values" = spec := Option.mem_unique hspec hspec'
    exact ⟨c, hc, hvc⟩
  · intro _ hgone
    exact he.filled (hg.sound.filled id n hn hid hgone) (fun _ => .inl ⟨hphi, rfl⟩) fun _ => hsuits
  · rw [hr.node?, if_pos rfl]
  · rw [hr.op? he]
    exact he.typed htyped (by rintro - _ ⟨⟩; exact hsuits) (by rintro _ ⟨⟩)

/-- A graph that grew, without new notes. -/
def Extends (g g' : Graph) : Prop := g'.Growing ∧ Moves g g' [] []

theorem Extends.refl (hg : g.Growing) : Extends g g := ⟨hg, .refl g⟩

theorem Extends.trans (h : Extends g g') (h' : Extends g' g'') : Extends g g'' :=
  ⟨h'.1, h.2.trans h'.2⟩

/-- Deleting a node that nothing uses and that is no successor. -/
theorem meets_delete_sound (hs : g.SoundBut gone) (ha : g.isAlive id) (hu : g.users id = [])
    (hp : g.predecessor? id = none) :
    Meets (delete id) g (fun _ g' => ∃ n, Deletes g g' id n) (fun _ => False) :=
  (meets_delete hs.consistent.packed id).mono (fun _ _ h => h) fun _ he =>
    he ⟨ha, hu, hp, fun _ _ h => hs.consistent.registered_target h⟩

/-- Values are no successors. -/
theorem SoundBut.predecessor?_eq_none (h : g.SoundBut gone) (hc : g.cls? id = some c)
    (hf : c.isFollower = false) : g.predecessor? id = none := by
  by_contra hne
  obtain ⟨p, hp⟩ := Option.ne_none_iff_exists'.1 hne
  obtain ⟨ct, hct, hf'⟩ := h.isFollower (h.consistent.uses_of_predecessor hp)
  obtain rfl : c = ct := Option.mem_unique hc hct
  rw [hf] at hf'
  cases hf'

end

end SeaOfNodes.Graph
