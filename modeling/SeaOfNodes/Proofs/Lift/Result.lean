import SeaOfNodes.Proofs.Descriptor
import SeaOfNodes.Proofs.Flow.Map
import SeaOfNodes.Proofs.Lift.Cleanup

/-!
# What lifting yields

A method is lifted from an empty graph with nothing but its parameters. What holds while its blocks are
lifted and the graph is cleaned up holds of the result: the graph is sound, so that verifying it finds
nothing, its operands are of the right kinds, and its phis have a value for each side of their merge.
If no dispatch block is the header of a loop, then its loops are complete, and if the code decodes as
well, then its control flow is.
-/

namespace SeaOfNodes

open Graph Bytecode

variable {m : Method} {options : Options} {map : BlockMap} {g : Graph} {x : NodeId}

/-- No dispatch block is the header of a loop. -/
def BlockMap.Plain (map : BlockMap) : Prop :=
  ∀ c ∈ map.order, (map.block c).isDispatch = true → (map.block c).isLoopHeader = false

instance : Decidable map.Plain :=
  inferInstanceAs (Decidable (∀ c ∈ map.order,
    (map.block c).isDispatch = true → (map.block c).isLoopHeader = false))

namespace Lift

/-- The plan for a method with the given blocks. -/
def planOf (m : Method) (map : BlockMap) : Plan where
  base := map
  code := m.code
  clean := decide map.Plain
  exact := decide (map.Plain ∧ Decodes m.code)
  clean_of_exact h := decide_eq_true (of_decide_eq_true h).1

theorem holds_planOf (h : BlockMap.create m options = .ok map) : (planOf m map).Holds where
  ordered := BlockMap.wellOrdered_of_create h
  plain hclean := of_decide_eq_true hclean
  runs hexact _ hc hkind := BlockMap.exists_next_of_create h (of_decide_eq_true hexact).2 hc hkind

variable {name : String}

theorem not_notes_empty {k : Note} {x : NodeId} : ¬ (Graph.empty name).Notes k x :=
  fun h => by simpa [node?, get?_empty] using h.registered

theorem joint?_empty (name : String) (x : NodeId) : (Graph.empty name).joint? x = none := by
  rw [joint?, node?, get?_empty]
  exact ite_self _

/-- Nothing is tied together where there are no joints. -/
theorem woven_of_joint? {clean : Bool} (h : ∀ x, g.joint? x = none) : Woven clean g [] where
  loops :=
    { entered := fun b ends hb => by rw [h] at hb; cases hb
      counted := fun b => ⟨[], .nil, fun x index hx => (by rw [IsLoopEnd, h] at hx; cases hx), by simp⟩
      back := fun b x index hx => by rw [IsLoopEnd, h] at hx; cases hx }
  exits _ x first second hx := by rw [h] at hx; cases hx
  phis merge x values := by rintro ⟨kind, hx⟩; rw [h] at hx; cases hx
  firsts := .nil
  heads := nofun

section

variable [Source]

theorem growing_empty (name : String) : (Graph.empty name).Growing where
  sound := sound_empty name
  deleted x c h := by simp [cls?, node?, get?_empty] at h

/-- What holds before lifting starts. -/
theorem inv_initial {q : Plan} {frame : Frame}
    (he : Extends (Graph.empty name) g) (hf : frame.Fits g) (hj : g.joint? = (Graph.empty name).joint?)
    (hcode : Source.method.code = q.code) :
    Inv (q.stage none false [] q.base.order) []
      { method := Source.method, options, map := q.base, graph := g, frame } := by
  have hnotes (k : Note) (x : NodeId) : ¬ g.Notes k x := fun h =>
    not_notes_empty (((he.2.notes k x).1 h).resolve_left List.not_mem_nil).1
  exact
    { method := rfl
      growing := he.1
      frame := hf
      arrivals := nofun
      keys := .nil
      settled := nofun
      last := nofun
      map := ⟨le_rfl, fun _ _ => rfl, rfl, nofun, nofun, nofun⟩
      current := rfl
      code := hcode
      accounts := ⟨.nil, nofun, nofun, fun _ k x _ hx => absurd hx (hnotes k x)⟩
      tidy := fun _ => ⟨nofun, nofun, hnotes .held⟩
      woven := woven_of_joint? fun x => by rw [hj, joint?_empty] }

end

/-- How lifting may fail. The parameters may have no room in the locals, and an exit may belong to a
placeholder if a dispatch block is the header of a loop. -/
inductive Fails (m : Method) (map : BlockMap) : Failure → Prop
  | foreseen (e : Failure) (h : Foreseen e) : Fails m map e
  | noRoom (cause : Fault) (h : ¬ m.HasRoom) : Fails m map (.fault cause)
  | held (id : NodeId) (h : ¬ map.Plain) : Fails m map (.fault (.usedOnRemoval ⟨id, .placeholder⟩))

/-- What holds before lifting starts, unless the parameters have no room. -/
theorem ends_initial (m : Method) (options : Options) (map : BlockMap) :
    letI : Source := ⟨m⟩
    Ends (initial m options map)
      (fun s => Inv ((planOf m map).stage none false [] map.order) [] s ∧ s.last = none ∧ s.arrivals = [] ∧
        s.map = map) (Fails m map) := by
  let _ : Source := ⟨m⟩
  have hentry := Frame.meets_entry (growing_empty m.qualifiedName)
  unfold Meets at hentry
  unfold initial StateT.run
  change Ends (Frame.entry m (Graph.empty m.qualifiedName)) _ _ at hentry
  cases hrun : Frame.entry m (Graph.empty m.qualifiedName) with
  | error cause =>
    rw [hrun] at hentry
    exact hentry.elim (fun hs => .foreseen _ (.inl (.inl hs))) (.noRoom cause)
  | ok r =>
    rw [hrun] at hentry
    obtain ⟨he, hf, hj⟩ := hentry
    exact ⟨inv_initial he hf hj rfl, rfl, rfl, rfl⟩

/-- Lifting with a map of blocks, from the start to a graph that is cleaned up. -/
theorem ends_liftOn (h : BlockMap.create m options = .ok map) :
    letI : Source := ⟨m⟩
    Ends (do
        let (_, s) ← Lift.all.run (← Lift.initial m options map)
        if options.verifyGraph then s.graph.verify.mapError Failure.flaw
        return s.graph)
      (Cleaned (planOf m map).clean (planOf m map).exact) (Fails m map) := by
  let _ : Source := ⟨m⟩
  refine ends_bind.2 ((ends_initial m options map).mono ?_ fun _ he => he)
  rintro s ⟨hs, hlast, harrivals, hmap⟩
  have hall : Meets Lift.all s (fun _ s => Cleaned (planOf m map).clean (planOf m map).exact s.graph)
      (Fails m map) := by
    refine (holds_planOf h).meets_all hs hlast harrivals hmap (fun e => .foreseen e)
      fun s hs => meets_onGraph.2 (hs.trim.meets_cleanUp.mono (fun _ _ h => h) ?_)
    rintro _ ⟨hclean, id, rfl⟩
    exact .held id (of_decide_eq_false hclean)
  refine ends_bind.2 (Ends.mono hall (fun r hr => ?_) fun _ he => he)
  -- verifying finds nothing
  dsimp only
  rw [hr.sound.verify_eq_ok]
  cases options.verifyGraph <;> exact hr

end Lift

open Lift

/-- How a method is lifted to a graph, or fails to be. -/
theorem Method.ends_lift (m : Method) (options : Options) :
    letI : Source := ⟨m⟩
    Ends (m.lift options)
      (fun g => ∃ map, BlockMap.create m options = .ok map ∧
        Cleaned (planOf m map).clean (planOf m map).exact g)
      (fun e => (∃ cause, e = .bailout cause) ∨ ∃ map, BlockMap.create m options = .ok map ∧ Fails m map e) := by
  unfold Method.lift
  cases hmap : BlockMap.create m options with
  | error cause => exact .inl ⟨cause, rfl⟩
  | ok map => exact (ends_liftOn hmap).mono (fun g hg => ⟨map, rfl, hg⟩) fun e he => .inr ⟨map, rfl, he⟩

theorem Method.cleaned_of_lift (hmap : BlockMap.create m options = .ok map)
    (h : m.lift options = .ok g) :
    letI : Source := ⟨m⟩
    Cleaned (planOf m map).clean (planOf m map).exact g := by
  obtain ⟨map', hmap', hg⟩ := (m.ends_lift options).of_ok h
  rw [hmap] at hmap'
  cases hmap'
  exact hg

theorem Method.exists_cleaned_of_lift (h : m.lift options = .ok g) :
    letI : Source := ⟨m⟩
    ∃ clean exact, Cleaned clean exact g := by
  obtain ⟨map, -, hg⟩ := (m.ends_lift options).of_ok h
  exact ⟨_, _, hg⟩

/-- A method that throws inside its handler, where the dispatch to the handler is a loop. -/
def Method.rethrower : Method :=
  .ofCode #[0xb8, 0, 1, 0x01, 0xbf, 0x01, 0xbf, 0x1a, 0x99, 0xff, 0xff, 0xb1] [⟨4, 7, 5, none⟩]
    [.method ⟨"T", "t", "()V", true⟩]

/-! ### Verifying -/

/-- The operands in a lifted graph are of the kinds that their users take. -/
theorem Method.lift_typed {x : NodeId} {n : Node} (h : m.lift options = .ok g)
    (ha : g.isAlive x = true) (hn : g.node? x = some n) : n.Typed m g.op? := by
  let _ : Source := ⟨m⟩
  obtain ⟨_, _, hg⟩ := exists_cleaned_of_lift h
  exact (hg.sound.filled x n hn ha not_false).typed

theorem Method.lift_typed_countdown : ∃ g n, Method.countdown.lift .none = .ok g ∧
    g.node? ⟨18⟩ = some n ∧ n.cls = .binary ∧ n.Typed Method.countdown g.op? := by
  obtain ⟨g, hg, htest⟩ : ∃ g, Method.countdown.lift .none = .ok g ∧
      decide (g.isAlive ⟨18⟩ = true ∧ g.cls? ⟨18⟩ = some .binary) = true :=
    exists_ok_of_any (by decide +kernel)
  obtain ⟨ha, hc⟩ := of_decide_eq_true htest
  obtain ⟨n, hn, hcls⟩ := exists_node?_of_cls? hc
  exact ⟨g, n, hg, hn, hcls, lift_typed hg ha hn⟩

/-! ### Phis -/

/-- A required input of a live node is there, alive and of a class that the field takes. -/
theorem Graph.SoundBut.exists_input [Source] {n : Node} (hs : g.Sound)
    (hn : g.node? x = some n) (ha : g.isAlive x) (field : Nat) (spec : FieldSpec)
    (hspec : n.cls.layout.inputs[field]? = some spec) (hshape : spec.shape = .single) :
    ∃ t c, n.slotsAt .inputs field = [some t] ∧ g.isAlive t ∧ g.cls? t = some c ∧
      n.cls.takes spec.role c := by
  obtain ⟨slot, hslot⟩ := (hs.fits x n hn).exists_one (d := .inputs) hspec (by rw [hshape]; decide)
  have hslots : n.slotsAt .inputs field = [slot] := Node.slotsAt_of_getElem? hslot
  cases slot with
  | none =>
    have := (Node.forall₂_iff_getElem?.1 (hs.filled x n hn ha not_false).present).2 field spec _ hspec hslot
    exact absurd (List.mem_singleton.2 rfl) (this hshape)
  | some t =>
    have hmem : some t ∈ n.slotsAt .inputs field := by rw [hslots]; exact List.mem_singleton.2 rfl
    obtain ⟨spec', c, hspec', hc, haccepts⟩ := hs.accepts hn hmem
    obtain rfl : spec = spec' := Option.mem_unique hspec hspec'
    exact ⟨t, c, hslots, hs.consistent.isAlive_of_slot hn hmem, hc, haccepts⟩

/-- Every live phi of a lifted graph belongs to a live merge or loop, and has one live value for each
side from which that is entered. -/
theorem Method.lift_phi {x : NodeId} {n : Node} (h : m.lift options = .ok g) (ha : g.isAlive x = true)
    (hn : g.node? x = some n) (hc : n.cls = .phi) :
    ∃ (merge : NodeId) (values : List NodeId), n.inputs = [.one (some merge), .many (values.map some)] ∧
      g.isAlive merge = true ∧ (g.cls? merge = some .merge ∨ g.cls? merge = some .loopBegin) ∧
      (∀ v ∈ values, g.isAlive v = true) ∧ phiValueCount merge g = .ok (values.length, g) := by
  let _ : Source := ⟨m⟩
  obtain ⟨_, _, hg⟩ := exists_cleaned_of_lift h
  have hs := hg.sound
  obtain ⟨point, slots, hinputs⟩ := (hs.fits x n hn).inputs_of_phi hc
  obtain ⟨merge, c, hmerge, hma, hmc, htakes⟩ :=
    hs.exists_input hn ha 0 (.one "merge" .association) (by rw [hc]; rfl) rfl
  rw [Node.slotsAt, Node.links, hinputs] at hmerge
  obtain rfl : point = some merge := List.singleton_inj.1 hmerge
  have hslots : n.slotsAt .inputs 1 = slots := by rw [Node.slotsAt, Node.links, hinputs]; rfl
  -- no value is absent
  have hnone := ((hs.filled x n hn ha not_false).phi hc).1
  rw [hslots] at hnone
  obtain ⟨values, rfl⟩ : slots ∈ Set.range (List.map some) := by
    rw [Set.range_list_map]
    exact fun v hv => (Option.ne_none_iff_exists.1 fun h => hnone (h ▸ hv)).imp fun _ h => h
  have hkind : c = .merge ∨ c = .loopBegin := by
    rw [hc] at htakes
    simpa [NodeClass.takes, NodeClass.anchors, FieldSpec.one] using htakes
  obtain ⟨kind, hop⟩ := Node.op_of_phi hc
  have hphi : IsPhi g.joint? merge x (values.map some) := by
    refine ⟨kind, ?_⟩
    rw [joint?_of_node? hn ha, Node.joint?_of_phi hop, hslots, Node.slotsAt, Node.links, hinputs]
    rfl
  refine ⟨merge, values, hinputs, hma, by rw [hmc]; simpa using hkind, fun v hv => ?_, ?_⟩
  · have hmem : some v ∈ n.slotsAt .inputs 1 := hslots ▸ List.mem_map_of_mem hv
    exact hs.consistent.isAlive_of_slot hn hmem
  · have hcount : Meets (phiValueCount merge) g _ fun _ => False :=
      meets_phiValueCount hs.consistent hs.fits hmc hkind
    have hsides := hg.tied.phis merge x _ hphi
    rw [List.length_map] at hsides
    unfold Meets at hcount
    cases hrun : phiValueCount merge g with
    | error e => rw [hrun] at hcount; exact hcount.elim
    | ok r =>
      rw [hrun] at hcount
      rw [← hcount.2 _ hsides, ← hcount.1]

theorem Method.lift_phi_countdown : ∃ g n, Method.countdown.lift .none = .ok g ∧
    g.node? ⟨6⟩ = some n ∧ n.cls = .phi ∧ ∃ (merge : NodeId) (values : List NodeId),
      n.inputs = [.one (some merge), .many (values.map some)] ∧
      phiValueCount merge g = .ok (values.length, g) := by
  obtain ⟨g, hg, htest⟩ : ∃ g, Method.countdown.lift .none = .ok g ∧
      decide (g.isAlive ⟨6⟩ = true ∧ g.cls? ⟨6⟩ = some .phi) = true :=
    exists_ok_of_any (by decide +kernel)
  obtain ⟨ha, hc⟩ := of_decide_eq_true htest
  obtain ⟨n, hn, hcls⟩ := exists_node?_of_cls? hc
  obtain ⟨merge, values, hinputs, -, -, -, hcount⟩ := lift_phi hg ha hn hcls
  exact ⟨g, n, hg, hn, hcls, merge, values, hinputs, hcount⟩

/-! ### Loops -/

/-- The loops of a graph are complete. -/
structure Graph.LoopsComplete (g : Graph) : Prop where
  /-- No placeholder is left. -/
  vacated : ∀ x, g.isAlive x = true → g.cls? x ≠ some .placeholder
  /-- A loop is entered through one end. -/
  entered : ∀ x n, g.isAlive x = true → g.node? x = some n → n.cls = .loopBegin →
    ∃ forwardEnd, n.slotsAt .inputs 0 = [some forwardEnd]
  /-- A loop has other ends, which are counted. -/
  counted : ∀ x, g.isAlive x = true → g.cls? x = some .loopBegin → ∃ ends : List NodeId, ends ≠ [] ∧
    ends.Nodup ∧ (∀ y, y ∈ ends ↔ g.isAlive y = true ∧ ∃ n, g.node? y = some n ∧ n.cls = .loopEnd ∧
      n.slotsAt .inputs 0 = [some x]) ∧
    ∀ (i : Nat) y, ends[i]? = some y → g.op? y = some (.loopEnd (Int32.ofNat i))
  /-- Ends and exits belong to loops. -/
  loop : ∀ x n, g.isAlive x = true → g.node? x = some n → n.cls = .loopEnd ∨ n.cls = .loopExit →
    ∃ loopBegin, n.slotsAt .inputs 0 = [some loopBegin] ∧ g.isAlive loopBegin = true ∧
      g.cls? loopBegin = some .loopBegin
  /-- Proxies belong to exits. -/
  exit : ∀ x n, g.isAlive x = true → g.node? x = some n → n.cls = .proxy →
    ∃ loopExit, n.slotsAt .inputs 1 = [some loopExit] ∧ g.isAlive loopExit = true ∧
      g.cls? loopExit = some .loopExit
  /-- The state after an exit holds nothing but proxies at that exit. -/
  left : ∀ x n state s v, g.isAlive x = true → g.node? x = some n → n.cls = .loopExit →
    some state ∈ n.slotsAt .inputs 1 → g.node? state = some s → some v ∈ s.slotsAt .inputs 0 →
    g.isAlive v = true ∧ ∃ p, g.node? v = some p ∧ p.cls = .proxy ∧ p.slotsAt .inputs 1 = [some x]

theorem Lift.Cleaned.loopsComplete [Source] {exact : Bool} (hg : Cleaned true exact g) : g.LoopsComplete := by
  have hs := hg.sound
  have hback (x : NodeId) (n : Node) (ha : g.isAlive x) (hn : g.node? x = some n)
      (hc : n.cls = .loopEnd) : ∃ loopBegin index, n.slotsAt .inputs 0 = [some loopBegin] ∧
        IsLoopEnd g.joint? loopBegin x index := by
    obtain ⟨b, c, hb, -⟩ :=
      hs.exists_input hn ha 0 (.one "loop_begin" .association) (by rw [hc]; rfl) rfl
    obtain ⟨index, hop⟩ := Node.op_of_loopEnd hc
    refine ⟨b, index, hb, ?_⟩
    obtain ⟨b', hinputs⟩ := (hs.fits x n hn).inputs_of_loopEnd hc
    rw [IsLoopEnd, joint?_of_node? hn ha, Node.joint?, hc, hop, hb]
    simp [Node.slotsAt, Node.links, hinputs]
  have hexit (x : NodeId) (n : Node) (ha : g.isAlive x) (hn : g.node? x = some n)
      (hc : n.cls = .loopExit) : ExitOk g.joint? x (n.slotsAt .inputs 0) (n.slotsAt .inputs 1) := by
    refine hg.tied.exits rfl x _ _ not_false ?_
    have hop := Node.op_of_loopExit hc
    rw [joint?_of_node? hn ha, Node.joint?, hc, hop]
  refine ⟨hg.vacated, fun x n ha hn hc => ?_, fun x ha hc => ?_, fun x n ha hn hc => ?_,
    fun x n ha hn hc => ?_, fun x n state s v ha hn hc hstate hs' hv => ?_⟩
  · obtain ⟨ends, hx⟩ := exists_joint?_of_loopBegin ha ((cls?_of_node? hn).trans (congrArg some hc))
    obtain ⟨e, rfl⟩ := hg.tied.loops.entered x ends hx
    obtain ⟨n', hn', hj⟩ := exists_node?_of_joint? hx
    cases hn.symm.trans hn'
    exact ⟨e, (Node.first_of_joint? hj).symm⟩
  · obtain ⟨ends, hx⟩ := exists_joint?_of_loopBegin ha hc
    obtain ⟨back, hends⟩ := hg.tied.loops.counted x
    refine ⟨back, ?_, hends.nodup, fun y => ?_, fun i y hy => (of_joint? (hends.place i y hy)).2⟩
    · rintro rfl
      obtain ⟨y, index, hy⟩ := hg.closed x ends hx
      cases hends.mem y index hy
    · rw [hends.mem_iff]
      constructor
      · rintro ⟨index, hy⟩
        obtain ⟨n, hn, hj⟩ := exists_node?_of_joint? hy
        exact ⟨(of_joint? hy).1, n, hn, congrArg Op.cls (Node.op_of_joint? hj), (Node.first_of_joint? hj).symm⟩
      · rintro ⟨hya, n, hn, hnc, hfirst⟩
        obtain ⟨b, index, hb, hy⟩ := hback y n hya hn hnc
        cases hfirst.symm.trans hb
        exact ⟨index, hy⟩
  · rcases hc with hc | hc
    · obtain ⟨b, index, hb, hx⟩ := hback x n ha hn hc
      obtain ⟨ends, hj⟩ := hg.tied.loops.back b x index hx
      exact ⟨b, hb, (of_joint? hj).1, cls?_of_op? (of_joint? hj).2⟩
    · obtain ⟨⟨b, ends, hb, hj⟩, -⟩ := hexit x n ha hn hc
      exact ⟨b, hb, (of_joint? hj).1, cls?_of_op? (of_joint? hj).2⟩
  · obtain ⟨e, c, he, hea, hec, htakes⟩ :=
      hs.exists_input hn ha 1 (.one "proxy_point" .association) (by rw [hc]; rfl) rfl
    refine ⟨e, he, hea, ?_⟩
    rw [hc] at htakes
    rw [hec]
    simpa [NodeClass.takes, NodeClass.anchors, FieldSpec.one] using htakes
  · obtain ⟨op, values, rest, hj, hop, hvalues⟩ := (hexit x n ha hn hc).state state hstate
    obtain ⟨s'', hs'', hj'⟩ := exists_node?_of_joint? hj
    cases hs'.symm.trans hs''
    rw [← Node.first_of_joint? hj'] at hv
    obtain ⟨kind, first, hp⟩ := hvalues v hv
    obtain ⟨p, hp', hpj⟩ := exists_node?_of_joint? hp
    refine ⟨(of_joint? hp).1, p, hp', congrArg Op.cls (Node.op_of_joint? hpj), ?_⟩
    rcases Node.second_of_joint? hpj with hsecond | hsecond
    · exact hsecond.symm
    · cases hsecond

/-- The loops of a lifted graph are complete if no dispatch block is the header of a loop. -/
theorem Method.lift_loopsComplete (hmap : BlockMap.create m options = .ok map) (hplain : map.Plain)
    (h : m.lift options = .ok g) : g.LoopsComplete := by
  let _ : Source := ⟨m⟩
  have hg := cleaned_of_lift hmap h
  rw [show (planOf m map).clean = true from decide_eq_true hplain] at hg
  exact hg.loopsComplete

theorem Method.lift_loopsComplete_countdown : ∃ g, Method.countdown.lift .none = .ok g ∧
    g.cls? ⟨5⟩ = some .loopBegin ∧ g.LoopsComplete := by
  obtain ⟨map, hmap, hplain⟩ : ∃ map, BlockMap.create Method.countdown .none = .ok map ∧
      decide map.Plain = true := exists_ok_of_any (by decide +kernel)
  obtain ⟨g, hg, htest⟩ : ∃ g, Method.countdown.lift .none = .ok g ∧
      decide (g.cls? ⟨5⟩ = some .loopBegin) = true := exists_ok_of_any (by decide +kernel)
  exact ⟨g, hg, of_decide_eq_true htest, lift_loopsComplete hmap (of_decide_eq_true hplain) hg⟩

/-! ### Control flow -/

/-- Control goes on everywhere until the method is left. -/
structure Graph.FlowComplete (g : Graph) : Prop where
  /-- No successor is absent but exception edges. -/
  onwards : ∀ x n, g.isAlive x = true → g.node? x = some n → n.Complete
  /-- An end belongs to one merge or loop. -/
  ends : ∀ x, g.isAlive x = true → g.cls? x = some .forwardEnd →
    ∃! merge, g.isAlive merge = true ∧ ∃ n, g.node? merge = some n ∧
      (n.cls = .merge ∨ n.cls = .loopBegin) ∧ some x ∈ n.slotsAt .inputs 0
  /-- Control comes to every node but the start and merges from a node before it. -/
  reached : ∀ x c, g.isAlive x = true → g.cls? x = some c → c.has .fixed = true → c ≠ .start →
    c ≠ .merge → c ≠ .loopBegin → ∃ p, g.predecessor? x = some p ∧ g.isAlive p = true

theorem Lift.Cleaned.flowComplete [Source] {clean : Bool} (hg : Cleaned clean true g) : g.FlowComplete := by
  have hs := hg.sound
  have hno (k : Note) (x : NodeId) (hk : watches clean true k) : ¬ g.Notes k x := fun hx => by
    cases hg.owes k x hk hx
  refine ⟨fun x n ha hn => ?_, fun x ha hc => ?_, fun x c ha hc hfixed hstart hmerge hloop => ?_⟩
  · by_contra hgap
    exact hno .gap x rfl ⟨ha, n, hn, hgap⟩
  · have husers : g.users x ≠ [] := fun hnil => hno .unlisted x rfl ⟨ha, hc, hnil⟩
    obtain ⟨u, hu⟩ := List.exists_mem_of_ne_nil _ husers
    have huses := hs.consistent.uses_of_mem_users hu
    obtain ⟨n, field, spec, hn, ht, hspec, htakes⟩ := hs.exists_field hc hu
    obtain rfl := NodeClass.field_of_forwardEnd (c := n.cls) hspec htakes
    refine ⟨u, ⟨hs.consistent.isAlive_user hu, n, hn, NodeClass.takes_forwardEnd htakes, ht⟩, ?_⟩
    rintro v ⟨hva, n', hn', -, ht'⟩
    exact hs.ends x v u hc (uses_pos_of_slot hn' ht') huses
  · cases hp : g.predecessor? x with
    | some p => exact ⟨p, rfl, hs.consistent.isAlive_of_uses (hs.consistent.uses_of_predecessor hp)⟩
    | none =>
      refine absurd ⟨ha, ?_, hp⟩ (hno .loose x rfl)
      rw [hc]
      revert hfixed hstart hmerge hloop
      cases c <;> decide

/-- The control flow of a lifted graph is complete if the code decodes and no dispatch block is the
header of a loop. -/
theorem Method.lift_flowComplete (hcode : Decodes m.code) (hmap : BlockMap.create m options = .ok map)
    (hplain : map.Plain) (h : m.lift options = .ok g) : g.FlowComplete := by
  let _ : Source := ⟨m⟩
  have hg := cleaned_of_lift hmap h
  rw [show (planOf m map).exact = true from decide_eq_true ⟨hplain, hcode⟩] at hg
  exact hg.flowComplete

theorem Method.lift_flowComplete_countdown : ∃ g, Method.countdown.lift .none = .ok g ∧
    g.cls? ⟨16⟩ = some .branch ∧ g.FlowComplete := by
  obtain ⟨map, hmap, hplain⟩ : ∃ map, BlockMap.create Method.countdown .none = .ok map ∧
      decide map.Plain = true := exists_ok_of_any (by decide +kernel)
  obtain ⟨g, hg, htest⟩ : ∃ g, Method.countdown.lift .none = .ok g ∧
      decide (g.cls? ⟨16⟩ = some .branch) = true := exists_ok_of_any (by decide +kernel)
  exact ⟨g, hg, of_decide_eq_true htest,
    lift_flowComplete (by decide +kernel) hmap (of_decide_eq_true hplain) hg⟩

/-- Where the dispatch to a handler is the header of a loop, control may not go on: the merge that is
put there when control comes back has no successor. -/
theorem Method.rethrower_not_flowComplete : Decodes Method.rethrower.code ∧
    ∃ g, Method.rethrower.lift .standard = .ok g ∧ ¬ g.FlowComplete := by
  refine ⟨by decide +kernel, ?_⟩
  obtain ⟨g, hg, htest⟩ : ∃ g, Method.rethrower.lift .standard = .ok g ∧
      decide (g.isAlive ⟨14⟩ = true ∧ (g.node? ⟨14⟩).any (fun n => ¬ n.Complete)) = true :=
    exists_ok_of_any (by decide +kernel)
  obtain ⟨ha, hany⟩ := of_decide_eq_true htest
  obtain ⟨n, hn, hgap⟩ := (Option.any_eq_true ..).1 hany
  exact ⟨g, hg, fun h => of_decide_eq_true hgap (h.onwards _ n ha hn)⟩

/-! ### Faults -/

theorem Kind.ofTypeChar?_ne_illegal (c : Char) : Kind.ofTypeChar? c ≠ some .illegal := by
  unfold Kind.ofTypeChar?
  split <;> nofun

/-- A method with all that may be given beside its descriptor and code. -/
def Method.equip (m : Method) (handlers : List Handler) (pool : Pool) (lines : Option LineTable)
    (maxLocals : Nat) : Method :=
  ({ m with handlers, pool, lines } : Method).withMaxLocals maxLocals

/-- The parameters of a method that is made from a descriptor have room. -/
theorem Method.hasRoom_of_create {holder name descriptor : String} {isStatic : Bool}
    {code : Array UInt8} (h : Method.create holder name descriptor isStatic code = .ok m)
    (hvoid : .void ∉ m.parameters) (handlers : List Handler) (pool : Pool) (lines : Option LineTable)
    (maxLocals : Nat) : (m.equip handlers pool lines maxLocals).HasRoom := by
  unfold Method.create at h
  split at h
  · cases h
  · rename_i s hs
    cases h
    have hillegal : .illegal ∉ s.parameters := by
      intro hmem
      obtain ⟨inside, result, -, -, hlisted, -⟩ := Signature.ofDescriptor?_eq_some_iff.1 hs
      obtain ⟨type, htaken⟩ := hlisted.exists_type .illegal hmem
      obtain ⟨c, -, hc⟩ := Option.bind_eq_some_iff.1 htaken.kind
      exact Kind.ofTypeChar?_ne_illegal c hc
    refine ⟨fun k hk => ?_, le_max_left ..⟩
    cases k <;> first | exact absurd hk hvoid | exact absurd hk hillegal | decide

/-- The faults that lifting can run into. A new node may refer to a phi or proxy that is gone; a phi
that has to go may be in use; a value may be pushed whose kind has none; and if a dispatch block is the
header of a loop, a placeholder may be in use when it has to go. -/
theorem Method.lift_fault {holder name descriptor : String} {isStatic : Bool} {code : Array UInt8}
    (hm : Method.create holder name descriptor isStatic code = .ok m) (hvoid : .void ∉ m.parameters)
    (handlers : List Handler) (pool : Pool) (lines : Option LineTable) (maxLocals : Nat)
    (options : Options) {cause : Fault}
    (h : (m.equip handlers pool lines maxLocals).lift options = .error (.fault cause)) :
    (∃ id, cause = .deletedNode .newNode ⟨id, .phi⟩ ∨ cause = .deletedNode .newNode ⟨id, .proxy⟩) ∨
      (∃ id, cause = .phiInUse id) ∨ cause = .noValue .void ∨ cause = .noValue .illegal ∨
      ∃ map, BlockMap.create (m.equip handlers pool lines maxLocals) options = .ok map ∧ ¬ map.Plain ∧
        ∃ id, cause = .usedOnRemoval ⟨id, .placeholder⟩ := by
  have hroom := hasRoom_of_create hm hvoid handlers pool lines maxLocals
  rcases (Method.ends_lift _ options).of_error h with ⟨bailout, hb⟩ | ⟨map, hmap, hfails⟩
  · cases hb
  · cases hfails with
    | foreseen _ h =>
      rcases h with (⟨id, c, hc, hcause⟩ | hused) | hvoid | hillegal
      · refine .inl ⟨id, ?_⟩
        have : c = .phi ∨ c = .proxy := by simpa [mayGo] using hc
        simpa [hcause] using this
      · exact .inr (.inl hused)
      · exact .inr (.inr (.inl hvoid))
      · exact .inr (.inr (.inr (.inl hillegal)))
    | noRoom _ hno => exact absurd hroom hno
    | held id hplain => exact .inr (.inr (.inr (.inr ⟨map, hmap, hplain, id, rfl⟩)))

/-- A loop that adds to a phi, which a conflict at the end of the loop takes away. -/
theorem Method.lift_fault_conflict : ∃ m cause,
    Method.create "T" "m" "(I)V" true #[0x03, 0x3c, 0x1b, 0x04, 0x60, 0x57, 0x0b, 0x44, 0xa7, 0xff, 0xfa] =
      .ok m ∧
    (m.equip [] ⟨[]⟩ none 4).lift .standard = .error (.fault cause) ∧ ∃ id, cause = .phiInUse id := by
  obtain ⟨m, hm, htest⟩ := exists_ok_of_any (r := Method.create "T" "m" "(I)V" true
      #[0x03, 0x3c, 0x1b, 0x04, 0x60, 0x57, 0x0b, 0x44, 0xa7, 0xff, 0xfa])
    (p := fun m => decide (.void ∉ m.parameters) &&
      failsWith ((m.equip [] ⟨[]⟩ none 4).lift .standard) (.fault (.phiInUse ⟨7⟩))) (by decide +kernel)
  obtain ⟨hvoid, hfault⟩ := Bool.and_eq_true_iff.1 htest
  replace hfault := eq_error_of_failsWith hfault
  refine ⟨m, _, hm, hfault, ?_⟩
  rcases lift_fault hm (of_decide_eq_true hvoid) _ _ _ _ _ hfault with
    ⟨_, h | h⟩ | h | h | h | ⟨_, _, _, _, h⟩
  case inr.inl => exact h
  all_goals cases h

/-- A branch back that takes a phi away, which the way onwards still needs. -/
theorem Method.lift_branchBack : ∃ m,
    Method.create "T" "m" "(I)V" true #[0x03, 0x3c, 0x1b, 0x3d, 0x0b, 0x44, 0x1a, 0x99, 0xff, 0xfb, 0xb1] =
      .ok m ∧ .void ∉ m.parameters ∧
    (m.equip [] ⟨[]⟩ none 4).lift .standard = .error (.fault (.deletedNode .newNode ⟨⟨8⟩, .phi⟩)) := by
  obtain ⟨m, hm, htest⟩ := exists_ok_of_any (r := Method.create "T" "m" "(I)V" true
      #[0x03, 0x3c, 0x1b, 0x3d, 0x0b, 0x44, 0x1a, 0x99, 0xff, 0xfb, 0xb1])
    (p := fun m => decide (.void ∉ m.parameters) && failsWith ((m.equip [] ⟨[]⟩ none 4).lift .standard)
      (.fault (.deletedNode .newNode ⟨⟨8⟩, .phi⟩))) (by decide +kernel)
  obtain ⟨hvoid, hfault⟩ := Bool.and_eq_true_iff.1 htest
  exact ⟨m, hm, of_decide_eq_true hvoid, eq_error_of_failsWith hfault⟩

/-- Calls in handlers that cover each other, where a handler reads a local that is written twice. -/
def Method.handsOver : Method :=
  { Method.ofCode #[8, 0x3c, 0x1a, 0x99, 0, 0x11, 0xb8, 0, 1, 0xb1, 0x57, 8, 0x3d, 0xb8, 0, 1, 0xb8, 0, 1,
      0xb1, 8, 0x3d, 0xb8, 0, 1, 0xb1, 0x57, 0x1a, 0x99, 0, 9, 0x0b, 0x45, 0xb8, 0, 1, 0xb1, 0x1c, 0x57, 0xb1]
      [⟨6, 16, 10, none⟩, ⟨16, 36, 26, none⟩] [.method ⟨"T", "t", "()V", true⟩] with
    maxLocals := 3 }

/-- If a dispatch block is the header of a loop, a method may be lifted only as long as the live locals
are not known. -/
theorem Method.lift_handsOver : ∃ g,
    Method.handsOver.lift { Options.standard with livenessAnalysis := false, verifyGraph := false } = .ok g ∧
    Method.handsOver.lift { Options.standard with verifyGraph := false } =
      .error (.bailout (.malformed (.wrongInLocal 2 .int none))) := by
  obtain ⟨g, hg, -⟩ : ∃ g, Method.handsOver.lift
      { Options.standard with livenessAnalysis := false, verifyGraph := false } = .ok g ∧ true = true :=
    exists_ok_of_any (by decide +kernel)
  exact ⟨g, hg, eq_error_of_failsWith (by decide +kernel)⟩

/-- A switch whose keys, 5 and 1, are not in order. -/
def Method.unordered : Method :=
  .ofCode #[0x1a, 0xab, 0, 0, 0, 0, 0, 27, 0, 0, 0, 2, 0, 0, 0, 5, 0, 0, 0, 28, 0, 0, 0, 1, 0, 0, 0, 29,
    0xb1, 0xb1, 0xb1] [] []

/-- If its keys are not in order, a switch may take the way of the default for a key that it has. -/
theorem Method.lift_unordered : ∃ g, Method.unordered.lift .none = .ok g ∧
    g.op? ⟨9⟩ = some (.switch [5, 1] [0, 1, 2]) ∧ Switch.successorFor [5, 1] [0, 1, 2] 5 = some 2 := by
  obtain ⟨g, hg, htest⟩ : ∃ g, Method.unordered.lift .none = .ok g ∧
      decide (g.op? ⟨9⟩ = some (.switch [5, 1] [0, 1, 2])) = true := exists_ok_of_any (by decide +kernel)
  exact ⟨g, hg, of_decide_eq_true htest, by decide⟩

/-- A branch on line 1 whose two sides are on line 2. -/
def Method.forked : Method :=
  { Method.ofCode #[0x1a, 0x99, 0, 4, 0xb1, 0xb1] [] [] with lines := some ⟨[(0, 1), (4, 2)]⟩ }

/-- Only one of two branches to the same line is marked with it. -/
theorem Method.lift_forked : ∃ g,
    Method.forked.lift { Options.none with eagerInfopoints := true } = .ok g ∧
    g.op? ⟨3⟩ = some (.infopoint 1) ∧ g.predecessor? ⟨11⟩ = some ⟨3⟩ ∧ g.cls? ⟨11⟩ = some .branch ∧
    g.predecessor? ⟨8⟩ = some ⟨11⟩ ∧ g.predecessor? ⟨17⟩ = some ⟨8⟩ ∧ g.cls? ⟨17⟩ = some .forwardEnd ∧
    Method.forked.line? 5 = some 2 := by
  obtain ⟨g, hg, htest⟩ : ∃ g,
      Method.forked.lift { Options.none with eagerInfopoints := true } = .ok g ∧
      decide (g.op? ⟨3⟩ = some (.infopoint 1) ∧ g.predecessor? ⟨11⟩ = some ⟨3⟩ ∧
        g.cls? ⟨11⟩ = some .branch ∧ g.predecessor? ⟨8⟩ = some ⟨11⟩ ∧ g.predecessor? ⟨17⟩ = some ⟨8⟩ ∧
        g.cls? ⟨17⟩ = some .forwardEnd ∧ Method.forked.line? 5 = some 2) = true :=
    exists_ok_of_any (by decide +kernel)
  exact ⟨g, hg, of_decide_eq_true htest⟩

end SeaOfNodes
