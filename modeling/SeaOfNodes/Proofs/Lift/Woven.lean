import SeaOfNodes.Lift.Basic
import SeaOfNodes.Proofs.Frame.Loops

/-!
# Merges and loops while a method is lifted

Every phi has a value for each side of its merge. To keep that, the phis of the merge at the head of a
block must stand in the frame of the block, each in one slot. Loops are entered through one end, their
other ends are counted, and behind an exit nothing of the loop is visible but through a proxy; the last
needs that loops are open where they are left.
-/

namespace SeaOfNodes

open Graph

variable {f : Frame}

/-- Phis may come and go in a frame that others are merged into, as long as they stand in it. -/
theorem Frame.Heads.mono [Source] {g g' : Graph} {merge : NodeId} (h : Heads g merge f)
    (hk : KeepsOps g g') (hreg : ∃ c, g.cls? merge = some c) (hfits : f.Fits g)
    (hback : ∀ x vs, IsPhi g'.joint? merge x vs → ∃ vs, IsPhi g.joint? merge x vs)
    (hkeep : ∀ x vs, IsPhi g.joint? merge x vs → g'.isAlive x →
      ∃ vs, IsPhi g'.joint? merge x vs) : Heads g' merge f := by
  refine ⟨fun x vs hx => ?_, fun hl x hx ha => ?_⟩
  · obtain ⟨vs, hx⟩ := hback x vs hx
    exact h.once x vs hx
  · obtain ⟨c, hc⟩ := hreg
    obtain rfl : c = .loopBegin := Option.mem_unique (hk _ c hc) hl
    obtain ⟨n, hn⟩ := hfits.slots.node?_of_mem hx
    obtain ⟨vs, hphi⟩ := h.loop hc x hx (hk.alive x _ (op?_of_node? hn) ha)
    exact hkeep x vs hphi ha

namespace Lift

variable {clean : Bool} {g g' : Graph} {arrivals : List (BlockId × Arrival)} {id : BlockId}
  {a : Arrival} {merge x : NodeId} {J J' : NodeId → Option Joint} {first second : List (Option NodeId)}

/-- A class of nodes that head blocks. -/
def isHead (c : NodeClass) : Bool := c = .start || c = .placeholder || c = .merge || c = .loopBegin

/-- How a block is entered: through a node that heads blocks, with a frame that fits. -/
structure ArrivalOk [Source] (g : Graph) (a : Arrival) : Prop where
  first : ∃ c, g.cls? a.first = some c ∧ isHead c = true
  frame : ∀ f, a.frame = some f → f.Fits g

theorem ArrivalOk.mono [Source] (h : ArrivalOk g a) (hk : KeepsOps g g') : ArrivalOk g' a := by
  obtain ⟨⟨c, hc, hh⟩, hf⟩ := h
  exact ⟨⟨c, hk _ c hc, hh⟩, fun f hfr => (hf f hfr).mono hk⟩

/-- A block is not entered through a node that is new. -/
theorem ArrivalOk.first_ne [Source] (h : ArrivalOk g a) (hx : g.node? x = none) : a.first ≠ x := by
  obtain ⟨⟨c, hc, -⟩, -⟩ := h
  rintro rfl
  simp [cls?, hx] at hc

/-- An exit belongs to a loop, and the state after it holds its proxies only. -/
structure ExitOk (J : NodeId → Option Joint) (x : NodeId) (first second : List (Option NodeId)) :
    Prop where
  loop : ∃ loopBegin ends, first = [some loopBegin] ∧ J loopBegin = some ⟨.loopBegin, ends, []⟩
  state : ∀ state, some state ∈ second → ∃ op values rest,
    J state = some ⟨op, values, rest⟩ ∧ op.cls = .frameState ∧ ∀ v, some v ∈ values → IsProxy J x v

/-- Loops have one end that leads into them, and others that are counted. -/
structure Loops (J : NodeId → Option Joint) : Prop where
  entered : ∀ loopBegin ends, J loopBegin = some ⟨.loopBegin, ends, []⟩ →
    ∃ forwardEnd, ends = [some forwardEnd]
  counted : ∀ loopBegin, ∃ back, LoopEnds J loopBegin back
  back : ∀ loopBegin x index, IsLoopEnd J loopBegin x index →
    ∃ ends, J loopBegin = some ⟨.loopBegin, ends, []⟩

/-- How merges and loops are tied together while blocks are entered. A phi lacks a value, or has one too
many, only while a frame is merged into that of its merge. -/
structure Woven (clean : Bool) (g : Graph) (arrivals : List (BlockId × Arrival)) : Prop where
  loops : Loops g.joint?
  exits : clean = true → ∀ x first second, g.joint? x = some ⟨.loopExit, first, second⟩ →
    ExitOk g.joint? x first second
  phis : ∀ merge x values, IsPhi g.joint? merge x values →
    (∀ id, (id, ⟨merge, none⟩) ∉ arrivals) → Sides g.joint? merge values.length
  firsts : (arrivals.map (·.2.first)).Nodup
  heads : ∀ id first f, (id, ⟨first, some f⟩) ∈ arrivals → Frame.Heads g first f

theorem Loops.anchored (h : Loops J) (ha : Anchored J J') : Loops J' := by
  refine ⟨fun b ends hb => h.entered b ends ((ha b _ rfl).1 hb), fun b => ?_, fun b x index hx => ?_⟩
  · obtain ⟨back, hback⟩ := h.counted b
    exact ⟨back, hback.anchored ha⟩
  · obtain ⟨ends, hb⟩ := h.back b x index ((ha x _ rfl).1 hx)
    exact ⟨ends, (ha b _ rfl).2 hb⟩

theorem ExitOk.mono (h : ExitOk J x first second)
    (hJ : ∀ y j, J y = some j → j.op.cls ≠ .loopExit → j.op.cls ≠ .merge → J' y = some j) :
    ExitOk J' x first second := by
  obtain ⟨⟨b, ends, hfirst, hb⟩, hstate⟩ := h
  refine ⟨⟨b, ends, hfirst, hJ _ _ hb nofun nofun⟩, fun st hst => ?_⟩
  obtain ⟨op, values, rest, hj, hop, hvalues⟩ := hstate st hst
  exact ⟨op, values, rest, hJ _ _ hj (by rw [hop]; decide) (by rw [hop]; decide), hop, fun v hv =>
    (hvalues v hv).imp fun _ h => h.imp fun _ hv => hJ _ _ hv nofun nofun⟩

/-- Loops are as before where a merge comes or changes, and with one loop more. -/
theorem Loops.update (h : Loops J) {j : Joint} (hx : ∀ j, J x = some j → j.op.cls = .merge)
    (hj : j.op.cls ≠ .loopEnd) (hloop : ∀ ends, j = ⟨.loopBegin, ends, []⟩ → ∃ forwardEnd, ends = [some forwardEnd]) :
    Loops (Function.update J x (some j)) := by
  refine ⟨fun b ends hb => ?_, fun b => ?_, fun b y index hy => ?_⟩
  · rcases joint_of_update hb with ⟨-, rfl⟩ | ⟨-, hb⟩
    · exact hloop ends rfl
    · exact h.entered b ends hb
  · obtain ⟨back, hback⟩ := h.counted b
    exact ⟨back, hback.congr fun y index => isLoopEnd_update_iff hj hx⟩
  · obtain ⟨ends, hb⟩ := h.back b y index ((isLoopEnd_update_iff hj hx).1 hy)
    exact ⟨ends, update_of_joint hb fun hb => by cases hx _ hb⟩

/-- A block is entered through a node of its own. -/
theorem Woven.eq_of_first (h : Woven clean g arrivals) {id' : BlockId} {a' : Arrival}
    (hmem : (id, a) ∈ arrivals) (hmem' : (id', a') ∈ arrivals) (heq : a.first = a'.first) : a = a' :=
  congrArg Prod.snd (List.inj_on_of_nodup_map h.firsts hmem hmem' heq)

/-- A block is entered in another way. -/
theorem Woven.arrive (h : Woven clean g arrivals)
    (hfirst : ∀ j b, (j, b) ∈ arrivals → j ≠ id → b.first ≠ a.first)
    (hheads : ∀ f, a.frame = some f → Frame.Heads g a.first f)
    (hphis : ∀ merge x vs, IsPhi g.joint? merge x vs → (id, ⟨merge, none⟩) ∈ arrivals →
      a ≠ ⟨merge, none⟩ → Sides g.joint? merge vs.length) :
    Woven clean g ((id, a) :: arrivals.filter (·.1 ≠ id)) where
  loops := h.loops
  exits := h.exits
  phis merge x vs hx hfree := by
    by_cases hbusy : ∃ j, (j, ⟨merge, none⟩) ∈ arrivals
    · obtain ⟨j, hmem⟩ := hbusy
      obtain rfl : j = id := by
        by_contra hne
        exact hfree j (List.mem_cons_of_mem _ (List.mem_filter.2 ⟨hmem, by simpa using hne⟩))
      refine hphis merge x vs hx hmem ?_
      rintro rfl
      exact hfree j (List.mem_cons_self ..)
    · exact h.phis merge x vs hx fun j hmem => hbusy ⟨j, hmem⟩
  firsts := by
    refine List.nodup_cons.2 ⟨fun hmem => ?_, h.firsts.sublist (List.filter_sublist.map _)⟩
    obtain ⟨⟨j, b⟩, hb, hfst⟩ := List.mem_map.1 hmem
    obtain ⟨hb, hne⟩ := List.mem_filter.1 hb
    exact hfirst j b hb (by simpa using hne) hfst
  heads j first f hmem := by
    rcases List.mem_cons.1 hmem with heq | hmem
    · cases heq
      exact hheads f rfl
    · exact h.heads j first f (List.mem_filter.1 hmem).1

/-- A frame is the one at a merge: it holds the phis, which have a value for each side. -/
structure Awaits (g : Graph) (merge : NodeId) (f : Frame) : Prop where
  heads : Frame.Heads g merge f
  sides : ∀ x vs, IsPhi g.joint? merge x vs → Sides g.joint? merge vs.length

theorem Woven.awaits (h : Woven clean g arrivals) (hmem : (id, ⟨merge, some f⟩) ∈ arrivals) :
    Awaits g merge f := by
  refine ⟨h.heads id merge f hmem, fun x vs hx => h.phis merge x vs hx fun j hj => ?_⟩
  cases h.eq_of_first hmem hj rfl

section

variable [Source] {ends : List (Option NodeId)} {loopBegin : NodeId}

theorem Awaits.graft (h : Awaits g merge f) (hk : KeepsOps g g') (hg : Grafts g g')
    (hreg : ∃ c, g.cls? merge = some c) (hf : f.Fits g) : Awaits g' merge f :=
  ⟨h.heads.mono hk hreg hf (fun _ vs hx => ⟨vs, hg.symm.isPhi hx⟩) fun _ vs hx _ => ⟨vs, hg.isPhi hx⟩,
    fun x vs hx => (h.sides x vs (hg.symm.isPhi hx)).anchored hg.anchored⟩

section

variable (h : Woven clean g arrivals) (hok : ∀ id a, (id, a) ∈ arrivals → ArrivalOk g a)

include h hok

/-- Changes at the side, where exits stay in order. -/
theorem Woven.graft (hk : KeepsOps g g') (hg : Grafts g g')
    (hexits : clean → ∀ x first second, g'.joint? x = some ⟨.loopExit, first, second⟩ →
      ExitOk g'.joint? x first second) : Woven clean g' arrivals where
  loops := h.loops.anchored hg.anchored
  exits := hexits
  phis merge x values hx hbusy := (h.phis merge x values (hg.symm.isPhi hx) hbusy).anchored hg.anchored
  firsts := h.firsts
  heads id first f hmem := by
    obtain ⟨⟨c, hc, -⟩, hf⟩ := hok id _ hmem
    exact (h.heads id first f hmem).mono hk ⟨c, hc⟩ (hf f rfl) (fun x vs hx => ⟨vs, hg.symm.isPhi hx⟩)
      fun x vs hx _ => ⟨vs, hg.isPhi hx⟩

/-- Changes that bring no more than proxies and frame states. -/
theorem Woven.quiet (hk : KeepsOps g g') (hq : Quiet g g') : Woven clean g' arrivals := by
  refine h.graft hok hk hq.grafts fun hc x first second hx => ?_
  rcases hq x with heq | ⟨-, hnew⟩
  · exact (h.exits hc x first second (heq ▸ hx)).mono fun _ _ hy _ _ => hq.joint? hy
  · rcases hnew _ hx with hc | hc <;> cases hc

/-- An exit comes, or gets its state. -/
theorem Woven.exit (hk : KeepsOps g g') (hx : ∀ j, g.joint? x = some j → j.op.cls = .loopExit)
    (hg : g'.joint? = Function.update g.joint? x (some ⟨.loopExit, first, second⟩))
    (hexit : clean → ExitOk g'.joint? x first second) :
    Woven clean g' arrivals ∧ Grafts g g' := by
  have hgrafts : Grafts g g' := by
    intro y
    rw [hg]
    by_cases hy : y = x
    · subst hy
      refine .inr ⟨fun j hj => by simp [Joint.isSide, hx j hj], fun j hj => ?_⟩
      rw [Function.update_self] at hj
      cases hj
      rfl
    · exact .inl (Function.update_of_ne hy ..)
  refine ⟨h.graft hok hk hgrafts fun hc y first' second' hy => ?_, hgrafts⟩
  rw [hg] at hy
  rcases joint_of_update hy with ⟨rfl, hj⟩ | ⟨-, hy⟩
  · cases hj
    exact hexit hc
  · refine (h.exits hc y first' second' hy).mono fun z j hz hne _ => ?_
    rw [hg]
    exact update_of_joint hz fun hz => hne (hx j hz)

/-- Merging frames, where a value more or less at the merge is no harm. -/
theorem Woven.merges (hm : Merges merge g g') (hhead : ∀ id f, (id, ⟨merge, some f⟩) ∉ arrivals)
    (hphis : ∀ x vs, IsPhi g'.joint? merge x vs → (∀ id, (id, ⟨merge, none⟩) ∉ arrivals) →
      Sides g'.joint? merge vs.length) : Woven clean g' arrivals := by
  have hk := hm.grown.2.keepsOps
  have ha := hm.splices.anchored
  -- the phis of other merges are as before
  have hother {m x : NodeId} {vs : List (Option NodeId)} (hx : IsPhi g'.joint? m x vs) (hne : m ≠ merge) :
      IsPhi g.joint? m x vs := by
    obtain ⟨kind, hx⟩ := hx
    refine ⟨kind, ?_⟩
    cases hn : g.node? x with
    | none =>
      rcases hm.splices.new x hn with hnone | ⟨vs', hphi⟩
      · rw [hx] at hnone
        cases hnone
      · exact absurd (hphi.unique ⟨kind, hx⟩).1.symm hne
    | some n =>
      have := hm.splices.old x (by simp [hn])
      rw [hx] at this
      exact this.eq_of_phi hne.symm
  refine ⟨h.loops.anchored ha, fun hc x first second hx => ?_, fun m x vs hx hbusy => ?_, h.firsts,
    fun id first f hmem => ?_⟩
  · obtain ⟨⟨b, ends, hfirst, hb⟩, hstate⟩ :=
      h.exits hc x first second ((hm.splices.joint?_iff rfl).1 hx)
    refine ⟨⟨b, ends, hfirst, (ha b _ rfl).2 hb⟩, fun st hst => ?_⟩
    obtain ⟨op, values, rest, hj, hop, hvalues⟩ := hstate st hst
    have hold := hm.splices.old st (registered_of_joint? hj)
    rw [hj] at hold
    obtain ⟨⟨op', values', rest'⟩, hj', hop', hsub⟩ := hold.of_frameState hop
    exact ⟨op', values', rest', hj', (congrArg Op.cls hop').trans hop, fun v hv => hm.splices.isProxy hk (hvalues v (hsub v hv))
      (hm.grown.1.sound.consistent.isAlive_first hj' hv)⟩
  · by_cases hne : m = merge
    · subst hne
      exact hphis x vs hx hbusy
    · exact (h.phis m x vs (hother hx hne) hbusy).anchored ha
  · have hne : first ≠ merge := by
      rintro rfl
      exact hhead id f hmem
    obtain ⟨⟨c, hc, -⟩, hf⟩ := hok id _ hmem
    exact (h.heads id first f hmem).mono hk ⟨c, hc⟩ (hf f rfl) (fun x vs hx => ⟨vs, hother hx hne⟩)
      fun x vs hx hxa => hm.splices.exists_isPhi hk hx hxa

/-- A merge, a loop or an end of a loop comes or changes. -/
theorem Woven.anchor (hk : KeepsOps g g') {j : Joint} (hj : j.isAnchor)
    (hx : ∀ j, g.joint? x = some j → j.op.cls = .merge)
    (hg : g'.joint? = Function.update g.joint? x (some j)) (hloops : Loops g'.joint?)
    (hsides : ∀ merge count, Sides g.joint? merge count → (∀ id, (id, ⟨merge, none⟩) ∉ arrivals) →
      Sides g'.joint? merge count) : Woven clean g' arrivals := by
  -- a joint that is no anchor stands elsewhere
  have hback {y : NodeId} {j' : Joint} (hy : g'.joint? y = some j') (ha : j'.isAnchor = false) :
      g.joint? y = some j' := by
    rw [hg] at hy
    refine ((joint_of_update hy).resolve_left ?_).2
    rintro ⟨-, rfl⟩
    rw [hj] at ha
    cases ha
  have hkeep {y : NodeId} {j' : Joint} (hy : g.joint? y = some j') (hm : j'.op.cls ≠ .merge) :
      g'.joint? y = some j' := by
    rw [hg]
    exact update_of_joint hy fun hy => hm (hx j' hy)
  have hphi {m y : NodeId} {vs : List (Option NodeId)} (hy : IsPhi g'.joint? m y vs) :
      IsPhi g.joint? m y vs := hy.imp fun _ hy => hback hy rfl
  refine ⟨hloops, fun hc y first second hy => ?_, fun m y vs hy hbusy =>
    hsides m _ (h.phis m y vs (hphi hy) hbusy) hbusy, h.firsts, fun id first f hmem => ?_⟩
  · exact (h.exits hc y first second (hback hy rfl)).mono fun _ _ hz _ hm => hkeep hz hm
  · obtain ⟨⟨c, hc, -⟩, hf⟩ := hok id _ hmem
    exact (h.heads id first f hmem).mono hk ⟨c, hc⟩ (hf f rfl) (fun y vs hy => ⟨vs, hphi hy⟩)
      fun y vs hy _ => ⟨vs, hy.imp fun _ hy => hkeep hy nofun⟩

/-! ### Merges and loops that come or change -/

/-- A merge comes, or gets an end. Phis it has may lack a value then. -/
theorem Woven.mergeEnds (hk : KeepsOps g g') (hx : ∀ j, g.joint? merge = some j → j.op.cls = .merge)
    (hg : g'.joint? = Function.update g.joint? merge (some ⟨.merge, ends, []⟩))
    (hbusy : (g.joint? merge).isSome → ∃ id, (id, ⟨merge, none⟩) ∈ arrivals) :
    Woven clean g' arrivals := by
  have hloops : Loops g'.joint? := by
    rw [hg]
    exact h.loops.update hx nofun (by rintro _ ⟨⟩)
  refine h.anchor hok hk rfl hx hg hloops fun m count hs hfree => ?_
  rw [hg]
  refine hs.update hx nofun ?_
  rintro rfl
  obtain ⟨id, hmem⟩ := hbusy hs.isSome
  exact hfree id hmem

/-- A loop comes, with the end that leads into it. -/
theorem Woven.newLoop (hk : KeepsOps g g') {forwardEnd : NodeId} (hx : g.joint? loopBegin = none)
    (hg : g'.joint? =
      Function.update g.joint? loopBegin (some ⟨.loopBegin, [some forwardEnd], []⟩)) :
    Woven clean g' arrivals := by
  have hnone (j : Joint) (hj : g.joint? loopBegin = some j) : j.op.cls = .merge := by
    rw [hx] at hj
    cases hj
  have hloops : Loops g'.joint? := by
    rw [hg]
    exact h.loops.update hnone nofun (by rintro _ ⟨⟩; exact ⟨_, rfl⟩)
  refine h.anchor hok hk rfl hnone hg hloops fun m count hs _ => ?_
  rw [hg]
  refine hs.update hnone nofun ?_
  rintro rfl
  simpa [hx] using hs.isSome

/-- A loop gets one more end, which is counted. -/
theorem Woven.newLoopEnd (hk : KeepsOps g g') {back : List NodeId} (hx : g.joint? x = none)
    (hb : g.joint? loopBegin = some ⟨.loopBegin, ends, []⟩) (hback : LoopEnds g.joint? loopBegin back)
    (hg : g'.joint? = Function.update g.joint? x
      (some ⟨.loopEnd (Int32.ofNat back.length), [some loopBegin], []⟩))
    (hbusy : (id, ⟨loopBegin, none⟩) ∈ arrivals) :
    Woven clean g' arrivals ∧ LoopEnds g'.joint? loopBegin (back ++ [x]) := by
  have hnone (j : Joint) (hj : g.joint? x = some j) : j.op.cls = .merge := by
    rw [hx] at hj
    cases hj
  have hkeep {y : NodeId} {j : Joint} (hy : g.joint? y = some j) : g'.joint? y = some j := by
    rw [hg]
    exact update_of_joint hy (by simp [hx])
  have hend {b y : NodeId} {index : Int32} (hy : IsLoopEnd g'.joint? b y index) :
      y = x ∧ b = loopBegin ∨ IsLoopEnd g.joint? b y index := by
    rw [hg] at hy
    rcases joint_of_update hy with ⟨rfl, hj⟩ | ⟨-, hy⟩
    · cases hj
      exact .inl ⟨rfl, rfl⟩
    · exact .inr hy
  have hback' : LoopEnds g'.joint? loopBegin (back ++ [x]) := by
    refine ⟨?_, fun y index hy => ?_, fun i y hy => ?_⟩
    · refine List.nodup_append.2 ⟨hback.nodup, by simp, fun y hy z hz => ?_⟩
      rw [List.mem_singleton.1 hz]
      rintro rfl
      obtain ⟨index, hy⟩ := hback.mem_iff.1 hy
      rw [IsLoopEnd, hx] at hy
      cases hy
    · rcases hend hy with ⟨rfl, -⟩ | hy
      · simp
      · exact List.mem_append_left _ (hback.mem y index hy)
    · rw [List.getElem?_append] at hy
      split at hy
      · exact hkeep (hback.place i y hy)
      · have hi : i = back.length := by
          have := (List.getElem?_eq_some_iff.1 hy).1
          simp only [List.length_singleton] at this
          omega
        subst hi
        obtain rfl : x = y := by simpa using hy
        rw [IsLoopEnd, hg, Function.update_self]
  have hcount {b : NodeId} (hne : b ≠ loopBegin) {l : List NodeId} (hl : LoopEnds g.joint? b l) :
      LoopEnds g'.joint? b l :=
    hl.congr fun y index => ⟨fun hy => (hend hy).resolve_left fun hy => hne hy.2, hkeep⟩
  have hloops : Loops g'.joint? := by
    refine ⟨fun b ends hb => ?_, fun b => ?_, fun b y index hy => ?_⟩
    · rw [hg] at hb
      rcases joint_of_update hb with ⟨-, hj⟩ | ⟨-, hb⟩
      · cases hj
      · exact h.loops.entered b ends hb
    · by_cases hne : b = loopBegin
      · subst hne
        exact ⟨_, hback'⟩
      · obtain ⟨l, hl⟩ := h.loops.counted b
        exact ⟨l, hcount hne hl⟩
    · rcases hend hy with ⟨-, rfl⟩ | hy
      · exact ⟨ends, hkeep hb⟩
      · obtain ⟨ends, hb⟩ := h.loops.back b y index hy
        exact ⟨ends, hkeep hb⟩
  refine ⟨h.anchor hok hk rfl hnone hg hloops fun m count hs hfree => ?_, hback'⟩
  have hne : m ≠ loopBegin := by
    rintro rfl
    exact hfree id hbusy
  cases hs with
  | merge ends hm => exact .merge ends (hkeep hm)
  | loop ends l hm hl => exact .loop ends l (hkeep hm) (hcount hne hl)

end

end

end Lift

end SeaOfNodes
