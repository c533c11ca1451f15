import SeaOfNodes.Proofs.Flow.Loops
import SeaOfNodes.Proofs.Flow.Source

/-!
# The control flow of a method

The map of a method has its blocks in a proper order: control goes onwards or back to the header of a loop
around the block, and a loop is entered through its header only.
-/

namespace SeaOfNodes

open Bytecode Flow

/-- One of `n` blocks whose order is not known yet. -/
structure Block.Linked (n : Nat) (b : Block) : Prop where
  successors : ∀ t ∈ b.successors, t.index < n
  callee : ∀ t, b.callee = some t → t ∈ b.successors
  continuation : ∀ t, b.continuation = some t → t ∈ b.successors
  plain : b.isLoopHeader = false
  kind : b.kind = .bytecodes ∨ b.isDispatch = true

/-- All blocks are linked. -/
def Blocks.Linked (blocks : Blocks) : Prop := ∀ id, (blocks.block id).Linked blocks.size

namespace BlockMap

variable {m : Method} {options : Options} {map : BlockMap} {d : Discovery} {first : BlockId}
  {blocks completed : Blocks} {s : Flow.Ordering}

/-! ### What the stages show -/

theorem Found.linked (h : Found m options d first blocks) :
    blocks.Linked ∧ first.index < blocks.size := by
  obtain ⟨s, rfl, hs⟩ := (ends_inlined h.founded first).of_ok h.inlined
  have hfirst := (h.founded.place 0 first (Option.join_eq_some_iff.1 h.start)).1
  refine ⟨fun x => ?_, Nat.lt_of_lt_of_le hfirst hs.size⟩
  by_cases hx : x.index < s.blocks.size
  · obtain ⟨o, -, hlike⟩ := hs.like x hx
    have hfresh := h.founded.fresh o
    refine ⟨hs.range x, hlike.callee, hlike.continuation,
      (Block.isLoopHeader_eq_of_look hlike.look).trans hfresh.plain, ?_⟩
    rw [Block.isDispatch, Block.kind_eq_of_look hlike.look]
    exact hfresh.kind.imp_right fun ⟨i, bci, hkind⟩ => by rw [hkind]
  · rw [Blocks.block_of_le (Nat.le_of_not_lt hx)]
    exact ⟨nofun, nofun, nofun, rfl, .inl rfl⟩

theorem Found.closed (h : Found m options d first blocks) :
    Closed blocks fun c => c.index < blocks.size :=
  ⟨fun _ hc => hc, fun c _ t ht => (h.linked.1 c).successors t ht⟩

theorem Found.walking (h : Found m options d first blocks)
    (hs : Flow.order blocks first (min options.loopLimit maxLoops) = .ok s) :
    Ordering.Walking blocks (fun c => c.index < blocks.size) first [] s ∧ s.order.head? = some first :=
  have hwalk := (ends_order h.closed h.linked.2 (min_le_right ..) fun c => (h.linked.1 c).plain).of_ok hs
  ⟨hwalk.1, hwalk.2.1⟩

theorem Staged.complete (h : Staged m options d first blocks s completed map) :
    Completed first s.blocks completed := by
  obtain ⟨hwalk, -⟩ := h.walking h.order
  have hrange (c t : BlockId) (ht : t ∈ (s.blocks.block c).successors) : t.index < s.blocks.size := by
    rw [hwalk.flow.successors] at ht
    exact hwalk.flow.size ▸ (h.linked.1 c).successors t ht
  exact (ends_completeMasks hrange (hwalk.flow.size ▸ h.linked.2) (by unfold maskRounds; omega)).of_ok h.masks

/-- Numbering changes numbers only. -/
theorem alike_numbered {e : Block → Block} (he : ∀ (b : Block) number, e { b with number } = e b)
    (blocks : Blocks) (order : List BlockId) : Alike e blocks (numbered blocks order) := by
  unfold numbered
  exact List.foldlRecOn (motive := Alike e blocks) _ _ (.refl ..) fun _ h row _ =>
    h.modify row.1 fun b => he b _

section

variable (h : Staged m options d first blocks s completed map)

include h

/-- The blocks of a map are those that were found, but for their numbers and loops. -/
theorem Staged.alike :
    Alike Block.skeleton blocks map.blocks := by
  have hnumbered : Alike Block.skeleton completed (numbered completed s.order) :=
    alike_numbered (fun _ _ => rfl) ..
  rw [h.result]
  exact ((h.walking h.order).1.flow.trans h.complete.alike.skeleton).trans hnumbered

theorem Staged.successors (c : BlockId) :
    (map.block c).successors = (blocks.block c).successors := h.alike.successors c

theorem Staged.loops (c : BlockId) :
    (map.block c).loops = (completed.block c).loops := by
  have hnumbered := congrArg Block.loops ((alike_numbered (e := fun b => { b with number := none })
    (fun _ _ => rfl) completed s.order).block c)
  rw [block, h.result]
  exact hnumbered

/-- Ordering the blocks does not change what they say of subroutines. -/
theorem Staged.same (b : BlockId) :
    (map.block b).scope = (blocks.block b).scope ∧ (map.block b).callee = (blocks.block b).callee ∧
      (map.block b).continuation = (blocks.block b).continuation := by
  have hb := h.alike.block b
  simp only [Block.skeleton, Block.mk.injEq] at hb
  tauto

/-- A block of a map and the block that it looks like are of the same range. -/
theorem Staged.range {b o : BlockId} (hlook : (blocks.block b).look = (d.blocks.block o).look) :
    (map.block b).kind = (d.blocks.block o).kind ∧ (map.block b).start = (d.blocks.block o).start ∧
      (map.block b).stop = (d.blocks.block o).stop := by
  have hb := h.alike.block b
  simp only [Block.skeleton, Block.mk.injEq] at hb
  rw [← Block.kind_eq_of_look hlook, ← Block.start_eq_of_look hlook, ← Block.stop_eq_of_look hlook]
  tauto

/-- The blocks of a map are those that were ordered, but for their numbers and masks. -/
theorem Staged.outline (c : BlockId) :
    (map.block c).isLoopHeader = (s.blocks.block c).isLoopHeader ∧
      (map.block c).loop = (s.blocks.block c).loop := by
  have hnumbered : Alike Block.outline completed (numbered completed s.order) :=
    alike_numbered (fun _ _ => rfl) ..
  have hc := (h.complete.alike.trans hnumbered).block c
  simp only [Block.outline, Block.mk.injEq] at hc
  rw [block, h.result]
  tauto

theorem Staged.outerLoops (c : BlockId) :
    outerLoops (map.block c) = Flow.outerLoops (completed.block c) := by
  refine outerLoops_congr ?_ (h.loops c)
  rw [block, h.result]
  exact (alike_numbered (e := Block.outline) (fun _ _ => rfl) ..).block c

/-- Ordering goes to no blocks but those that are reached. -/
theorem Staged.within {P : BlockId → Prop}
    (hP : Closed blocks P) (hfirst : P first) : ∀ c ∈ s.order, P c := by
  have hwalk := ((ends_order hP hfirst (min_le_right ..) fun c => (h.linked.1 c).plain).of_ok h.order).1
  exact fun c hc => hwalk.within c (by simpa using hc)

theorem Staged.wellOrdered : map.WellOrdered := by
  obtain ⟨hwalk, hhead⟩ := h.walking h.order
  have hmasks := h.complete
  have hmap : map.order = s.order := by rw [h.result]
  have hheaders (l : Nat) : map.header? l = s.headers[l]? := by rw [header?, h.result]
  obtain ⟨P, hP, hPfirst, hcomplete⟩ := hmasks.complete
  have hbaseP : Closed blocks P := by
    refine ⟨fun c hc => hwalk.flow.size ▸ hP.range c hc, fun c hc t ht => hP.step c hc t ?_⟩
    rwa [hwalk.flow.successors]
  refine ⟨?_, ?_, ?_, ?_, ?_, ?_, ?_, ?_, ?_, ?_⟩
  · rw [hmap]
    simpa using hwalk.nodup
  · intro c hc
    rw [h.alike.size]
    exact h.within h.closed h.linked.2 c (hmap ▸ hc)
  · intro done c rest hsplit t ht
    rw [h.successors] at ht
    rw [hmap] at hsplit ⊢
    rw [(h.outline t).1, (h.outline t).2, h.loops]
    refine (hwalk.edge done c rest hsplit t ht).imp_right fun ⟨hmemt, hheadert, hloopt⟩ => ?_
    exact ⟨by simpa using hmemt, hheadert, hmasks.grows c _ hloopt⟩
  · intro c hc t ht l hl
    rw [h.successors, ← hwalk.flow.successors] at ht
    rw [h.outerLoops] at hl
    rw [h.loops]
    exact hcomplete c (h.within hbaseP hPfirst c (hmap ▸ hc)) t ht l hl
  · intro c hc
    rw [hmap, hhead] at hc
    obtain rfl := Option.some.inj hc
    rw [h.outerLoops]
    exact hmasks.start
  · intro l c hl
    rw [hheaders] at hl
    have hc := ((hwalk.headers l c).1 hl).1
    rw [← (h.outline c).1] at hc
    refine ⟨?_, hc⟩
    by_contra hrange
    rw [block, Blocks.block_of_le (Nat.le_of_not_lt hrange)] at hc
    cases hc
  · intro c hc hh
    rw [(h.outline c).1] at hh
    rw [(h.outline c).2, hheaders]
    have hl := (hwalk.headers _ c).2 ⟨hh, rfl⟩
    exact ⟨Nat.lt_of_lt_of_le (Array.getElem?_eq_some_iff.1 hl).1 hwalk.few, hl⟩
  · intro c hc t ht
    rw [(h.same c).2.1] at ht
    rw [h.successors]
    exact (h.linked.1 c).callee t ht
  · intro c hc t ht
    rw [(h.same c).2.2] at ht
    rw [h.successors]
    exact (h.linked.1 c).continuation t ht
  · intro c hc
    have hkind : (map.block c).kind = (blocks.block c).kind := congrArg (·.kind) (h.alike.block c)
    rw [Block.isDispatch, hkind]
    exact (h.linked.1 c).kind

end

/-- The control flow of any method is well ordered. -/
theorem wellOrdered_of_create (h : create m options = .ok map) : map.WellOrdered := by
  obtain ⟨d, first, blocks, s, completed, hstaged⟩ := (ends_create_stages m options).of_ok h
  exact hstaged.wellOrdered

/-- In code that decodes, reading from the start of a block reaches an instruction that ends after the
block. -/
theorem exists_next_of_create {c : BlockId} (h : create m options = .ok map) (hcode : Decodes m.code)
    (hc : c ∈ map.order) (hkind : (map.block c).kind = .bytecodes) :
    ∃ cursor ∈ Cursor.walkFrom m.code (map.block c).start.toNat, (map.block c).stop < cursor.next := by
  obtain ⟨d, first, blocks, s, completed, hstaged⟩ := (ends_create_stages m options).of_ok h
  have hread := (Discovery.ends_discover_read m options).of_ok hstaged.discover
  obtain ⟨n, current, hready, -⟩ := hread.ready
  obtain ⟨o, ho, hlike⟩ := hstaged.exists_like (hstaged.alike.size ▸ hstaged.wellOrdered.range c hc)
  -- the block is a copy of one in the code
  have hsame := hstaged.range hlike.look
  have ho : Discovery.IsCode d o := ⟨ho, hsame.1 ▸ hkind⟩
  have hlies := hready.mapped.lies ho
  obtain ⟨k, hk, hstarts⟩ := hlies.start
  obtain ⟨cursor, hcursor, hnext⟩ := hcode.walkFrom_next (hcode.isStart_of_site hk)
  have hstart := hstarts.start
  refine ⟨cursor, by rwa [hsame.2.1, hstart, Int.toNat_natCast], ?_⟩
  rw [hsame.2.2]
  have hbound := hready.bound
  have hlt := hk.1
  by_cases hn : (d.blocks.block o).start < n
  · have := hlies.behind hn
    omega
  · have := (hlies.ahead (by omega)).1
    omega

end BlockMap

end SeaOfNodes
