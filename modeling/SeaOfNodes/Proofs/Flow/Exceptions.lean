import SeaOfNodes.Proofs.Flow.Subroutine

/-!
# Blocks whose exceptions are caught

A block that leads to a dispatch block ends with an instruction that may raise an exception which some
handler catches. The block stops with that instruction, and no instruction before it closes a block.
-/

namespace SeaOfNodes

open Bytecode

namespace Flow.Discovery

variable {m : Method} {options : Options} {d : Discovery} {id t : BlockId} {c : Cursor}

/-- Only an exception that is caught leads to a dispatch block. -/
theorem LastOf.catchers_ne_nil (h : LastOf m options d id c) (ht : t ∈ (d.blocks.block id).successors)
    (hdispatch : (d.blocks.block t).isDispatch) : m.catchers options c ≠ [] := by
  intro hnil
  obtain ⟨ids, chain, hids, hchain, heq⟩ := h.ends.follows
  rw [hnil] at hchain
  cases hchain
  rw [heq, Option.toList_none, List.append_nil] at ht
  -- the other ways lead to instructions
  obtain ⟨i, hi, rfl⟩ := List.mem_iff_getElem.1 ht
  have hstarts := (List.forall₂_iff_get.1 hids).2 i (hids.length_eq ▸ hi) hi
  simp [Block.isDispatch, show (d.blocks.block ids[i]).kind = .bytecodes from hstarts.kind] at hdispatch

/-- Unless an exception is thrown, control may go on to an instruction. -/
theorem LastOf.kind_head (h : LastOf m options d id c) {form : Form} (hform : c.form? = some form)
    (hraise : form.mayRaise) (hthrow : form ≠ .throw)
    (ht : (d.blocks.block id).successors[0]? = some t) : (d.blocks.block t).kind = .bytecodes := by
  obtain ⟨ids, chain, hids, -, heq⟩ := h.ends.follows
  have hways : c.ways = [c.next] := by
    unfold Cursor.ways
    rw [hform]
    cases form <;> first | rfl | exact absurd rfl hthrow | cases hraise
  rw [hways] at hids
  cases hids with
  | cons hstarts hnil =>
    cases hnil
    rw [heq] at ht
    obtain rfl := Option.some.inj ht
    exact hstarts.kind

end Flow.Discovery

namespace BlockMap

open Flow

variable {m : Method} {options : Options} {map : BlockMap} {b t : BlockId} {c : Cursor}

/-- The last instruction of a block raises exceptions that are caught. -/
structure Raises (map : BlockMap) (m : Method) (options : Options) (b : BlockId) (c : Cursor) : Prop where
  last : map.IsLast m b c
  caught : m.catchers options c ≠ []
  stop : (map.block b).stop = c.bci
  start : ∃ k, IsStart m.code k ∧ (map.block b).start = k
  inner : ∀ a ∈ instructions m.code, map.Spans b a.bci → a.bci ≠ c.bci → ¬m.ClosesBlock options a
  next : c.form? ≠ some .throw → ∀ t, (map.block b).successors[0]? = some t →
    (map.block t).kind = .bytecodes

/-- Only the exceptions of instructions that may raise one are caught. -/
theorem mayRaise_of_catchers (hcaught : m.catchers options c ≠ []) :
    ∃ form, c.form? = some form ∧ form.mayRaise := by
  unfold Method.catchers at hcaught
  cases hform : c.form? with
  | none => simp [hform] at hcaught
  | some form => exact ⟨form, rfl, by by_contra hraise; simp [hform, hraise] at hcaught⟩

/-- A block that leads to a dispatch block ends with an instruction whose exceptions are caught. -/
theorem exists_raises_of_create (hmap : create m options = .ok map) (hb : b.index < map.blocks.size)
    (hkind : (map.block b).kind = .bytecodes) (hdispatch : map.dispatch? b = some t) :
    ∃ c, map.Raises m options b c := by
  obtain ⟨d, first, blocks, s, completed, hstaged⟩ := (ends_create_stages m options).of_ok hmap
  have hread := (Discovery.ends_discover_read m options).of_ok hstaged.discover
  obtain ⟨n, current, hready, -⟩ := hread.ready
  have hsize : b.index < blocks.size := hstaged.alike.size ▸ hb
  obtain ⟨o, ho, hlike⟩ := hstaged.exists_like hsize
  obtain ⟨hsame, hstart, hstop⟩ := hstaged.range hlike.look
  have hkinds (x : BlockId) : (map.block x).kind = (blocks.block x).kind := by
    have hx := hstaged.alike.block x
    simp only [Block.skeleton, Block.mk.injEq] at hx
    tauto
  obtain ⟨hlast, hisDispatch⟩ := Option.filter_eq_some_iff.1 hdispatch
  have hmem := List.mem_of_getLast? hlast
  rw [hstaged.successors b] at hmem
  -- a return from a subroutine leads to instructions
  have hplain : (blocks.block b).endsSubroutine = false := by
    by_contra hends
    have hcode := hlike.returns (by simpa using hends) t hmem
    simp [Block.isDispatch, hkinds, hcode] at hisDispatch
  -- the block that this is a copy of leads to a dispatch block, too
  obtain ⟨u, hu, hlook⟩ : ∃ u ∈ (d.blocks.block o).successors,
      (d.blocks.block u).look = (blocks.block t).look := by
    have ht := List.mem_map_of_mem (f := fun t => (blocks.block t).look) hmem
    rw [hlike.leads hplain] at ht
    exact List.mem_map.1 ht
  have hudispatch : (d.blocks.block u).isDispatch := by
    rw [Block.isDispatch, Block.kind_eq_of_look hlook, ← hkinds]
    exact hisDispatch
  rcases hread.ends_or_marks o with ⟨c, hc⟩ | ⟨-, hnone⟩
  swap
  · rw [hnone (hsame ▸ hkind)] at hu
    cases hu
  have hcaught := hc.catchers_ne_nil hu hudispatch
  refine ⟨c, hstaged.isLast hsize hlike.look hc, hcaught, hstop.trans (hc.tip (.inr hcaught)), ?_,
    fun a ha hspans hne hclose => hne ?_, fun hthrow x hx => ?_⟩
  · obtain ⟨k, hk, hstarts⟩ := (hready.mapped.lies hc.code).start
    refine ⟨k, hk.2.resolve_right fun hall => ?_, hstart.trans hstarts.start⟩
    have hfrom := hc.start
    have hnext := hall c hc.mem
    have := lt_next hc.mem
    have := hstarts.start
    omega
  · have hlies := hready.mapped.lies hc.code
    have hends := hlies.tip a ha (hlies.range a ha (hstart ▸ hspans.start) (hstop ▸ hspans.stop)) hclose
    have := hc.tip (.inr hcaught)
    omega
  · obtain ⟨form, hform, hraise⟩ := mayRaise_of_catchers hcaught
    have hhead := congrArg (·[0]?) (hlike.leads hplain)
    rw [hstaged.successors b] at hx
    simp only [List.getElem?_map, hx, Option.map_some] at hhead
    obtain ⟨y, hy, hxy⟩ := Option.map_eq_some_iff.1 hhead.symm
    rw [hkinds, ← Block.kind_eq_of_look hxy]
    exact hc.kind_head hform hraise (fun he => hthrow (he ▸ hform)) hy

end BlockMap

end SeaOfNodes
