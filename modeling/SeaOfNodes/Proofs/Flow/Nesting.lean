import SeaOfNodes.Proofs.Flow.Postorder

/-!
# Nested loops

Two loops around one block lie one within the other. Both headers dominate the block, so a path from the
start to the block goes through both, and the header that is left first is outside of the other loop. The
header of the inner loop is in all the loops that the header of the outer one is in, and in its own besides.
-/

namespace SeaOfNodes

namespace Flow

variable {base : Blocks} {first a b c : BlockId} {path : List BlockId}

/-- The part of a path from the last visit of a block on. -/
theorem PathTo.fromLast (hpath : PathTo base a b path) (hc : c ∈ path) :
    ∃ rest, PathTo base c b (c :: rest) ∧ c ∉ rest ∧ rest <:+ path.tail := by
  induction path generalizing a with
  | nil => cases hc
  | cons x path ih =>
    by_cases hin : c ∈ path
    · cases path with
      | nil => cases hin
      | cons t path =>
        have htail : PathTo base t b (t :: path) :=
          ⟨(List.isChain_cons_cons.1 hpath.steps).2, rfl, by simpa using hpath.last⟩
        obtain ⟨rest, hrest, hnot, hsuffix⟩ := ih htail hin
        exact ⟨rest, hrest, hnot, hsuffix.trans (List.suffix_cons ..)⟩
    · obtain rfl := (List.mem_cons.1 hc).resolve_right hin
      exact ⟨path, ⟨hpath.steps, rfl, hpath.last⟩, hin, List.suffix_refl _⟩

/-- Blocks that dominate each other are the same: otherwise a path to one of them goes through the other,
and before that through itself, and so there is a shorter one. -/
theorem Dominates.antisymm (h : Dominates base first a b) (h' : Dominates base first b a)
    (hpath : PathTo base first b path) : a = b := by
  induction hn : path.length using Nat.strong_induction_on generalizing path with
  | _ n ih =>
    by_contra hne
    obtain ⟨above, below, rfl⟩ := List.append_of_mem (h path hpath)
    have ha := PathTo.upTo hpath.steps hpath.head
    have hb : b ∈ above := by
      simpa [Ne.symm hne] using h' _ ha
    obtain ⟨before, after, rfl⟩ := List.append_of_mem hb
    rw [List.append_assoc, List.cons_append] at ha hn
    have hshort := PathTo.upTo ha.steps ha.head
    exact hne (ih _ (by simp at hn ⊢; omega) hshort rfl)

end Flow

namespace BlockMap

open Flow

variable {m : Method} {options : Options} {map : BlockMap} {d : Discovery} {first b h h' : BlockId}
  {blocks completed : Blocks} {s : Flow.Ordering} {i j : Nat}

/-- The loops that a block is in. -/
abbrev loopsAt (map : BlockMap) (b : BlockId) : List Nat := LoopMask.toList (map.block b).loops

/-- The loop `inner` lies within the loop `outer`, which has more blocks; its header is in more loops. -/
structure Nested (map : BlockMap) (inner outer : Nat) : Prop where
  subset : ∀ b ∈ map.order, inner ∈ map.loopsAt b → outer ∈ map.loopsAt b
  strict : ∃ b ∈ map.order, outer ∈ map.loopsAt b ∧ inner ∉ map.loopsAt b
  deeper : ∃ h h', map.header? inner = some h ∧ map.header? outer = some h' ∧
    (map.loopsAt h').length < (map.loopsAt h).length

/-- The header of a loop, which is in its loop. -/
structure Heads (map : BlockMap) (i : Nat) (h : BlockId) : Prop where
  header : map.header? i = some h
  loop : (map.block h).loop = i
  mem : h ∈ map.order
  self : i ∈ map.loopsAt h

namespace Staged

variable (hs : Staged m options d first blocks s completed map)
include hs

theorem start?_eq : map.start? = some first := by
  rw [start?, hs.result]
  exact (hs.walking hs.order).2

/-- A loop around a block has a header. -/
theorem exists_heads (hb : b ∈ map.order) (hi : i ∈ map.loopsAt b) : ∃ h, map.Heads i h := by
  have horder : map.order = s.order := by rw [hs.result]
  obtain ⟨h, hh, -⟩ := (hs.ends_masks hs.order).of_ok hs.masks b (horder ▸ hb) i (hs.loops b ▸ hi)
  obtain ⟨hheader, hloop⟩ := ((hs.walking hs.order).1.headers i h).1 hh
  rw [← (hs.outline h).1] at hheader
  rw [← (hs.outline h).2] at hloop
  obtain ⟨hmem, hself, u, hu, -, hui⟩ := hs.exists_retreats hheader
  rw [hloop] at hself hui
  -- a path to the end of the loop comes by the header
  obtain ⟨path, hpath⟩ := hs.mem_order_iff.1 hu
  obtain ⟨rest, hrest, hnot, -⟩ := hpath.fromLast (hs.wellOrdered.dominates hself hui hs.start?_eq path hpath)
  exact ⟨h, hself, hloop, hmem, hs.wellOrdered.mem_loops_of_path hself hrest hmem hnot hui⟩

variable (hh : map.Heads i h) (hh' : map.Heads j h')
include hh hh'

/-- Of two loops around a block, one is around the header of the other. -/
theorem mem_or_mem (hb : b ∈ map.order) (hi : i ∈ map.loopsAt b) (hj : j ∈ map.loopsAt b) :
    i ∈ map.loopsAt h' ∨ j ∈ map.loopsAt h := by
  have hmap := hs.wellOrdered
  obtain ⟨path, hpath⟩ := hs.mem_order_iff.1 hb
  obtain ⟨rest, hrest, hnot, -⟩ := hpath.fromLast (hmap.dominates hh.header hi hs.start?_eq path hpath)
  by_cases hin : h' ∈ rest
  · obtain ⟨rest', hrest', -, hsuffix⟩ := hrest.fromLast (List.mem_cons_of_mem _ hin)
    exact .inl (hmap.mem_loops_of_path hh.header hrest' hh'.mem (fun hmem => hnot (hsuffix.subset hmem)) hi)
  · exact .inr (hmap.mem_loops_of_path hh'.header hrest hh.mem hin hj)

/-- Loops are not around each other's headers: these would dominate each other. -/
theorem not_mem_of_mem (hne : i ≠ j) (hi : i ∈ map.loopsAt h') : j ∉ map.loopsAt h := by
  intro hj
  obtain ⟨path, hpath⟩ := hs.mem_order_iff.1 hh'.mem
  have hheader := (hs.wellOrdered.dominates hh.header hi hs.start?_eq).antisymm
    (hs.wellOrdered.dominates hh'.header hj hs.start?_eq) hpath
  exact hne (hh.loop.symm.trans ((congrArg (fun h => (map.block h).loop) hheader).trans hh'.loop))

/-- A loop around the header of another one is around all its blocks. -/
theorem mem_of_mem_header (hne : i ≠ j) (hi : i ∈ map.loopsAt h') (hb : b ∈ map.order)
    (hj : j ∈ map.loopsAt b) : i ∈ map.loopsAt b := by
  have hmap := hs.wellOrdered
  -- from the block on to the end of the loop and back to its header
  obtain ⟨u, path, hpath, htail, hr⟩ := ((hs.classified hmap).member j h' hh'.header b hb).1 hj
  refine hmap.mem_loops_of_path hh.header (exists_path_snoc hpath hr.edge) hb (fun hin => ?_) hi
  refine hs.not_mem_of_mem hh hh' hne hi ?_
  have hin : h ∈ path.tail := by
    cases path with
    | nil => cases hpath.head
    | cons x path =>
      refine (List.mem_append.1 hin).resolve_right fun heq => hne ?_
      rw [← hh.loop, List.mem_singleton.1 heq, hh'.loop]
  obtain ⟨rest, hrest, -, hsuffix⟩ := hpath.fromLast (List.mem_of_mem_tail hin)
  obtain ⟨-, -, hloop⟩ := hmap.header_of_retreats (hmap.mem_order_of_path hpath hb) hr
  exact hmap.mem_loops_of_path hh'.header hrest hh.mem (fun hmem => htail (hsuffix.subset hmem))
    (hh'.loop ▸ hloop)

theorem nested_of_mem (hne : i ≠ j) (hi : i ∈ map.loopsAt h') : map.Nested j i where
  subset b hb hj := hs.mem_of_mem_header hh hh' hne hi hb hj
  strict := ⟨h, hh.mem, hh.self, hs.not_mem_of_mem hh hh' hne hi⟩
  deeper := by
    refine ⟨h', h, hh'.header, hh.header, ?_⟩
    -- what is around the header of the outer loop is around all of it
    have hsubset : j :: map.loopsAt h ⊆ map.loopsAt h' := by
      refine List.cons_subset.2 ⟨hh'.self, fun k hk => ?_⟩
      by_cases hki : k = i
      · exact hki ▸ hi
      · obtain ⟨c, hc⟩ := hs.exists_heads hh.mem hk
        exact hs.mem_of_mem_header hc hh hki hk hh'.mem hi
    have hnodup : (j :: map.loopsAt h).Nodup :=
      List.nodup_cons.2 ⟨hs.not_mem_of_mem hh hh' hne hi, List.nodup_range.filter _⟩
    exact (List.subperm_of_subset hnodup hsubset).length_le

omit hh hh' in
/-- Two loops around one block are nested. -/
theorem nested_or_nested (hb : b ∈ map.order) (hi : i ∈ map.loopsAt b) (hj : j ∈ map.loopsAt b)
    (hne : i ≠ j) : map.Nested i j ∨ map.Nested j i := by
  obtain ⟨h, hh⟩ := hs.exists_heads hb hi
  obtain ⟨h', hh'⟩ := hs.exists_heads hb hj
  exact (hs.mem_or_mem hh hh' hb hi hj).symm.imp (hs.nested_of_mem hh' hh hne.symm)
    (hs.nested_of_mem hh hh' hne)

end Staged

end BlockMap

end SeaOfNodes
