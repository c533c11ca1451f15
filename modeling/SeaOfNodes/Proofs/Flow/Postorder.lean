import SeaOfNodes.Proofs.Flow.Reducible

/-!
# The order of blocks

The blocks of a map are those that the first instruction leads to, each once and numbered by its place.
Control goes onwards in this order, or back to the header of a loop around the block; a header is one
because control goes back to it.
-/

namespace SeaOfNodes.BlockMap

open Flow

variable {m : Method} {options : Options} {map : BlockMap} {d : Discovery} {first c t : BlockId}
  {blocks completed : Blocks} {s : Flow.Ordering}

/-! ### Numbers -/

/-- Blocks are numbered from `k` on, in order; the others keep their numbers. -/
theorem number_foldl : ∀ {order : List BlockId} {k : Nat} {blocks : Blocks}, order.Nodup →
    (∀ c ∈ order, c.index < blocks.size) → (Blocks.block ((order.zipIdx k).foldl (fun blocks (id, number) =>
      blocks.modify id fun b => { b with number := some number }) blocks) c).number =
      if c ∈ order then some (k + order.idxOf c) else (blocks.block c).number := by
  intro order
  induction order with
  | nil => exact fun _ _ => rfl
  | cons a rest ih =>
    intro k blocks hnodup hrange
    obtain ⟨ha, hrest⟩ := List.nodup_cons.1 hnodup
    rw [List.zipIdx_cons, List.foldl_cons, ih hrest fun c hc => by
      rw [Blocks.size_modify]
      exact hrange c (List.mem_cons_of_mem _ hc)]
    rw [Blocks.block_modify]
    by_cases hca : c = a
    · subst hca
      rw [if_neg ha, if_pos ⟨rfl, hrange c (List.mem_cons_self ..)⟩, if_pos (List.mem_cons_self ..),
        List.idxOf_cons_self, Nat.add_zero]
    · rw [List.idxOf_cons_ne _ (Ne.symm hca)]
      simp only [List.mem_cons, hca, false_or, false_and, if_false]
      split
      · exact congrArg some (by omega)
      · rfl

/-! ### What is reached -/

/-- A path goes on to a successor of its last block. -/
theorem exists_path_snoc {path : List BlockId} (hpath : PathTo blocks first c path)
    (ht : t ∈ (blocks.block c).successors) : PathTo blocks first t (path ++ [t]) := by
  refine ⟨hpath.steps.append (.singleton t) fun b hb u hu => ?_, ?_, by simp⟩
  · cases hu
    rw [hpath.last] at hb
    cases hb
    exact ht
  · rw [List.head?_append, hpath.head]
    rfl

/-- The order has the blocks to which there is a path from the start. -/
theorem Staged.mem_order_iff (h : Staged m options d first blocks s completed map) :
    c ∈ map.order ↔ ∃ path, PathTo map.blocks first c path := by
  obtain ⟨-, hhead⟩ := h.walking h.order
  have horder : map.order = s.order := by rw [h.result]
  constructor
  · intro hc
    have hclosed : Closed blocks fun c => c.index < blocks.size ∧ ∃ path, PathTo blocks first c path :=
      ⟨fun _ hc => hc.1, fun c ⟨_, path, hpath⟩ t ht =>
        ⟨(h.linked.1 c).successors t ht, _, exists_path_snoc hpath ht⟩⟩
    obtain ⟨-, path, hpath⟩ := h.within hclosed ⟨h.linked.2, _, .single first⟩ c (horder ▸ hc)
    exact ⟨path, hpath.congr h.successors⟩
  · rintro ⟨path, hpath⟩
    exact h.wellOrdered.mem_order_of_path hpath (horder ▸ List.mem_of_head? hhead)

/-- Control goes back to a header from a block of its loop. -/
theorem Staged.exists_retreats (h : Staged m options d first blocks s completed map)
    (hc : (map.block c).isLoopHeader) : c ∈ map.order ∧ map.header? (map.block c).loop = some c ∧
      ∃ b ∈ map.order, map.Retreats b c ∧ (map.block c).loop ∈ LoopMask.toList (map.block b).loops := by
  have horder : map.order = s.order := by rw [h.result]
  obtain ⟨hheader, hloop⟩ := h.outline c
  rw [hheader] at hc
  obtain ⟨hwalk, -, hmarked, -⟩ := (ends_order h.closed h.linked.2 (min_le_right ..)
    fun c => (h.linked.1 c).plain).of_ok h.order
  have hmem : c ∈ map.order := by simpa [horder] using hwalk.seen c hc
  have hself := (h.wellOrdered.self c hmem (hheader.trans hc)).2
  -- some block has the loop in its mask, and leads back to the header
  obtain ⟨b, hb, hbloop⟩ := hmarked c hc
  have hbloop' : (map.block c).loop ∈ LoopMask.toList (map.block b).loops := by
    rw [h.loops, hloop]
    exact h.complete.grows b _ hbloop
  obtain ⟨u, path, hpath, -, hr⟩ := ((h.classified h.wellOrdered).member _ c hself b (horder ▸ hb)).1 hbloop'
  have hu := h.wellOrdered.mem_order_of_path hpath (horder ▸ hb)
  exact ⟨hmem, hself, u, hu, hr, (h.wellOrdered.header_of_retreats hu hr).2.2⟩

/-! ### The order -/

/-- The blocks of a map are in reverse postorder, with at most `limit` loops. -/
structure ReversePostorder (map : BlockMap) (limit : Nat) : Prop where
  start : ∃ first, map.at? 0 = some first ∧ map.order.head? = some first
  nodup : map.order.Nodup
  reached : ∀ c, c ∈ map.order ↔ ∃ first ∈ map.at? 0, ∃ path, PathTo map.blocks first c path
  number : ∀ c ∈ map.order, (map.block c).number = some (map.order.idxOf c)
  edge : ∀ b ∈ map.order, ∀ t ∈ (map.block b).successors, map.order.idxOf b < map.order.idxOf t ∨
    (map.block t).isLoopHeader = true ∧ (map.block t).loop ∈ LoopMask.toList (map.block b).loops
  /-- A header is one because of an edge that goes back to it. -/
  header : ∀ h, (map.block h).isLoopHeader = true → map.header? (map.block h).loop = some h ∧
    ∃ b ∈ map.order, map.Retreats b h ∧ (map.block h).loop ∈ LoopMask.toList (map.block b).loops
  loops : ∀ l, (∃ h ∈ map.order, (map.block h).isLoopHeader = true ∧ (map.block h).loop = l) ↔
    l < map.loopCount
  few : map.loopCount ≤ min limit 64

/-- The blocks of any method are in reverse postorder. -/
theorem reversePostorder_of_create (h : create m options = .ok map) :
    map.ReversePostorder options.loopLimit := by
  obtain ⟨d, first, blocks, s, completed, hs⟩ := (ends_create_stages m options).of_ok h
  have hmap := hs.wellOrdered
  have hstart : map.at? 0 = some first := by
    rw [at?, hs.result]
    exact hs.start
  obtain ⟨hwalk, hhead, -, hfew⟩ := (ends_order hs.closed hs.linked.2 (min_le_right ..)
    fun c => (hs.linked.1 c).plain).of_ok hs.order
  have horder : map.order = s.order := by rw [hs.result]
  have hheaders : map.headers = s.headers := by rw [hs.result]
  refine ⟨⟨first, hstart, horder ▸ hhead⟩, hmap.nodup, fun c => ?_, fun c hc => ?_, fun b hb t ht => ?_,
    fun c hc => (hs.exists_retreats hc).2, fun l => ⟨?_, fun hl => ?_⟩, ?_⟩
  · rw [hs.mem_order_iff, hstart]
    simp
  · have hrange (c : BlockId) (hc : c ∈ s.order) : c.index < completed.size := by
      rw [hs.complete.alike.size, hwalk.flow.size]
      exact hs.within hs.closed hs.linked.2 c hc
    have hnumber := number_foldl (c := c) (k := 0) (horder ▸ hmap.nodup) hrange
    rw [if_pos (horder ▸ hc), Nat.zero_add] at hnumber
    rw [block, horder, hs.result]
    exact hnumber
  · obtain ⟨done, rest, hsplit⟩ := List.append_of_mem hb
    refine (hmap.edge done b rest hsplit t ht).imp (fun hrest => ?_) And.right
    rw [hsplit]
    exact idxOf_lt_of_nodup (hsplit ▸ hmap.nodup) hrest
  · rintro ⟨c, hc, hheader, rfl⟩
    exact (Array.getElem?_eq_some_iff.1 (hmap.self c hc hheader).2).1
  · have hget : map.header? l = some map.headers[l] := Array.getElem?_eq_getElem hl
    obtain ⟨hheader, hloop⟩ := (hwalk.headers l _).1 ((congrArg (·[l]?) hheaders).symm.trans hget)
    rw [← (hs.outline _).1] at hheader
    exact ⟨_, (hs.exists_retreats hheader).1, hheader, (hs.outline _).2.trans hloop⟩
  · rw [loopCount, hheaders]
    exact hfew

/-- The loop that counts down is entered at its first block, and goes back to it from its last one. -/
theorem reversePostorder_of_create_countdown : ∃ map, create .countdown .standard = .ok map ∧
    map.ReversePostorder Options.standard.loopLimit ∧ map.loopCount = 1 ∧ map.order.length = 3 := by
  obtain ⟨map, hmap, hcounts⟩ : ∃ map, create .countdown .standard = .ok map ∧
      decide (map.loopCount = 1 ∧ map.order.length = 3) = true := exists_ok_of_any (by decide +kernel)
  exact ⟨map, hmap, reversePostorder_of_create hmap, of_decide_eq_true hcounts⟩

end SeaOfNodes.BlockMap
