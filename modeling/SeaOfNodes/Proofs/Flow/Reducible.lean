import SeaOfNodes.Proofs.Flow.Map

/-!
# Loops and dominators

A block belongs to a loop just when it leads back to the header by a back edge, and then the header
dominates it. Control flow that is refused has a cycle with more than one entry. The walks that find this
out come to an end by themselves.
-/

namespace SeaOfNodes

namespace Flow

/-! ### Walks that end by themselves -/

section

variable {σ ε α β : Type}

theorem bind_congr_at {μ : Type → Type} [Monad μ] {x y : StateT σ μ α} {k : α → StateT σ μ β} {s : σ}
    (h : x s = y s) : (x >>= k) s = (y >>= k) s := by
  show (x s >>= fun r => k r.1 r.2) = (y s >>= fun r => k r.1 r.2)
  rw [h]

theorem get_bind_at {k : σ → StateT σ (Except ε) α} {s : σ} :
    ((get : StateT σ (Except ε) σ) >>= k) s = k s s := rfl

theorem modify_bind_at {f : σ → σ} {k : PUnit → StateT σ (Except ε) α} {s : σ} :
    ((modify f : StateT σ (Except ε) PUnit) >>= k) s = k ⟨⟩ (f s) := rfl

theorem get_bind_leads {k : σ → StateM σ α} {s : σ} : ((get : StateM σ σ) >>= k) s = k s s := rfl

theorem set_bind_leads {k : PUnit → StateM σ α} {s s' : σ} :
    ((set s' : StateM σ PUnit) >>= k) s = k ⟨⟩ s' := rfl

/-- Two walks over a list agree if their steps agree where an invariant holds. -/
theorem foldlM_congr_at {act act' : β → α → StateT σ (Except ε) β} (inv : List α → β → σ → Prop)
    {l : List α} {b : β} {s : σ} (hs : inv l b s)
    (step : ∀ x rest b s, inv (x :: rest) b s → act b x s = act' b x s ∧
      Ensures (act' b x) s (inv rest)) :
    l.foldlM act b s = l.foldlM act' b s := by
  induction l generalizing b s with
  | nil => rfl
  | cons x rest ih =>
    obtain ⟨heq, hmeets⟩ := step x rest b s hs
    rw [List.foldlM_cons, List.foldlM_cons, bind_congr_at heq]
    show (act' b x s >>= fun r => rest.foldlM act r.1 r.2) =
      (act' b x s >>= fun r => rest.foldlM act' r.1 r.2)
    unfold Ensures Meets at hmeets
    cases hrun : act' b x s with
    | error e => rfl
    | ok r =>
      rw [hrun] at hmeets
      exact ih hmeets

/-- As for walks that may fail. -/
theorem foldlM_congr_leads {act act' : β → α → StateM σ β} (inv : List α → β → σ → Prop)
    {l : List α} {b : β} {s : σ} (hs : inv l b s)
    (step : ∀ x rest b s, inv (x :: rest) b s → act b x s = act' b x s ∧
      Leads (act' b x) s (inv rest)) :
    l.foldlM act b s = l.foldlM act' b s := by
  induction l generalizing b s with
  | nil => rfl
  | cons x rest ih =>
    obtain ⟨heq, hleads⟩ := step x rest b s hs
    rw [List.foldlM_cons, List.foldlM_cons, bind_congr_at heq]
    exact ih hleads

end

variable {base blocks : Blocks} {P : BlockId → Prop} {first : BlockId} {limit : Nat}

/-- A walk with one step more than it needs is the same walk. -/
theorem Ordering.Walking.visit_succ (hbase : Closed base P) (hlimit : limit ≤ maxLoops) :
    ∀ {fuel : Nat} {id : BlockId} {path : List BlockId} {s : Flow.Ordering},
      Walking base P first path s → P id → LeadsTo base first path id →
      base.size + 1 ≤ fuel + (path ++ s.order).length →
      visit limit (fuel + 1) id s = visit limit fuel id s := by
  intro fuel
  induction fuel with
  | zero =>
    intro id path s h _ _ hfuel
    have := length_le_of_nodup h.nodup fun c hc => hbase.range c (h.within c hc)
    omega
  | succ fuel ih =>
    intro id path s h hP hfrom hfuel
    rw [visit, visit, get_bind_at, get_bind_at]
    by_cases hvisited : s.visited.contains id.index
    · rw [if_pos hvisited, if_pos hvisited]
    rw [if_neg hvisited, if_neg hvisited, modify_bind_at, modify_bind_at]
    have hnew : id ∉ path ++ s.order := fun hmem => hvisited ((h.visited id).2 hmem)
    rw [h.flow.successors id]
    refine bind_congr_at (foldlM_congr_at (fun left _ s1 => Walking base P first (id :: path) s1 ∧
      s.order <:+ s1.order ∧ left ⊆ (base.block id).successors) ?_ ?_)
    · exact ⟨h.enter hP hnew hfrom, List.suffix_refl _, List.Subset.refl _⟩
    · rintro t left mask s1 ⟨h1, horder, hleft⟩
      have hlen := horder.length_le
      have ht := hleft (List.mem_cons_self ..)
      have hto : LeadsTo base first (id :: path) t := ⟨fun p hp => Option.some.inj hp ▸ ht, by rintro ⟨⟩⟩
      have hfuel1 : base.size + 1 ≤ fuel + ((id :: path) ++ s1.order).length := by
        simp only [List.length_append, List.length_cons] at hfuel ⊢
        omega
      refine ⟨bind_congr_at (ih h1 (hbase.step id hP t ht) hto hfuel1), meets_bind.2 ?_⟩
      refine (meets_visit hbase hlimit h1 (hbase.step id hP t ht) hto hfuel1).mono
        (fun _ s2 h2 => meets_pure.2 ⟨h2.1, horder.trans h2.2.1.order, fun u hu => ?_⟩) fun _ _ => trivial
      exact hleft (List.mem_cons_of_mem _ hu)

/-- A walk that completes masks is the same with one step more than it needs. -/
theorem MaskWalk.visit_succ (hrange : ∀ c t, t ∈ (base.block c).successors → t.index < base.size) :
    ∀ {fuel k : Nat} {id : BlockId} {s : MaskWalk}, Alike Block.outline base s.blocks →
      id.index < base.size → Counted base.size k s → base.size + 1 ≤ fuel + k →
      visit (fuel + 1) id s = visit fuel id s := by
  intro fuel
  induction fuel with
  | zero =>
    intro k id s _ _ hcount hfuel
    have := hcount.le
    omega
  | succ fuel ih =>
    intro k id s halike hid hcount hfuel
    rw [visit, visit, get_bind_leads, get_bind_leads]
    by_cases hvisited : s.visited.contains id.index
    · rw [if_pos hvisited, if_pos hvisited]
    rw [if_neg hvisited, if_neg hvisited, set_bind_leads, set_bind_leads]
    have hcount1 := hcount.insert hvisited hid
    refine bind_congr_at (foldlM_congr_leads (fun left _ s1 => Alike Block.outline base s1.blocks ∧
      Counted base.size (k + 1) s1 ∧ left ⊆ (base.block id).successors) ?_ ?_)
    · exact ⟨halike, hcount1, by rw [halike.skeleton.successors]; exact List.Subset.refl _⟩
    · rintro t left mask s1 ⟨halike1, hcount1, hleft⟩
      have ht := hrange id t (hleft (List.mem_cons_self ..))
      refine ⟨bind_congr_at (ih halike1 ht hcount1 (by omega)), leads_bind.2 ?_⟩
      refine (leads_visit hrange halike1 ht hcount1 (by omega)).imp fun _ s2 h2 => leads_pure.2 ?_
      exact ⟨halike1.trans h2.1.alike, h2.2.1, fun u hu => hleft (List.mem_cons_of_mem _ hu)⟩

/-- One more walk than are needed changes nothing. -/
theorem completeMasks_succ {start : BlockId} :
    ∀ {rounds : Nat} {blocks : Blocks},
      (∀ c t, t ∈ (blocks.block c).successors → t.index < blocks.size) → start.index < blocks.size →
      64 * blocks.size < rounds + maskBits blocks →
      completeMasks start (rounds + 1) blocks = completeMasks start rounds blocks := by
  intro rounds
  induction rounds with
  | zero =>
    intro blocks _ _ hrounds
    have := maskBits_le blocks
    omega
  | succ rounds ih =>
    intro blocks hrange hstart hrounds
    rw [completeMasks, completeMasks]
    rcases hrun : (MaskWalk.visit (blocks.size + 1) start).run { blocks } with ⟨mask, s⟩
    have hround := round_of_run hrange hstart hrun
    have hsize : s.blocks.size = blocks.size := hround.grows.alike.size
    dsimp only
    by_cases hchanged : s.changed
    · have hlt := hround.bits hchanged
      rw [ih (hround.range hrange) (hsize ▸ hstart) (by rw [hsize]; omega)]
    · rw [if_neg hchanged, if_neg hchanged]

/-- The walks that order blocks and complete their masks come to an end by themselves: they are the same
with any number of steps or rounds beyond those that they are given. -/
structure WalksEnd (blocks : Blocks) (first : BlockId) (limit : Nat) : Prop where
  order : ∀ extra, (Ordering.visit limit (blocks.size + 1 + extra) first).run { blocks } =
    (Ordering.visit limit (blocks.size + 1) first).run { blocks }
  pass : ∀ s, Flow.order blocks first limit = .ok s → ∀ completed, Alike Block.outline s.blocks completed →
    ∀ extra, (MaskWalk.visit (completed.size + 1 + extra) first).run { blocks := completed } =
      (MaskWalk.visit (completed.size + 1) first).run { blocks := completed }
  rounds : ∀ s, Flow.order blocks first limit = .ok s → ∀ extra,
    completeMasks first (BlockMap.maskRounds s.blocks + extra) s.blocks =
      completeMasks first (BlockMap.maskRounds s.blocks) s.blocks

theorem walksEnd (hblocks : blocks.Linked) (hfirst : first.index < blocks.size)
    (hlimit : limit ≤ maxLoops) : WalksEnd blocks first limit := by
  have hbase : Closed blocks fun c => c.index < blocks.size :=
    ⟨fun _ h => h, fun c _ t ht => (hblocks c).successors t ht⟩
  have hheaders (c : BlockId) : (blocks.block c).isLoopHeader = false := (hblocks c).plain
  have hsuccessors {completed : Blocks} (h : Alike Block.skeleton blocks completed) (c t : BlockId)
      (ht : t ∈ (completed.block c).successors) : t.index < completed.size := by
    rw [h.successors] at ht
    exact h.size ▸ (hblocks c).successors t ht
  refine ⟨fun extra => ?_, fun s hs completed halike extra => ?_, fun s hs extra => ?_⟩
  · induction extra with
    | zero => rfl
    | succ extra ih =>
      rw [← ih, ← Nat.add_assoc]
      exact (Ordering.Walking.init hheaders).visit_succ hbase hlimit hfirst ⟨nofun, fun _ => rfl⟩
        (by simp only [List.append_nil, List.length_nil]; omega)
  · have hflow := ((ends_order hbase hfirst hlimit hheaders).of_ok hs).1.flow.trans halike.skeleton
    induction extra with
    | zero => rfl
    | succ extra ih =>
      rw [← ih, ← Nat.add_assoc]
      exact MaskWalk.visit_succ (hsuccessors hflow) (.refl ..) (hflow.size ▸ hfirst)
        ⟨[], .nil, nofun, by simp, Nat.le_refl 0⟩ (by omega)
  · have hflow := ((ends_order hbase hfirst hlimit hheaders).of_ok hs).1.flow
    induction extra with
    | zero => rfl
    | succ extra ih =>
      rw [← ih, ← Nat.add_assoc]
      refine completeMasks_succ (hsuccessors hflow) (hflow.size ▸ hfirst) ?_
      unfold BlockMap.maskRounds
      omega

/-! ### Paths and dominators -/

/-- A path from `a` to `b`. -/
structure PathTo (base : Blocks) (a b : BlockId) (path : List BlockId) : Prop where
  steps : IsPath base path
  head : path.head? = some a
  last : path.getLast? = some b

/-- Each path from the start to `b` goes through `h`. -/
def Dominates (base : Blocks) (first h b : BlockId) : Prop := ∀ path, PathTo base first b path → h ∈ path

/-- A cycle that is reached from the start, and none of whose blocks dominates all its others. -/
structure IrreducibleCycle (base : Blocks) (first : BlockId) (cycle : List BlockId) : Prop where
  ring : ∃ h u, PathTo base h u cycle ∧ h ∈ (base.block u).successors
  reached : ∀ c ∈ cycle, ∃ path, PathTo base first c path
  entries : ∀ c ∈ cycle, ∃ t ∈ cycle, t ≠ c ∧ ¬Dominates base first c t

variable {a b c h u : BlockId} {path order : List BlockId}

theorem PathTo.single (a : BlockId) : PathTo base a a [a] := ⟨.singleton a, rfl, rfl⟩

theorem PathTo.cons (hpath : PathTo base b c path) (hb : b ∈ (base.block a).successors) :
    PathTo base a c (a :: path) := by
  refine ⟨hpath.steps.cons fun t ht => ?_, rfl, ?_⟩
  · rw [hpath.head] at ht
    cases ht
    exact hb
  · rw [List.getLast?_cons, hpath.last]
    rfl

/-- Paths only depend on where blocks lead. -/
theorem PathTo.congr {base' : Blocks} (hpath : PathTo base a b path)
    (h : ∀ c, (base'.block c).successors = (base.block c).successors) : PathTo base' a b path := by
  refine ⟨?_, hpath.head, hpath.last⟩
  have hp := hpath.steps
  unfold IsPath at hp ⊢
  simpa only [h] using hp

/-- The part of a path up to a block on it. -/
theorem PathTo.upTo {above below : List BlockId} (hpath : IsPath base (above ++ c :: below))
    (hhead : (above ++ c :: below).head? = some a) : PathTo base a c (above ++ [c]) := by
  refine ⟨?_, ?_, by simp⟩
  · rw [List.append_cons] at hpath
    exact hpath.left_of_append
  · cases above with
    | nil | cons x above => exact hhead

/-- A block that leads back to `h` has a path to a back edge on which `h` is the first block at most. -/
theorem Circles.exists_path (hc : Circles base first order h c) :
    ∃ u path, PathTo base c u path ∧ h ∉ path.tail ∧ BackEdge base first order u h := by
  induction hc with
  | back edge => exact ⟨_, _, .single _, nofun, edge⟩
  | step edge ht _ ih =>
    obtain ⟨u, path, hpath, htail, hback⟩ := ih
    refine ⟨u, _, hpath.cons edge, fun hmem => ?_, hback⟩
    cases path with
    | nil => cases hmem
    | cons x path =>
      obtain rfl := Option.some.inj hpath.head
      exact (List.mem_cons.1 hmem).elim (fun heq => ht heq.symm) htail

/-- A start that leads back to another block shows a cycle that is entered twice: the walk went into it
through `h`, and the start leads into it past `h`. -/
theorem Circles.exists_cycle (hc : Circles base first order h first) (hne : h ≠ first) :
    ∃ cycle, IrreducibleCycle base first cycle := by
  obtain ⟨u, path, hpath, htail, hback⟩ := hc.exists_path
  obtain ⟨above, below, hstack, hnodup, hhead, hlast⟩ := hback.stack
  have hpast : h ∉ path := by
    cases path with
    | nil => exact List.not_mem_nil
    | cons x path =>
      obtain rfl := Option.some.inj hpath.head
      exact fun hmem => (List.mem_cons.1 hmem).elim hne htail
  have hmemu : u ∈ h :: below := List.mem_of_getLast? hlast
  have hu : u ≠ h := by
    rintro rfl
    exact hpast (List.mem_of_getLast? hpath.last)
  refine ⟨h :: below, ⟨h, u, ⟨hstack.right_of_append, rfl, hlast⟩, hback.edge⟩, fun c hmem => ?_,
    fun c hmem => ?_⟩
  · obtain ⟨before, after, hsplit⟩ := List.append_of_mem (List.mem_append_right above hmem)
    exact ⟨before ++ [c], .upTo (hsplit ▸ hstack) (hsplit ▸ hhead)⟩
  · rcases List.mem_cons.1 hmem with rfl | hbelow
    · exact ⟨u, hmemu, hu, fun hdom => hpast (hdom path hpath)⟩
    · have hch : c ≠ h := by
        rintro rfl
        exact (List.nodup_cons.1 (List.nodup_append.1 hnodup).2.1).1 hbelow
      refine ⟨h, List.mem_cons_self .., hch.symm, fun hdom => ?_⟩
      rcases List.mem_append.1 (hdom _ (.upTo hstack hhead)) with habove | hself
      · exact (List.nodup_append.1 hnodup).2.2 c habove c hmem rfl
      · exact hch (List.mem_singleton.1 hself)

end Flow

namespace BlockMap

open Flow

variable {m : Method} {options : Options} {map : BlockMap} {d : Discovery} {first : BlockId}
  {blocks completed : Blocks} {s : Flow.Ordering}

/-- The edge from `u` to `h` goes back: `h` is not after `u` in the order. -/
structure Retreats (map : BlockMap) (u h : BlockId) : Prop where
  edge : h ∈ (map.block u).successors
  order : map.order.idxOf h ≤ map.order.idxOf u

/-- What the loops of a map say. -/
structure Classified (map : BlockMap) : Prop where
  /-- A block belongs to a loop just when it leads to an edge back to the header, with the header as the
  first block of the path at most. -/
  member : ∀ i h, map.header? i = some h → ∀ b ∈ map.order, (i ∈ LoopMask.toList (map.block b).loops ↔
    ∃ u path, PathTo map.blocks b u path ∧ h ∉ path.tail ∧ map.Retreats u h)
  dominates : ∀ i h, map.header? i = some h → ∀ b ∈ map.order, i ∈ LoopMask.toList (map.block b).loops →
    ∀ first ∈ map.start?, Dominates map.blocks first h b
  reducible : ∀ u ∈ map.order, ∀ h, map.Retreats u h → ∀ first ∈ map.start?,
    Dominates map.blocks first h u

end BlockMap

namespace Flow.Ordering.Walking

variable {base : Blocks} {P : BlockId → Prop} {first c t : BlockId} {s : Flow.Ordering}

/-- A walk that is over has been to all blocks ahead. -/
theorem mem_order (h : Walking base P first [] s) (hc : c ∈ s.order) (ht : t ∈ (base.block c).successors) :
    t ∈ s.order := by
  obtain ⟨done, rest, hsplit⟩ := List.append_of_mem hc
  rcases h.edge done c rest hsplit t ht with hrest | ⟨hmem, -⟩
  · exact hsplit ▸ List.mem_append_right _ (List.mem_cons_of_mem _ hrest)
  · simpa using hmem

/-- That a block leads back to the header of a loop is inherited by the blocks that lead to it. -/
theorem inward (h : Walking base P first [] s) (hbase : Closed base P) :
    MaskWalk.Inward s.blocks (· ∈ s.order)
      fun l c => ∃ j, s.headers[l]? = some j ∧ Circles base first s.order j c := by
  refine ⟨⟨fun c hc => ?_, fun c hc t ht => ?_⟩, fun c hheader => h.loop_lt hheader,
    fun c t l hc ht hown hl => ?_⟩
  · rw [h.flow.size]
    exact hbase.range c (h.within c (by simpa using hc))
  · rw [h.flow.successors] at ht
    exact h.mem_order hc ht
  · obtain ⟨j, hj, hcircles⟩ := hl
    rw [h.flow.successors] at ht
    refine ⟨j, hj, .step ht ?_ hcircles⟩
    rintro rfl
    obtain ⟨hheader, hloop⟩ := (h.headers l t).1 hj
    exact hown hheader hloop.symm

end Flow.Ordering.Walking

namespace BlockMap

open Flow

variable {m : Method} {options : Options} {map : BlockMap} {d : Discovery} {first : BlockId}
  {blocks completed : Blocks} {s : Flow.Ordering} {h : BlockId}

/-- The masks are complete and say only what holds; otherwise there is a cycle with more entries. -/
theorem Found.ends_masks (h : Found m options d first blocks)
    (hs : Flow.order blocks first (min options.loopLimit maxLoops) = .ok s) :
    Ends (completeMasks first (maskRounds s.blocks) s.blocks)
      (MaskWalk.Sound (· ∈ s.order)
        fun l c => ∃ j, s.headers[l]? = some j ∧ Circles blocks first s.order j c)
      fun _ => ∃ cycle, IrreducibleCycle blocks first cycle := by
  obtain ⟨hwalk, hhead⟩ := h.walking hs
  have hsound : MaskWalk.Sound (· ∈ s.order)
      (fun l c => ∃ j, s.headers[l]? = some j ∧ Circles blocks first s.order j c) s.blocks := hwalk.circles
  refine (ends_completeMasks_sound (hwalk.inward h.closed) (List.mem_of_head? hhead) (.refl ..) hsound).mono
    (fun _ hc => hc) ?_
  rintro _ ⟨l, ⟨j, hj, hcircles⟩, hown⟩
  refine hcircles.exists_cycle ?_
  rintro rfl
  obtain ⟨hheader, hloop⟩ := (hwalk.headers l j).1 hj
  exact hown hheader hloop.symm

/-! ### Loops and dominators -/

theorem WellOrdered.mem_order (hmap : map.WellOrdered) {c t : BlockId} (hc : c ∈ map.order)
    (ht : t ∈ (map.block c).successors) : t ∈ map.order := by
  obtain ⟨done, rest, hsplit⟩ := List.append_of_mem hc
  rcases hmap.edge done c rest hsplit t ht with hrest | ⟨hmem, -⟩
  · exact hsplit ▸ List.mem_append_right _ (List.mem_cons_of_mem _ hrest)
  · exact hmem

theorem WellOrdered.mem_order_of_path (hmap : map.WellOrdered) {path : List BlockId} :
    ∀ {b u : BlockId}, PathTo map.blocks b u path → b ∈ map.order → u ∈ map.order := by
  induction path with
  | nil => exact fun hpath => nomatch hpath.head
  | cons x path ih =>
    intro b u hpath hb
    obtain rfl := Option.some.inj hpath.head
    cases path with
    | nil =>
      obtain rfl := Option.some.inj hpath.last
      exact hb
    | cons t path =>
      obtain ⟨hedge, hrest⟩ := List.isChain_cons_cons.1 hpath.steps
      exact ih ⟨hrest, rfl, by simpa using hpath.last⟩ (hmap.mem_order hb hedge)

theorem idxOf_lt_of_nodup {done rest : List BlockId} {a b : BlockId} (h : (done ++ a :: rest).Nodup)
    (hb : b ∈ rest) : (done ++ a :: rest).idxOf a < (done ++ a :: rest).idxOf b := by
  obtain ⟨-, hrest, hdisjoint⟩ := List.nodup_append.1 h
  have ha : a ∉ done := fun hmem => hdisjoint a hmem a (List.mem_cons_self ..) rfl
  have hb' : b ∉ done := fun hmem => hdisjoint b hmem b (List.mem_cons_of_mem _ hb) rfl
  have hne : a ≠ b := by
    rintro rfl
    exact (List.nodup_cons.1 hrest).1 hb
  rw [List.idxOf_append_of_notMem ha, List.idxOf_append_of_notMem hb', List.idxOf_cons_self,
    List.idxOf_cons_ne _ hne]
  omega

/-- An edge that goes back leads to the header of a loop around its source. -/
theorem WellOrdered.header_of_retreats (hmap : map.WellOrdered) {u : BlockId} (hu : u ∈ map.order)
    (hr : map.Retreats u h) : h ∈ map.order ∧ (map.block h).isLoopHeader ∧
      (map.block h).loop ∈ LoopMask.toList (map.block u).loops := by
  obtain ⟨done, rest, hsplit⟩ := List.append_of_mem hu
  refine (hmap.edge done u rest hsplit h hr.edge).resolve_left fun hrest => ?_
  have hlt := idxOf_lt_of_nodup (hsplit ▸ hmap.nodup) hrest
  have hle := hr.order
  rw [hsplit] at hle
  omega

/-- A loop that goes on to the end of a path is around its start, if the path does not go through the
header. -/
theorem WellOrdered.mem_loops_of_path (hmap : map.WellOrdered) {i : Nat}
    (hh : map.header? i = some h) : ∀ {path : List BlockId} {b u : BlockId}, PathTo map.blocks b u path →
      b ∈ map.order → h ∉ path.tail → i ∈ LoopMask.toList (map.block u).loops →
      i ∈ LoopMask.toList (map.block b).loops := by
  intro path
  induction path with
  | nil => exact fun hpath => nomatch hpath.head
  | cons x path ih =>
    intro b u hpath hb htail hu
    obtain rfl := Option.some.inj hpath.head
    cases path with
    | nil =>
      obtain rfl := Option.some.inj hpath.last
      exact hu
    | cons t path =>
      obtain ⟨hedge, hrest⟩ := List.isChain_cons_cons.1 hpath.steps
      have ht : t ∈ map.order := hmap.mem_order hb hedge
      have hmem := ih ⟨hrest, rfl, by simpa using hpath.last⟩ ht
        (fun hmem => htail (List.mem_cons_of_mem _ hmem)) hu
      refine hmap.outer x hb t hedge i ((mem_outerLoops fun hheader => (hmap.self t ht hheader).1).2
        ⟨hmem, ?_⟩)
      rintro hheader rfl
      have heq := Option.mem_unique hh (hmap.self t ht hheader).2
      exact htail (heq ▸ List.mem_cons_self ..)

/-- The header of a loop around a block dominates it: the loop would be around the start. -/
theorem WellOrdered.dominates (hmap : map.WellOrdered) {i : Nat} {b : BlockId}
    (hh : map.header? i = some h) (hb : i ∈ LoopMask.toList (map.block b).loops)
    (hfirst : map.start? = some first) : Dominates map.blocks first h b := by
  intro path hpath
  by_contra hpast
  have hmem : first ∈ map.order := List.mem_of_head? hfirst
  have hloop := hmap.mem_loops_of_path hh hpath hmem (fun ht => hpast (List.mem_of_mem_tail ht)) hb
  have houter := (mem_outerLoops fun hheader => (hmap.self first hmem hheader).1).2 ⟨hloop, fun hheader => ?_⟩
  · rw [hmap.start first hfirst] at houter
    simp at houter
  · rintro rfl
    have heq := Option.mem_unique hh (hmap.self first hmem hheader).2
    exact hpast (heq ▸ List.mem_of_head? hpath.head)

theorem Staged.classified (h : Staged m options d first blocks s completed map)
    (hmap : map.WellOrdered) : Classified map := by
  obtain ⟨hwalk, hhead⟩ := h.walking h.order
  have hsound := (h.ends_masks h.order).of_ok h.masks
  have horder : map.order = s.order := by rw [h.result]
  have hheaders (i : Nat) : map.header? i = s.headers[i]? := by rw [header?, h.result]
  refine ⟨fun i j hj b hb => ⟨fun hi => ?_, ?_⟩, ?_, ?_⟩
  · rw [h.loops] at hi
    obtain ⟨j', hj', hcircles⟩ := hsound b (horder ▸ hb) i hi
    obtain rfl : j = j' := Option.mem_unique hj ((hheaders i).trans hj')
    obtain ⟨u, path, hpath, htail, hback⟩ := hcircles.exists_path
    refine ⟨u, path, hpath.congr h.successors, htail, ?_, ?_⟩
    · rw [h.successors]
      exact hback.edge
    · rcases hback.before with rfl | hsub
      · exact Nat.le_refl _
      · obtain ⟨above, below, hsplit, hj, hu⟩ := List.cons_sublist_iff.1 hsub
        obtain ⟨done, rest, rfl⟩ := List.append_of_mem hj
        rw [List.append_assoc] at hsplit
        rw [horder, hsplit]
        refine Nat.le_of_lt (idxOf_lt_of_nodup (hsplit ▸ horder ▸ hmap.nodup) ?_)
        exact List.mem_append_right _ (List.singleton_sublist.1 hu)
  · rintro ⟨u, path, hpath, htail, hr⟩
    have hu : u ∈ map.order := hmap.mem_order_of_path hpath hb
    obtain ⟨hjmem, hheader, hloop⟩ := hmap.header_of_retreats hu hr
    have hself := (hmap.self j hjmem hheader).2
    rw [hheaders] at hj hself
    -- a header heads one loop
    have hi : (map.block j).loop = i :=
      ((hwalk.headers _ j).1 hself).2.symm.trans ((hwalk.headers i j).1 hj).2
    exact hmap.mem_loops_of_path ((hheaders i).trans hj) hpath hb htail (hi ▸ hloop)
  · intro i j hj b hb hi first hfirst
    exact hmap.dominates hj hi hfirst
  · intro u hu j hr first hfirst
    obtain ⟨hjmem, hheader, hloop⟩ := hmap.header_of_retreats hu hr
    exact hmap.dominates (hmap.self j hjmem hheader).2 hloop hfirst

/-- Inlining subroutines does not fail because of loops. -/
theorem inlined_ne (hd : Flow.discover m options = .ok d) (first : BlockId) :
    inlined options d first ≠ .error .nonReducibleLoop := by
  have hread := (Discovery.ends_discover_read m options).of_ok hd
  exact fun herror => (ends_inlined hread.founded first).of_error herror rfl

/-- The walks that find loops end by themselves. If there is a map, its loops are what they are to be, and
all edges that go back lead to dominators; if a loop is the reason that there is none, then control flow has
a cycle with more than one entry. -/
theorem loops_classified (m : Method) (options : Options) :
    (∀ d first blocks, Found m options d first blocks →
      WalksEnd blocks first (min options.loopLimit maxLoops)) ∧
    (∀ map, create m options = .ok map → map.Classified) ∧
    (create m options = .error .nonReducibleLoop → ∃ d first blocks, Found m options d first blocks ∧
      ∃ cycle, IrreducibleCycle blocks first cycle) := by
  refine ⟨fun d first blocks h => walksEnd h.linked.1 h.linked.2 (min_le_right ..), fun map hmap => ?_,
    fun herror => ?_⟩
  · obtain ⟨d, first, blocks, s, completed, h⟩ := (ends_create_stages m options).of_ok hmap
    exact h.classified (wellOrdered_of_create hmap)
  · rcases (ends_create_stages m options).of_error herror with
      hd | ⟨_, hcause⟩ | ⟨d, first, hd, hb⟩ | ⟨d, first, blocks, h, hs⟩ | ⟨d, first, blocks, h, s, hs, hmasks⟩
    · exact absurd rfl ((Discovery.ends_discover_read m options).of_error hd)
    · cases hcause
    · exact absurd hb (inlined_ne hd first)
    · obtain ⟨order, j, hne, hcircles⟩ := (ends_order h.closed h.linked.2 (min_le_right ..)
        fun c => (h.linked.1 c).plain).of_error hs rfl
      exact ⟨d, first, blocks, h, hcircles.exists_cycle hne⟩
    · exact ⟨d, first, blocks, h, (h.ends_masks hs).of_error hmasks⟩

end BlockMap

/-- A loop of two blocks that is entered at both. -/
def Method.crossed : Method :=
  .ofCode #[0x1a, 0x99, 0, 6, 0x84, 0, 0xff, 0x1a, 0x99, 0xff, 0xfc, 0xb1] [] []

theorem BlockMap.loops_classified_crossed :
    (∃ map, create .countdown .standard = .ok map ∧ map.Classified ∧ map.header? 0 = some ⟨0⟩ ∧
      0 ∈ LoopMask.toList (map.block ⟨2⟩).loops) ∧
    create .crossed .standard = .error .nonReducibleLoop ∧
    ∃ d first blocks, Found .crossed .standard d first blocks ∧
      ∃ cycle, Flow.IrreducibleCycle blocks first cycle := by
  obtain ⟨map, hmap, hloop⟩ : ∃ map, create .countdown .standard = .ok map ∧
      decide (map.header? 0 = some ⟨0⟩ ∧ 0 ∈ LoopMask.toList (map.block ⟨2⟩).loops) = true :=
    exists_ok_of_any (by decide +kernel)
  have hcrossed : create .crossed .standard = .error .nonReducibleLoop :=
    eq_error_of_failsWith (by decide +kernel)
  refine ⟨⟨map, hmap, (loops_classified _ _).2.1 map hmap, of_decide_eq_true hloop⟩, hcrossed, ?_⟩
  exact (loops_classified _ _).2.2 hcrossed

end SeaOfNodes
