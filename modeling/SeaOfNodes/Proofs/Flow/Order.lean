import SeaOfNodes.Proofs.BitSet
import SeaOfNodes.Proofs.Flow.Block
import SeaOfNodes.Proofs.Outcome

/-!
# The walk that orders the blocks

The walk keeps the path from the start to where it stands, and the blocks it has left. A block that it
has left leads to blocks left before it, or to the header of a loop to which it then belongs. A block on
the path that is reached again is such a header. A block that it has left belongs to a loop only if it
leads back to the header.
-/

namespace SeaOfNodes

/-- A block without its number and what is known about loops. -/
def Block.skeleton (b : Block) : Block :=
  { b with number := none, isLoopHeader := false, loop := 0, loops := 0, exits := 0 }

namespace Flow

variable {base blocks : Blocks} {id c t : BlockId} {f : Block → Block}

/-! ### What the walk leaves alone -/

/-- The blocks are the same as far as `e` shows. -/
structure Alike (e : Block → Block) (base blocks : Blocks) : Prop where
  size : blocks.size = base.size
  block : ∀ id, e (blocks.block id) = e (base.block id)

section

variable {e e' : Block → Block}

theorem Alike.refl (e : Block → Block) (base : Blocks) : Alike e base base := ⟨rfl, fun _ => rfl⟩

theorem Alike.trans {a b c : Blocks} (h : Alike e a b) (h' : Alike e b c) : Alike e a c :=
  ⟨h'.size.trans h.size, fun id => (h'.block id).trans (h.block id)⟩

theorem Alike.modify (h : Alike e base blocks) (id : BlockId) (hf : ∀ b, e (f b) = e b) :
    Alike e base (blocks.modify id f) := by
  refine ⟨by rw [Blocks.size_modify, h.size], fun j => ?_⟩
  rw [Blocks.block_modify]
  split
  · rw [hf, h.block]
  · exact h.block j

end

theorem Alike.successors (h : Alike Block.skeleton base blocks) (id : BlockId) :
    (blocks.block id).successors = (base.block id).successors := by
  have := congrArg Block.successors (h.block id)
  exact this

/-- A set of blocks closed under going on. -/
structure Closed (base : Blocks) (P : BlockId → Prop) : Prop where
  range : ∀ c, P c → c.index < base.size
  step : ∀ c, P c → ∀ t ∈ (base.block c).successors, P t

/-- There are no more different blocks than places for them. -/
theorem length_le_of_nodup {n : Nat} {l : List BlockId} (hl : l.Nodup) (h : ∀ c ∈ l, c.index < n) :
    l.length ≤ n := by
  have hmap : (l.map Handle.index).Nodup := hl.map fun a b hab => by cases a; cases b; simp_all
  have hsub : l.map Handle.index ⊆ List.range n := by
    intro i hi
    obtain ⟨c, hc, rfl⟩ := List.mem_map.1 hi
    exact List.mem_range.2 (h c hc)
  simpa using (List.subperm_of_subset hmap hsub).length_le

/-! ### Back edges -/

/-- The blocks of a path lead to one another. -/
def IsPath (base : Blocks) (path : List BlockId) : Prop :=
  path.IsChain fun c t => t ∈ (base.block c).successors

/-- An edge back to a block `h` that does not come after `u` in `order`. A path from `first` goes through
`h` on its way to `u`. -/
structure BackEdge (base : Blocks) (first : BlockId) (order : List BlockId) (u h : BlockId) : Prop where
  edge : h ∈ (base.block u).successors
  before : h = u ∨ [h, u].Sublist order
  stack : ∃ above below, IsPath base (above ++ h :: below) ∧ (above ++ h :: below).Nodup ∧
    (above ++ h :: below).head? = some first ∧ (h :: below).getLast? = some u

/-- The block leads to a back edge to `h`, and not through `h`. -/
inductive Circles (base : Blocks) (first : BlockId) (order : List BlockId) (h : BlockId) : BlockId → Prop
  | back {u : BlockId} (edge : BackEdge base first order u h) : Circles base first order h u
  | step {c t : BlockId} (edge : t ∈ (base.block c).successors) (ht : t ≠ h)
    (rest : Circles base first order h t) : Circles base first order h c

theorem Circles.mono {first h : BlockId} {order order' : List BlockId} (hc : Circles base first order h c)
    (horder : order.Sublist order') : Circles base first order' h c := by
  induction hc with
  | back edge => exact .back ⟨edge.edge, edge.before.imp_right fun hs => hs.trans horder, edge.stack⟩
  | step edge ht _ ih => exact .step edge ht ih

/-! ### The walk -/

namespace Ordering

/-- What holds while the walk is at the first block of `path`. -/
structure Walking (base : Blocks) (P : BlockId → Prop) (first : BlockId) (path : List BlockId)
    (s : Ordering) : Prop where
  flow : Alike Block.skeleton base s.blocks
  within : ∀ c ∈ path ++ s.order, P c
  nodup : (path ++ s.order).Nodup
  visited : ∀ c : BlockId, s.visited.contains c.index = true ↔ c ∈ path ++ s.order
  active : ∀ c : BlockId, s.active.contains c.index = true ↔ c ∈ path
  headers : ∀ (l : Nat) (h : BlockId), s.headers[l]? = some h ↔
    (s.blocks.block h).isLoopHeader = true ∧ (s.blocks.block h).loop = l
  few : s.headers.size ≤ maxLoops
  seen : ∀ h, (s.blocks.block h).isLoopHeader = true → h ∈ path ++ s.order
  /-- A header that the walk has not left belongs to its own loop. -/
  own : ∀ h ∈ path, (s.blocks.block h).isLoopHeader = true →
    (s.blocks.block h).loop ∈ LoopMask.toList (s.blocks.block h).loops
  edge : ∀ done c rest, s.order = done ++ c :: rest → ∀ t ∈ (base.block c).successors,
    t ∈ rest ∨ t ∈ path ++ s.order ∧ (s.blocks.block t).isLoopHeader = true ∧
      (s.blocks.block t).loop ∈ LoopMask.toList (s.blocks.block c).loops
  stack : IsPath base path.reverse
  bottom : ∀ c ∈ path.getLast?, c = first
  only : ∀ h ∈ path, (s.blocks.block h).isLoopHeader = true →
    ∀ l ∈ LoopMask.toList (s.blocks.block h).loops, l = (s.blocks.block h).loop
  circles : ∀ c ∈ s.order, ∀ l ∈ LoopMask.toList (s.blocks.block c).loops,
    ∃ h, s.headers[l]? = some h ∧ Circles base first (path.reverse ++ s.order) h c

/-- Headers stay headers of the same loops. -/
def KeepsHeaders (s s' : Ordering) : Prop :=
  ∀ h, (s.blocks.block h).isLoopHeader = true →
    (s'.blocks.block h).isLoopHeader = true ∧ (s'.blocks.block h).loop = (s.blocks.block h).loop

variable {s'' : Ordering}

theorem KeepsHeaders.trans {s s' : Ordering} (h : KeepsHeaders s s') (h' : KeepsHeaders s' s'') :
    KeepsHeaders s s'' := fun b hb =>
  ⟨(h' b (h b hb).1).1, (h' b (h b hb).1).2.trans (h b hb).2⟩

variable {P : BlockId → Prop} {first : BlockId} {path : List BlockId} {s s' : Ordering} {limit fuel : Nat}
  {mask mask' : LoopMask} {l : Nat}

/-- What the walk has done before stays as it is. -/
structure Onward (limit : Nat) (s s' : Ordering) : Prop where
  order : s.order <:+ s'.order
  headers : KeepsHeaders s s'
  loops : ∀ c ∈ s.order, (s'.blocks.block c).loops = (s.blocks.block c).loops
  few : s.headers.size ≤ limit → s'.headers.size ≤ limit

theorem Onward.refl (limit : Nat) : Onward limit s s := ⟨List.suffix_refl _, fun _ hb => ⟨hb, rfl⟩, fun _ _ => rfl, id⟩

theorem Onward.trans (h : Onward limit s s') (h' : Onward limit s' s'') :
    Onward limit s s'' where
  order := h.order.trans h'.order
  headers := h.headers.trans h'.headers
  loops c hc := (h'.loops c (h.order.subset hc)).trans (h.loops c hc)
  few hfew := h'.few (h.few hfew)

/-- A block that was left belongs to the loop of the header. -/
def Marked (s : Ordering) (h : BlockId) : Prop :=
  ∃ c ∈ s.order, (s.blocks.block h).loop ∈ LoopMask.toList (s.blocks.block c).loops

theorem Marked.mono (h : Marked s id) (hs : Onward limit s s')
    (hid : (s'.blocks.block id).loop = (s.blocks.block id).loop) : Marked s' id := by
  obtain ⟨c, hc, hloop⟩ := h
  exact ⟨c, hs.order.subset hc, by rwa [hid, hs.loops c hc]⟩

/-- The walk has dealt with an edge to a block: it was left, or is a header on the path of one of the
loops `mask`. -/
def Settled (path : List BlockId) (s : Ordering) (mask : LoopMask) (t : BlockId) : Prop :=
  t ∈ s.order ∨ t ∈ path ∧ (s.blocks.block t).isLoopHeader = true ∧
    (s.blocks.block t).loop ∈ LoopMask.toList mask

theorem Settled.mono (h : Settled path s mask t)
    (hs : Onward limit s s') (hmask : ∀ l ∈ LoopMask.toList mask, l ∈ LoopMask.toList mask') :
    Settled path s' mask' t := by
  rcases h with h | ⟨hpath, hheader, hloop⟩
  · exact .inl (hs.order.subset h)
  · obtain ⟨hheader', hloop'⟩ := hs.headers t hheader
    exact .inr ⟨hpath, hheader', hloop' ▸ hmask _ hloop⟩

/-- The block as the header of a loop that was just found. -/
def asHeader (loop : Nat) (b : Block) : Block :=
  { b with isLoopHeader := true, loop, loops := LoopMask.single loop }

/-- A block on the path becomes a header. -/
theorem Walking.addHeader (h : Walking base P first path s) (hrange : id.index < s.blocks.size)
    (hid : id ∈ path) (hheader : ¬(s.blocks.block id).isLoopHeader)
    (hfew : s.headers.size < maxLoops) :
    Walking base P first path
      { s with
        blocks := s.blocks.modify id (asHeader s.headers.size)
        headers := s.headers.push id } := by
  have hblock (j : BlockId) : Blocks.block (s.blocks.modify id (asHeader s.headers.size)) j =
      if j = id then asHeader s.headers.size (s.blocks.block id) else s.blocks.block j := by
    rw [Blocks.block_modify]
    by_cases hj : j = id <;> simp [hj, hrange]
  have hkeep (j : BlockId) (hj : (s.blocks.block j).isLoopHeader) : j ≠ id := by
    rintro rfl
    exact hheader hj
  have hleft (c : BlockId) (hc : c ∈ s.order) : c ≠ id := by
    rintro rfl
    exact (List.nodup_append.1 h.nodup).2.2 _ hid _ hc rfl
  refine ⟨h.flow.modify id fun _ => rfl, h.within, h.nodup, h.visited, h.active, ?_, ?_, ?_, ?_, ?_,
    h.stack, h.bottom, ?_, ?_⟩
  · intro l j
    show (s.headers.push id)[l]? = some j ↔ (Blocks.block (s.blocks.modify id _) j).isLoopHeader ∧
      (Blocks.block (s.blocks.modify id _) j).loop = l
    rw [Array.getElem?_push, hblock]
    by_cases hj : j = id
    · have hold : ¬s.headers[l]? = some id := fun hl => hheader ((h.headers l id).1 hl).1
      rw [if_pos hj, hj]
      split
      · rename_i hl
        simp [asHeader, hl]
      · rename_i hl
        simpa [asHeader, hold] using fun heq => hl heq.symm
    · rw [if_neg hj]
      split
      · rename_i hl
        have hnone : s.headers[l]? ≠ some j := by
          rw [hl, Array.getElem?_eq_none le_rfl]
          nofun
        refine iff_of_false (fun heq => hj (Option.some.inj heq).symm) fun hjl => ?_
        exact hnone ((h.headers l j).2 hjl)
      · exact h.headers l j
  · show (s.headers.push id).size ≤ maxLoops
    rw [Array.size_push]
    omega
  · intro j
    rw [hblock]
    split
    · rename_i hj
      rw [hj]
      exact fun _ => List.mem_append_left _ hid
    · exact h.seen j
  · intro j hj
    rw [hblock]
    split
    · exact fun _ => (LoopMask.mem_toList_single hfew).2 rfl
    · exact h.own j hj
  · intro done c rest horder t ht
    refine (h.edge done c rest horder t ht).imp_right fun ⟨hmem, hheader', hmask⟩ => ?_
    have hc : c ≠ id := hleft c (by rw [show s.order = done ++ c :: rest from horder]; simp)
    rw [hblock, hblock, if_neg (hkeep t hheader'), if_neg hc]
    exact ⟨hmem, hheader', hmask⟩
  · intro j hj
    rw [hblock]
    split
    · exact fun _ l hl => (LoopMask.mem_toList_single hfew).1 hl
    · exact h.only j hj
  · intro c hc l hl
    rw [hblock, if_neg (hleft c hc)] at hl
    obtain ⟨j, hj, hcircles⟩ := h.circles c hc l hl
    refine ⟨j, ?_, hcircles⟩
    obtain ⟨hlt, -⟩ := Array.getElem?_eq_some_iff.1 hj
    show (s.headers.push id)[l]? = some j
    rw [Array.getElem?_push, if_neg (Nat.ne_of_lt hlt), hj]

theorem Walking.meets_addHeader (h : Walking base P first path s) (hbase : Closed base P)
    (hlimit : limit ≤ maxLoops) (hid : id ∈ path) :
    Meets (Ordering.addHeader limit id) s
      (fun _ s' => Walking base P first path s' ∧ Onward limit s s' ∧
        (s'.blocks.block id).isLoopHeader ∧ ∀ h, (s'.blocks.block h).isLoopHeader →
          (s.blocks.block h).isLoopHeader ∨ h = id)
      (· ≠ .nonReducibleLoop) := by
  have hrange : id.index < s.blocks.size := by
    rw [h.flow.size]
    exact hbase.range id (h.within id (List.mem_append_left _ hid))
  unfold Ordering.addHeader block
  refine meets_observe.2 ?_
  by_cases hheader : (s.blocks.block id).isLoopHeader
  · rw [if_pos hheader]
    exact meets_pure.2 ⟨h, .refl _, hheader, fun _ => .inl⟩
  rw [if_neg hheader]
  split
  · exact meets_throw.2 nofun
  refine meets_read.2 ?_
  dsimp only
  split
  · exact meets_throw.2 nofun
  rename_i hfew
  refine meets_change.2 (meets_modify.2 ?_)
  have hsame (j : BlockId) (hj : j ≠ id) (f : Block → Block) :
      Blocks.block (s.blocks.modify id f) j = s.blocks.block j := by
    rw [Blocks.block_modify, if_neg fun hh => hj hh.1]
  refine ⟨h.addHeader hrange hid hheader (by omega), ⟨List.suffix_refl _, fun j hj => ?_, fun c hc => ?_,
    fun _ => ?_⟩, ?_, fun j hj => ?_⟩
  · have hne : j ≠ id := by
      rintro rfl
      exact hheader hj
    dsimp only
    rw [hsame j hne]
    exact ⟨hj, rfl⟩
  · have hne : c ≠ id := by
      rintro rfl
      exact (List.nodup_append.1 h.nodup).2.2 _ hid _ hc rfl
    dsimp only
    rw [hsame c hne]
  · show (s.headers.push id).size ≤ limit
    rw [Array.size_push]
    omega
  · show (Blocks.block (s.blocks.modify id _) id).isLoopHeader
    rw [Blocks.block_modify, if_pos ⟨rfl, hrange⟩]
  · refine or_iff_not_imp_right.2 fun hne => ?_
    dsimp only at hj
    rwa [hsame j hne] at hj

/-- The walk can go on to a block from the path. -/
structure LeadsTo (base : Blocks) (first : BlockId) (path : List BlockId) (id : BlockId) : Prop where
  edge : ∀ p ∈ path.head?, id ∈ (base.block p).successors
  start : path = [] → id = first

/-- A loop for which control that goes to `t` goes back to the header: `t` is the header, or leads
to it. -/
def Returns (base : Blocks) (first : BlockId) (path : List BlockId) (s : Ordering) (l : Nat)
    (t : BlockId) : Prop :=
  ∃ h, s.headers[l]? = some h ∧
    (h = t ∧ t ∈ path ∨ t ≠ h ∧ Circles base first (path.reverse ++ s.order) h t)

theorem Walking.loop_lt (h : Walking base P first path s)
    (hheader : (s.blocks.block id).isLoopHeader) : (s.blocks.block id).loop < 64 := by
  obtain ⟨hlt, -⟩ := Array.getElem?_eq_some_iff.1 ((h.headers _ id).2 ⟨hheader, rfl⟩)
  exact Nat.lt_of_lt_of_le hlt h.few

theorem Walking.headers_mono (h : Walking base P first path s) (h' : Walking base P first path s')
    (hkeeps : KeepsHeaders s s') {j : BlockId} (hj : s.headers[l]? = some j) :
    s'.headers[l]? = some j := by
  obtain ⟨hheader, hloop⟩ := (h.headers l j).1 hj
  obtain ⟨hheader', hloop'⟩ := hkeeps j hheader
  exact (h'.headers l j).2 ⟨hheader', hloop'.trans hloop⟩

theorem Returns.mono (hl : Returns base first path s l t) (h : Walking base P first path s)
    (h' : Walking base P first path s') (hs : Onward limit s s') : Returns base first path s' l t := by
  obtain ⟨j, hj, hreturn⟩ := hl
  refine ⟨j, h.headers_mono h' hs.headers hj, hreturn.imp_right fun ⟨hne, hcircles⟩ => ⟨hne, ?_⟩⟩
  exact hcircles.mono ((List.Sublist.refl _).append hs.order.sublist)

/-- A block that was left lies in the loops around it because it leads back to their headers. -/
theorem Walking.returns (h : Walking base P first path s) (hid : id ∈ s.order)
    (hl : l ∈ LoopMask.toList (outerLoops (s.blocks.block id))) : Returns base first path s l id := by
  obtain ⟨hmem, hown⟩ := (mem_outerLoops fun hheader => h.loop_lt hheader).1 hl
  obtain ⟨j, hj, hcircles⟩ := h.circles id hid l hmem
  refine ⟨j, hj, .inr ⟨?_, hcircles⟩⟩
  rintro rfl
  obtain ⟨hheader, hloop⟩ := (h.headers l id).1 hj
  exact hown hheader hloop.symm

/-- A block on the path that leads back to a header does so by a back edge, or through one of its
successors. -/
theorem Walking.circles_of_returns (h : Walking base P first (id :: path) s)
    (ht : t ∈ (base.block id).successors) (hl : Returns base first (id :: path) s l t) :
    ∃ j, s.headers[l]? = some j ∧ Circles base first (path.reverse ++ id :: s.order) j id := by
  obtain ⟨j, hj, ⟨rfl, hpath⟩ | ⟨hne, hcircles⟩⟩ := hl
  · refine ⟨j, hj, .back ⟨ht, ?_, ?_⟩⟩
    · refine (List.mem_cons.1 hpath).imp_right fun hmem => ?_
      have habove : [j].Sublist path.reverse := List.singleton_sublist.2 (List.mem_reverse.2 hmem)
      have hbelow : [id].Sublist (id :: s.order) := List.singleton_sublist.2 (List.mem_cons_self ..)
      exact habove.append hbelow
    · obtain ⟨above, below, hsplit⟩ := List.append_of_mem (List.mem_reverse.2 hpath)
      have hlast : (above ++ j :: below).getLast? = some id := by rw [← hsplit]; simp
      refine ⟨above, below, hsplit ▸ h.stack, ?_, ?_, ?_⟩
      · rw [← hsplit, List.nodup_reverse]
        exact (List.nodup_append.1 h.nodup).1
      · rw [← hsplit, List.head?_reverse]
        cases hbottom : (id :: path).getLast? with
        | none => simp at hbottom
        | some c => rw [h.bottom c hbottom]
      · simpa using hlast
  · refine ⟨j, hj, .step ht hne ?_⟩
    simpa using hcircles

/-- The walk goes to a new block. -/
theorem Walking.enter (h : Walking base P first path s) (hP : P id) (hid : id ∉ path ++ s.order)
    (hfrom : LeadsTo base first path id) :
    Walking base P first (id :: path)
      { s with visited := s.visited.insert id.index, active := s.active.insert id.index } := by
  have hindex (c : BlockId) : c.index = id.index ↔ c = id := by
    cases c; cases id; simp
  refine ⟨h.flow, ?_, List.nodup_cons.2 ⟨hid, h.nodup⟩, ?_, ?_, h.headers, h.few,
    fun c hc => List.mem_cons_of_mem _ (h.seen c hc), ?_, ?_, ?_, ?_, ?_, ?_⟩
  · rintro c (_ | ⟨_, hc⟩)
    · exact hP
    · exact h.within c hc
  · intro c
    rw [BitSet.contains_insert, hindex, h.visited]
    simp
  · intro c
    rw [BitSet.contains_insert, hindex, h.active]
    simp
  · rintro c (_ | ⟨_, hc⟩) hc'
    · exact absurd (h.seen id hc') hid
    · exact h.own c hc hc'
  · intro done c rest horder t ht
    refine (h.edge done c rest horder t ht).imp_right fun ⟨hmem, hrest⟩ => ⟨?_, hrest⟩
    exact List.mem_cons_of_mem _ hmem
  · rw [List.reverse_cons]
    refine h.stack.append (.singleton id) fun c hc t ht => ?_
    cases ht
    exact hfrom.edge c (by simpa using hc)
  · intro c hc
    cases path with
    | nil => exact (Option.some.inj hc).symm.trans (hfrom.start rfl)
    | cons p path => exact h.bottom c (by simpa using hc)
  · rintro c (_ | ⟨_, hc⟩) hc'
    · exact absurd (h.seen id hc') hid
    · exact h.only c hc hc'
  · intro c hc l hl
    obtain ⟨j, hj, hcircles⟩ := h.circles c hc l hl
    refine ⟨j, hj, hcircles.mono ?_⟩
    rw [List.reverse_cons, List.append_assoc]
    exact (List.Sublist.refl _).append (List.sublist_append_right ..)

/-- Leaving a block only sets its mask. -/
theorem Walking.onward_leave (h : Walking base P first (id :: path) s) (hbase : Closed base P)
    (mask : LoopMask) (limit : Nat) :
    let s' := { s with
      blocks := s.blocks.modify id fun b => { b with loops := mask }
      active := s.active.erase id.index
      order := id :: s.order }
    Onward limit s s' ∧ (∀ j, (s'.blocks.block j).isLoopHeader = (s.blocks.block j).isLoopHeader ∧
      (s'.blocks.block j).loop = (s.blocks.block j).loop) ∧ (s'.blocks.block id).loops = mask := by
  intro s'
  have hrange : id.index < s.blocks.size := by
    rw [h.flow.size]
    exact hbase.range id (h.within id (by simp))
  have hblock (j : BlockId) : s'.blocks.block j =
      if j = id ∧ id.index < s.blocks.size then { s.blocks.block j with loops := mask }
      else s.blocks.block j := Blocks.block_modify
  have hsame (j : BlockId) : (s'.blocks.block j).isLoopHeader = (s.blocks.block j).isLoopHeader ∧
      (s'.blocks.block j).loop = (s.blocks.block j).loop := by
    rw [hblock]
    split <;> exact ⟨rfl, rfl⟩
  refine ⟨⟨List.suffix_cons .., fun j hj => ⟨(hsame j).1.trans hj, (hsame j).2⟩, fun c hc => ?_, fun h => h⟩,
    hsame, by rw [hblock, if_pos ⟨rfl, hrange⟩]⟩
  rw [hblock, if_neg]
  rintro ⟨rfl, -⟩
  exact (List.nodup_cons.1 h.nodup).1 (List.mem_append_right _ hc)

/-- The walk leaves a block. -/
theorem Walking.leave (h : Walking base P first (id :: path) s) (hbase : Closed base P)
    (hdone : ∀ t ∈ (base.block id).successors, Settled (id :: path) s mask t)
    (hmask : ∀ l ∈ LoopMask.toList mask, ∃ t ∈ (base.block id).successors,
      Returns base first (id :: path) s l t) :
    Walking base P first path
      { s with
        blocks := s.blocks.modify id fun b => { b with loops := mask }
        active := s.active.erase id.index
        order := id :: s.order } := by
  have hrange : id.index < s.blocks.size := by
    rw [h.flow.size]
    exact hbase.range id (h.within id (by simp))
  have hindex (c : BlockId) : c.index = id.index ↔ c = id := by
    cases c; cases id; simp
  have hperm : (path ++ id :: s.order).Perm (id :: path ++ s.order) := List.perm_middle
  have hnodup := List.nodup_cons.1 h.nodup
  have hpath : id ∉ path := fun hh => hnodup.1 (List.mem_append_left _ hh)
  have hblock (j : BlockId) : Blocks.block (s.blocks.modify id fun b => { b with loops := mask }) j =
      if j = id then { s.blocks.block id with loops := mask } else s.blocks.block j := by
    rw [Blocks.block_modify]
    by_cases hj : j = id <;> simp [hj, hrange]
  have hsame := (h.onward_leave hbase mask 0).2.1
  refine ⟨h.flow.modify id fun _ => rfl, fun c hc => h.within c (hperm.mem_iff.1 hc),
    hperm.nodup_iff.2 h.nodup, fun c => (h.visited c).trans hperm.mem_iff.symm, ?_, ?_, h.few,
    ?_, ?_, ?_, ?_, ?_, ?_, ?_⟩
  · intro c
    rw [BitSet.contains_erase, ne_eq, hindex, h.active]
    refine ⟨fun ⟨hne, hc⟩ => (List.mem_cons.1 hc).resolve_left hne, fun hc => ⟨?_, by simp [hc]⟩⟩
    rintro rfl
    exact hpath hc
  · intro l j
    rw [h.headers, (hsame j).1, (hsame j).2]
  · intro j hj
    rw [(hsame j).1] at hj
    exact hperm.mem_iff.2 (h.seen j hj)
  · intro j hj hheader
    have hne : j ≠ id := by
      rintro rfl
      exact hpath hj
    rw [(hsame j).1] at hheader
    rw [(hsame j).2, hblock, if_neg hne]
    exact h.own j (List.mem_cons_of_mem _ hj) hheader
  · intro done c rest horder t ht
    show t ∈ rest ∨ _
    rw [(hsame t).1, (hsame t).2]
    cases done with
    | nil =>
      obtain ⟨rfl, rfl⟩ := List.cons.inj horder
      rcases hdone t ht with hleft | ⟨hmem, hheader, hloop⟩
      · exact .inl hleft
      · refine .inr ⟨?_, hheader, by rwa [hblock, if_pos rfl]⟩
        exact hperm.mem_iff.2 (List.mem_append_left _ hmem)
    | cons first done =>
      obtain ⟨rfl, hrest⟩ := List.cons.inj horder
      replace hrest : s.order = done ++ c :: rest := hrest
      have hc : c ≠ id := by
        rintro rfl
        exact hnodup.1 (List.mem_append_right _ (hrest ▸ by simp))
      rcases h.edge done c rest hrest t ht with hleft | ⟨hmem, hheader, hloop⟩
      · exact .inl hleft
      · exact .inr ⟨hperm.mem_iff.2 hmem, hheader, by rwa [hblock, if_neg hc]⟩
  · have hstack := h.stack
    rw [List.reverse_cons] at hstack
    exact hstack.left_of_append
  · intro c hc
    cases path with
    | nil => cases hc
    | cons p path => exact h.bottom c (by simpa using hc)
  · intro j hj hheader
    have hne : j ≠ id := by
      rintro rfl
      exact hpath hj
    rw [(hsame j).1] at hheader
    rw [(hsame j).2, hblock, if_neg hne]
    exact h.only j (List.mem_cons_of_mem _ hj) hheader
  · intro c hc l hl
    rw [hblock] at hl
    split at hl
    · rename_i hcid
      obtain ⟨t, ht, hreturns⟩ := hmask l hl
      exact hcid ▸ h.circles_of_returns ht hreturns
    · rename_i hcid
      obtain ⟨j, hj, hcircles⟩ := h.circles c ((List.mem_cons.1 hc).resolve_left hcid) l hl
      exact ⟨j, hj, by simpa using hcircles⟩

/-- A header that is found heads a loop around a block that was left, or is one of the loops `mask`. -/
def Finds (s : Ordering) (mask : LoopMask) (s' : Ordering) : Prop :=
  ∀ h, (s'.blocks.block h).isLoopHeader = true → (s.blocks.block h).isLoopHeader = true ∨ Marked s' h ∨
    (s'.blocks.block h).loop ∈ LoopMask.toList mask

/-- A walk from one block more finds what it finds. -/
theorem Finds.trans (h : Finds s mask s')
    (h' : Finds s' mask' s'') (hs : Onward limit s' s'') : Finds s (mask ||| mask') s'' := by
  intro j hj
  rcases h' j hj with hj' | hmarked | hloop
  · have hloop := (hs.headers j hj').2
    refine (h j hj').imp_right (Or.imp (fun hmarked => hmarked.mono hs hloop) fun hmem => ?_)
    exact LoopMask.mem_toList_or.2 (.inl (hloop ▸ hmem))
  · exact .inr (.inl hmarked)
  · exact .inr (.inr (LoopMask.mem_toList_or.2 (.inr hloop)))

/-- A walk from a block settles the edge to it; it starts at the block if that is new. -/
theorem Walking.meets_visit (hbase : Closed base P) (hlimit : limit ≤ maxLoops) :
    ∀ {fuel : Nat} {id : BlockId} {path : List BlockId} {s : Ordering}, Walking base P first path s →
      P id → LeadsTo base first path id → base.size + 1 ≤ fuel + (path ++ s.order).length →
      Meets (visit limit fuel id) s
        (fun mask s' => Walking base P first path s' ∧ Onward limit s s' ∧
          Settled path s' mask id ∧ (∀ l ∈ LoopMask.toList mask, Returns base first path s' l id) ∧
          (id ∉ path ++ s.order → s'.order.head? = some id) ∧ Finds s mask s')
        (· ≠ .nonReducibleLoop) := by
  intro fuel
  induction fuel with
  | zero =>
    intro id path s h _ _ hfuel
    have := length_le_of_nodup h.nodup fun c hc => hbase.range c (h.within c hc)
    omega
  | succ fuel ih =>
    intro id path s h hP hfrom hfuel
    rw [visit]
    refine meets_read.2 ?_
    by_cases hvisited : s.visited.contains id.index
    · rw [if_pos hvisited]
      have hseen := (h.visited id).1 hvisited
      by_cases hactive : s.active.contains id.index
      · rw [if_pos hactive]
        have hpath := (h.active id).1 hactive
        refine (h.meets_addHeader hbase hlimit hpath).bind fun _ s1 h1 => ?_
        obtain ⟨h1, hs1, hheader, hfound⟩ := h1
        refine meets_observe.2 (meets_pure.2 ?_)
        refine ⟨h1, hs1, .inr ⟨hpath, hheader, h1.own id hpath hheader⟩,
          fun l hl => ?_, fun hnew => absurd hseen hnew, fun j hj => (hfound j hj).imp_right fun hjid => .inr ?_⟩
        · have hl := h1.only id hpath hheader l hl
          exact ⟨id, (h1.headers l id).2 ⟨hheader, hl.symm⟩, .inl ⟨rfl, hpath⟩⟩
        · exact hjid ▸ h1.own id hpath hheader
      · rw [if_neg hactive]
        have hleft : id ∈ s.order := (List.mem_append.1 hseen).resolve_left fun hpath =>
          hactive ((h.active id).2 hpath)
        exact meets_pure.2 ⟨h, .refl _, .inl hleft, fun l hl => h.returns hleft hl,
          fun hnew => absurd hseen hnew, fun _ => .inl⟩
    · rw [if_neg hvisited]
      have hnew : id ∉ path ++ s.order := fun hmem => hvisited ((h.visited id).2 hmem)
      have henter := h.enter hP hnew hfrom
      have hsuccessors := h.flow.successors id
      refine meets_change.2 ?_
      rw [hsuccessors]
      -- the successors that are left to walk from are those of the list that is left
      refine (Meets.foldlM (fun left mask s1 => Walking base P first (id :: path) s1 ∧
        Onward limit s s1 ∧ left ⊆ (base.block id).successors ∧
        (∀ t ∈ (base.block id).successors, t ∈ left ∨ Settled (id :: path) s1 mask t) ∧
        (∀ l ∈ LoopMask.toList mask, ∃ t ∈ (base.block id).successors,
          Returns base first (id :: path) s1 l t) ∧ Finds s mask s1) ?_ ?_).bind fun mask s2 h2 => ?_
      · exact ⟨henter, { (Onward.refl limit : Onward limit s s) with }, List.Subset.refl _, fun t ht => .inl ht,
          by simp [LoopMask.toList_zero], fun _ => .inl⟩
      · rintro t left mask s1 ⟨h1, hs1, hleft, hdone, hmask, hfound⟩
        have hlen := hs1.order.length_le
        have ht := hleft (List.mem_cons_self ..)
        have hto : LeadsTo base first (id :: path) t := ⟨fun p hp => Option.some.inj hp ▸ ht, nofun⟩
        refine (ih h1 (hbase.step id hP t ht) hto ?_).bind fun mask' s2 h2 => meets_pure.2 ?_
        · simp only [List.length_append, List.length_cons] at hfuel ⊢
          omega
        · obtain ⟨h2, hs2, hsettled, hreturns, -, hfound2⟩ := h2
          refine ⟨h2, hs1.trans hs2, fun x hx => hleft (List.mem_cons_of_mem _ hx), fun u hu => ?_,
            fun l hl => ?_, hfound.trans hfound2 hs2⟩
          swap
          · rcases LoopMask.mem_toList_or.1 hl with hl | hl
            · obtain ⟨u, hu, hul⟩ := hmask l hl
              exact ⟨u, hu, hul.mono h1 h2 hs2⟩
            · exact ⟨t, ht, hreturns l hl⟩
          rcases hdone u hu with hmem | hu
          · refine (List.mem_cons.1 hmem).symm.imp_right fun heq => ?_
            exact heq ▸ hsettled.mono (Onward.refl limit)
              fun l hl => LoopMask.mem_toList_or.2 (.inr hl)
          · exact .inr (hu.mono hs2 fun l hl => LoopMask.mem_toList_or.2 (.inl hl))
      · obtain ⟨h2, hs2, -, hdone, hmask, hfound⟩ := h2
        have hleave := h2.leave hbase (fun t ht => (hdone t ht).resolve_left List.not_mem_nil) hmask
        refine meets_change.2 (meets_change.2 ?_)
        refine meets_observe.2 (meets_pure.2 ?_)
        have hleft := h2.onward_leave hbase mask limit
        refine ⟨hleave, hs2.trans hleft.1, .inl (List.mem_cons_self ..),
          fun l hl => hleave.returns (List.mem_cons_self ..) hl, fun _ => rfl, fun j hj => ?_⟩
        obtain ⟨hheader, hloop⟩ := hleft.2.1 j
        refine (hfound j (hheader ▸ hj)).imp_right fun hmarked => .inl ?_
        rcases hmarked with hmarked | hmem
        · exact hmarked.mono hleft.1 hloop
        · exact ⟨id, List.mem_cons_self .., by rwa [hloop, hleft.2.2]⟩

theorem Walking.init (hheaders : ∀ id, (base.block id).isLoopHeader = false) :
    Walking base P first [] { blocks := base } :=
  ⟨.refl .., nofun, .nil, by simp, by simp, by simp [hheaders], Nat.zero_le _, by simp [hheaders],
    nofun, by simp, .nil, nofun, nofun, nofun⟩

end Ordering

/-- The walk from the start orders the blocks that are reached, the start first. -/
theorem ends_order {P : BlockId → Prop} {start : BlockId} {limit : Nat} (hbase : Closed base P)
    (hstart : P start) (hlimit : limit ≤ maxLoops)
    (hheaders : ∀ id, (base.block id).isLoopHeader = false) :
    Ends (order base start limit)
      (fun s => Ordering.Walking base P start [] s ∧ s.order.head? = some start ∧
        (∀ h, (s.blocks.block h).isLoopHeader → s.Marked h) ∧ s.headers.size ≤ limit)
      fun e => e = .nonReducibleLoop → ∃ order h, h ≠ start ∧ Circles base start order h start := by
  have hvisit : Meets (Ordering.visit limit (base.size + 1) start) _ _ _ :=
    (Ordering.Walking.init hheaders).meets_visit hbase hlimit hstart ⟨nofun, fun _ => rfl⟩ (Nat.le_add_right ..)
  unfold order
  refine ends_bind.2 (Ends.mono hvisit ?_ fun e he heq => absurd heq he)
  rintro ⟨mask, s⟩ ⟨h, hs, -, hreturns, hhead, hfound⟩
  dsimp only
  split
  · rename_i hmask
    -- a loop around the start is not headed by it
    intro _
    obtain ⟨l, hl⟩ := not_forall_not.1 fun hnone => hmask (LoopMask.eq_zero_iff.2 hnone)
    obtain ⟨j, -, ⟨-, hpath⟩ | ⟨hne, hcircles⟩⟩ := hreturns l hl
    · cases hpath
    · exact ⟨_, j, hne.symm, hcircles⟩
  · rename_i hmask
    refine ⟨h, hhead nofun, fun j hj => ?_, hs.few (Nat.zero_le _)⟩
    rcases hfound j hj with hold | hmarked | hloop
    · exact absurd hold (Bool.eq_false_iff.1 (hheaders j))
    · exact hmarked
    · rw [not_not.1 hmask, LoopMask.toList_zero] at hloop
      cases hloop

end Flow

end SeaOfNodes
