import SeaOfNodes.Proofs.Flow.Layout
import SeaOfNodes.Proofs.Flow.Scope

/-!
# Copies of blocks

What the steps of inlining do: a copy of a block for a scope is looked up or made, a successor of a block
is redirected to the copy for the scope in which it is reached, and a return is linked to where the call
continues. After any number of steps each block is a copy of one that was found in the code, and leads to
copies of what that one leads to.
-/

namespace SeaOfNodes

/-- A block without what inlining changes. -/
def Block.look (b : Block) : Block :=
  { b with successors := [], callee := none, continuation := none, scope := .empty }

variable {b' b : Block}

section

variable (h : b.look = b'.look)

include h

theorem Block.endsSubroutine_eq_of_look :
    b.endsSubroutine = b'.endsSubroutine := by
  have := congrArg Block.endsSubroutine h
  exact this

theorem Block.kind_eq_of_look : b.kind = b'.kind := by
  have := congrArg Block.kind h
  exact this

theorem Block.isLoopHeader_eq_of_look :
    b.isLoopHeader = b'.isLoopHeader := by
  have := congrArg Block.isLoopHeader h
  exact this

theorem Block.returnBci_eq_of_look :
    b.returnBci = b'.returnBci := by
  have := congrArg Block.returnBci h
  exact this

theorem Block.start_eq_of_look : b.start = b'.start := by
  have := congrArg Block.start h
  exact this

theorem Block.stop_eq_of_look : b.stop = b'.stop := by
  have := congrArg Block.stop h
  exact this

end

namespace Flow.Inlining

variable {d : Discovery} {blocks blocks' : Blocks} {s s' : Inlining} {b : Block} {id o x y t : BlockId}
  {σ τ : Scope} {place : Nat} {blockAt : Array (Option BlockId)} {fail : Bailout → Prop} {I : Inlining → Prop}
  {f : Block → Block}

/-! ### The steps -/

/-- A copy is asked for: it is known already, or it is made. -/
inductive Copied (s : Inlining) (y : BlockId) (τ : Scope) : BlockId → Inlining → Prop
  | known {x : BlockId} (h : ((y, τ), x) ∈ s.copies) : Copied s y τ x s
  | made (h : s.copies.lookup (y, τ) = none) : Copied s y τ s.blocks.next
      { s with
        blocks := s.blocks.push { s.blocks.block y with scope := τ }
        copies := ((y, τ), s.blocks.next) :: s.copies }

theorem meets_copyFor (y : BlockId) (τ : Scope) :
    Meets (copyFor y τ) s (fun x s' => Copied s y τ x s') (· ≠ .nonReducibleLoop) := by
  unfold copyFor
  refine meets_read.2 ?_
  cases hlookup : s.copies.lookup (y, τ) with
  | some x =>
    obtain ⟨before, after, heq, -⟩ := List.lookup_eq_some_iff.1 hlookup
    exact meets_pure.2 (.known (by rw [heq]; simp))
  | none => exact meets_bind.2 (meets_set.2 (meets_pure.2 (.made hlookup)))

/-- The scope in which a successor is reached. -/
structure After (b : Block) (t : BlockId) (τ : Scope) : Prop where
  left : b.continuation = some t → τ = b.scope.pop
  entered : b.continuation ≠ some t → b.callee = some t → b.scope.push b.returnBci = .ok τ
  stays : b.continuation ≠ some t → b.callee ≠ some t → τ = b.scope

theorem meets_after (b : Block) (t : BlockId) :
    Meets (scopeAfter b t) s (fun τ s' => s = s' ∧ After b t τ) (· ≠ .nonReducibleLoop) := by
  unfold scopeAfter
  dsimp only
  split
  · rename_i hcallee
    cases hpush : b.scope.push b.returnBci with
    | error e =>
      rintro rfl
      unfold Scope.push at hpush
      split at hpush <;> cases hpush
    | ok σ =>
      refine meets_pure.2 ⟨rfl, fun hc => if_pos hc, fun hc _ => ?_, fun _ hn => absurd hcallee hn⟩
      rw [if_neg hc]
      exact hpush
  · rename_i hcallee
    exact meets_pure.2 ⟨rfl, fun hc => if_pos hc, fun _ hn => absurd hn hcallee, fun hc _ => if_neg hc⟩

/-- The block with the successor `t` at a place redirected to `x`. -/
def redirect (place : Nat) (t x : BlockId) (b : Block) : Block :=
  { b with
    successors := b.successors.set place x
    callee := if b.callee = some t then some x else b.callee
    continuation := if b.continuation = some t then some x else b.continuation }

/-- The successor at a place is redirected, unless it is reached outside of subroutines. -/
inductive Retargeted (s : Inlining) (id : BlockId) (place : Nat) : Inlining → Prop
  | missing (h : (s.blocks.block id).successors[place]? = none) : Retargeted s id place s
  | outside {t : BlockId} (hplace : (s.blocks.block id).successors[place]? = some t)
    (hafter : After (s.blocks.block id) t .empty) : Retargeted s id place s
  | inside {t x : BlockId} {τ : Scope} {s1 : Inlining}
    (hplace : (s.blocks.block id).successors[place]? = some t) (hafter : After (s.blocks.block id) t τ)
    (hne : τ ≠ .empty) (hcopied : Copied s t τ x s1) :
    Retargeted s id place { s1 with blocks := s1.blocks.modify id (redirect place t x) }

theorem meets_retarget (id : BlockId) (place : Nat) :
    Meets (retarget id place) s (fun _ s' => Retargeted s id place s') (· ≠ .nonReducibleLoop) := by
  unfold retarget
  refine meets_observe.2 ?_
  split
  · rename_i t hplace
    refine (meets_after _ t).bind ?_
    rintro τ _ ⟨rfl, hafter⟩
    refine meets_observe.2 ?_
    dsimp only
    split
    · nofun
    split
    · rename_i hempty
      exact meets_pure.2 (.outside hplace (Scope.isEmpty_iff.1 hempty ▸ hafter))
    · rename_i hempty
      refine (meets_copyFor t τ).bind fun x s1 hcopied => meets_modify.2 ?_
      exact .inside hplace hafter (fun he => hempty (Scope.isEmpty_iff.2 he)) hcopied
  · rename_i hplace
    exact meets_pure.2 (.missing (Option.eq_none_iff_forall_ne_some.2 hplace))

/-- The block with a continuation, which is the last of its successors. -/
def link (target : BlockId) (b : Block) : Block :=
  { b with continuation := some target, successors := b.successors ++ [target] }

theorem meets_addContinuation (blockAt : Array (Option BlockId)) (id : BlockId) (σ : Scope) :
    Meets (addContinuation blockAt id σ) s (fun _ s' => σ ≠ .empty ∧ ∃ target,
      blockAt[σ.returnAddress]? = some (some target) ∧
      s' = { s with blocks := s.blocks.modify id (link target) }) (· ≠ .nonReducibleLoop) := by
  unfold addContinuation
  dsimp only
  split
  · nofun
  rename_i hempty
  split
  · nofun
  rename_i target htarget
  exact meets_modify.2 ⟨fun he => hempty (Scope.isEmpty_iff.2 he), target, Option.join_eq_some_iff.1 htarget,
    rfl⟩

theorem meets_enter (h : I { s with visited := s.visited.insert id.index })
    (hret : ∀ s, I s → (s.blocks.block id).endsSubroutine →
      Meets (addContinuation blockAt id (s.blocks.block id).scope) s (fun _ s' => I s') fail) :
    Meets (enter blockAt id) s (fun _ s' => I s') fail := by
  have hplaces {s : Inlining} (h : I s) (b : Block) : Meets (do
      if b.callee.isSome || !b.scope.isEmpty then return List.range (← block id).successors.length
      return []) s (fun _ s' => I s') fail := by
    split
    · exact meets_observe.2 (meets_pure.2 h)
    · exact meets_pure.2 h
  unfold enter
  refine meets_change.2 (meets_observe.2 ?_)
  dsimp only
  split
  · rename_i hends
    exact (hret _ h hends).bind fun _ _ h1 => hplaces h1 _
  · exact hplaces h _

/-- A visit keeps what its steps keep. -/
theorem meets_visit_of_steps (hvisited : ∀ s visited, I s → I { s with visited })
    (hret : ∀ id s, I s → (s.blocks.block id).endsSubroutine →
      Meets (addContinuation blockAt id (s.blocks.block id).scope) s (fun _ s' => I s') fail)
    (hretarget : ∀ id place s, I s → Meets (retarget id place) s (fun _ s' => I s') fail) :
    ∀ {fuel : Nat} {id : BlockId} {s : Inlining}, I s →
      Meets (visit blockAt fuel id) s (fun _ s' => I s') fail := by
  intro fuel
  induction fuel with
  | zero => exact fun h => meets_pure.2 h
  | succ fuel ih =>
    intro id s h
    rw [visit]
    refine (meets_enter (hvisited s _ h) (hret id)).bind fun places s1 h1 => ?_
    refine (Meets.forIn (fun _ s' => I s') h1 fun place _ s2 h2 => ?_).bind fun _ s2 h2 => ?_
    · exact (hretarget id place s2 h2).bind fun _ _ h3 => meets_pure.2 ⟨rfl, h3⟩
    · refine meets_observe.2 ?_
      refine (Meets.forIn (fun _ s' => I s') h2 fun successor _ s3 h3 => ?_).bind fun _ _ h => meets_pure.2 h
      refine meets_read.2 ?_
      split
      · exact (ih h3).bind fun _ _ h4 => meets_pure.2 ⟨rfl, h4⟩
      · exact meets_pure.2 ⟨rfl, h3⟩

/-! ### What the steps leave alone -/

/-- Scopes and looks stay. -/
structure Preserves (blocks blocks' : Blocks) : Prop where
  size : blocks.size ≤ blocks'.size
  scope : ∀ x : BlockId, x.index < blocks.size → (blocks'.block x).scope = (blocks.block x).scope
  look : ∀ x : BlockId, x.index < blocks.size → (blocks'.block x).look = (blocks.block x).look

theorem Preserves.refl : Preserves blocks blocks := ⟨Nat.le_refl _, fun _ _ => rfl, fun _ _ => rfl⟩

theorem Preserves.trans {blocks'' : Blocks} (h : Preserves blocks blocks')
    (h' : Preserves blocks' blocks'') : Preserves blocks blocks'' where
  size := h.size.trans h'.size
  scope x hx := (h'.scope x (Nat.lt_of_lt_of_le hx h.size)).trans (h.scope x hx)
  look x hx := (h'.look x (Nat.lt_of_lt_of_le hx h.size)).trans (h.look x hx)

theorem block_push_of_lt (hx : x.index < blocks.size) :
    Blocks.block (blocks.push b) x = blocks.block x := by
  rw [Blocks.block_push, if_neg]
  rintro rfl
  exact absurd hx (Nat.lt_irrefl _)

theorem block_push_next : Blocks.block (blocks.push b) blocks.next = b := by
  rw [Blocks.block_push, if_pos rfl]

theorem lt_or_eq_next (hx : x.index < Arena.size (blocks.push b)) :
    x.index < blocks.size ∨ x = blocks.next := by
  rw [Blocks.size_push] at hx
  rcases Nat.lt_or_eq_of_le (Nat.le_of_lt_succ hx) with hx | hx
  · exact .inl hx
  · exact .inr (by cases x; cases hx; rfl)

theorem preserves_modify (hscope : ∀ b, (f b).scope = b.scope)
    (hlook : ∀ b, (f b).look = b.look) : Preserves blocks (blocks.modify id f) := by
  refine ⟨by simp, fun x _ => ?_, fun x _ => ?_⟩ <;> rw [Blocks.block_modify] <;> split
  · exact hscope _
  · rfl
  · exact hlook _
  · rfl

/-- Blocks are added. -/
structure Appends (s s' : Inlining) : Prop where
  size : s.blocks.size ≤ s'.blocks.size
  same : ∀ x : BlockId, x.index < s.blocks.size → s'.blocks.block x = s.blocks.block x
  visited : s'.visited = s.visited

theorem Appends.preserves (h : Appends s s') : Preserves s.blocks s'.blocks :=
  ⟨h.size, fun x hx => by rw [h.same x hx], fun x hx => by rw [h.same x hx]⟩

theorem Copied.appends (h : Copied s y τ x s') : Appends s s' := by
  cases h with
  | known _ => exact ⟨Nat.le_refl _, fun _ _ => rfl, rfl⟩
  | made _ => exact ⟨by simp, fun x hx => block_push_of_lt hx, rfl⟩

/-! ### Likeness -/

/-- The block is a copy of `o`: it leads to copies of what `o` leads to, and a return leads to code. -/
structure Like (d : Discovery) (blocks : Blocks) (o : BlockId) (b : Block) : Prop where
  look : b.look = (d.blocks.block o).look
  calls : b.callee.isSome = (d.blocks.block o).callee.isSome
  leads : b.endsSubroutine = false → b.successors.map (fun t => (blocks.block t).look) =
    (d.blocks.block o).successors.map fun t => (d.blocks.block t).look
  returns : b.endsSubroutine = true → ∀ t ∈ b.successors, (blocks.block t).kind = .bytecodes
  callee : ∀ t, b.callee = some t → t ∈ b.successors
  continuation : ∀ t, b.continuation = some t → t ∈ b.successors

theorem Like.mono (h : Like d blocks o b) (hrange : ∀ t ∈ b.successors, t.index < blocks.size)
    (hp : Preserves blocks blocks') : Like d blocks' o b where
  look := h.look
  calls := h.calls
  leads hb := by
    rw [← h.leads hb]
    exact List.map_congr_left fun t ht => hp.look t (hrange t ht)
  returns hb t ht := by
    rw [Block.kind_eq_of_look (hp.look t (hrange t ht))]
    exact h.returns hb t ht
  callee := h.callee
  continuation := h.continuation

/-- What goes along with the successors still does when one of them is redirected. -/
theorem mem_set_of_link {l : List BlockId} {link : Option BlockId} (hplace : l[place]? = some t)
    (hlink : ∀ u, link = some u → u ∈ l) (u : BlockId)
    (hu : (if link = some t then some x else link) = some u) : u ∈ l.set place x := by
  split at hu
  · cases hu
    exact List.mem_set (List.getElem?_eq_some_iff.1 hplace).1 _
  · rename_i hne
    obtain ⟨j, hj⟩ := List.mem_iff_getElem?.1 (hlink u hu)
    refine List.mem_iff_getElem?.2 ⟨j, ?_⟩
    rw [List.getElem?_set_ne, hj]
    rintro rfl
    exact hne (hu.trans (hj.symm.trans hplace))

theorem Like.redirect (h : Like d blocks o b) (hplace : b.successors[place]? = some t)
    (hx : (blocks.block x).look = (blocks.block t).look) :
    Like d blocks o (Inlining.redirect place t x b) where
  look := h.look
  calls := by
    rw [← h.calls]
    unfold Inlining.redirect
    dsimp only
    split
    · rename_i hcallee
      rw [hcallee]
      rfl
    · rfl
  leads hb := by
    rw [← h.leads hb]
    obtain ⟨hlt, hget⟩ := List.getElem?_eq_some_iff.1 hplace
    unfold Inlining.redirect
    rw [List.map_set, hx, ← hget]
    exact List.ext_getElem (by simp) fun i hi hi' => by grind
  returns hb u hu := by
    rcases List.mem_or_eq_of_mem_set hu with hu | rfl
    · exact h.returns hb u hu
    · rw [Block.kind_eq_of_look hx]
      exact h.returns hb t (List.mem_of_getElem? hplace)
  callee := mem_set_of_link hplace h.callee
  continuation := mem_set_of_link hplace h.continuation

/-- What holds of the blocks that are found. -/
structure Founded (d : Discovery) : Prop where
  range : ∀ x, ∀ t ∈ (d.blocks.block x).successors, t.index < d.blocks.size
  place : ∀ (i : Nat) (t : BlockId), d.blockAt[i]? = some (some t) →
    t.index < d.blocks.size ∧ (d.blocks.block t).kind = .bytecodes
  ret : ∀ x, (d.blocks.block x).endsSubroutine = true → (d.blocks.block x).successors = [] ∧
    (d.blocks.block x).callee = none
  callee : ∀ x t, (d.blocks.block x).callee = some t → t ∈ (d.blocks.block x).successors
  fresh : ∀ x, (d.blocks.block x).Fresh

/-- Each block is a copy of one that was found. -/
structure Likeness (d : Discovery) (s : Inlining) : Prop where
  size : d.blocks.size ≤ s.blocks.size
  look : ∀ x : BlockId, x.index < d.blocks.size → (s.blocks.block x).look = (d.blocks.block x).look
  copy : ∀ e ∈ s.copies, e.1.1.index < s.blocks.size ∧ e.2.index < s.blocks.size ∧
    (s.blocks.block e.2).look = (s.blocks.block e.1.1).look
  like : ∀ x : BlockId, x.index < s.blocks.size → ∃ o : BlockId, o.index < d.blocks.size ∧
    Like d s.blocks o (s.blocks.block x)
  range : ∀ x, ∀ t ∈ (s.blocks.block x).successors, t.index < s.blocks.size

theorem Likeness.init (hd : Founded d) : Likeness d { blocks := d.blocks } where
  size := Nat.le_refl _
  look _ _ := rfl
  copy := nofun
  like x hx := by
    refine ⟨x, hx, rfl, rfl, fun _ => rfl, fun hb t ht => ?_, hd.callee x, fun t ht => ?_⟩
    · rw [(hd.ret x hb).1] at ht
      cases ht
    · cases (hd.fresh x).continuation.symm.trans ht
  range := hd.range

/-- A copy looks like the block that it is a copy of. -/
theorem Likeness.copied (h : Likeness d s) (hy : y.index < s.blocks.size) (hc : Copied s y τ x s') :
    Likeness d s' ∧ x.index < s'.blocks.size ∧ (s'.blocks.block x).look = (s.blocks.block y).look := by
  have happends := hc.appends
  have hp := happends.preserves
  cases hc with
  | known hx => exact ⟨h, (h.copy _ hx).2⟩
  | made _ =>
    have hnext : s.blocks.next.index <
        Arena.size (s.blocks.push { s.blocks.block y with scope := τ }) :=
      Blocks.size_push.symm ▸ Nat.lt_succ_self _
    refine ⟨⟨h.size.trans hp.size, fun x hx => ?_, ?_, fun x hx => ?_, fun x t ht => ?_⟩, hnext, ?_⟩
    · exact (hp.look x (Nat.lt_of_lt_of_le hx h.size)).trans (h.look x hx)
    · rintro e (_ | ⟨_, he⟩)
      · refine ⟨Nat.lt_of_lt_of_le hy hp.size, hnext, ?_⟩
        rw [hp.look y hy, block_push_next]
        rfl
      · obtain ⟨hsource, hrange, hlook⟩ := h.copy e he
        exact ⟨Nat.lt_of_lt_of_le hsource hp.size, Nat.lt_of_lt_of_le hrange hp.size,
          by rw [hp.look _ hrange, hp.look _ hsource, hlook]⟩
    · rcases lt_or_eq_next hx with hx | rfl
      · obtain ⟨o, ho, hlike⟩ := h.like x hx
        rw [happends.same x hx]
        exact ⟨o, ho, hlike.mono (h.range x) hp⟩
      · obtain ⟨o, ho, hlike⟩ := h.like y hy
        have hlike' := hlike.mono (h.range y) hp
        rw [block_push_next]
        exact ⟨o, ho, { hlike' with look := hlike'.look }⟩
    · dsimp only at ht
      rw [Blocks.block_push] at ht
      split at ht
      · exact Nat.lt_of_lt_of_le (h.range y t ht) hp.size
      · exact Nat.lt_of_lt_of_le (h.range x t ht) hp.size
    · rw [block_push_next]
      rfl

/-- A block is changed, and stays a copy of what it was a copy of. -/
theorem Likeness.modify (h : Likeness d s) (hscope : ∀ b, (f b).scope = b.scope)
    (hlook : ∀ b, (f b).look = b.look)
    (hlike : ∀ o, Like d s.blocks o (s.blocks.block id) → Like d s.blocks o (f (s.blocks.block id)))
    (hrange : ∀ t ∈ (f (s.blocks.block id)).successors, t.index < s.blocks.size) :
    Likeness d { s with blocks := s.blocks.modify id f } := by
  have hp : Preserves s.blocks (s.blocks.modify id f) := preserves_modify hscope hlook
  have hsize : Arena.size (s.blocks.modify id f) = s.blocks.size := Blocks.size_modify
  have hsucc (x : BlockId) (t : BlockId) (ht : t ∈ (Blocks.block (s.blocks.modify id f) x).successors) :
      t.index < s.blocks.size := by
    rw [Blocks.block_modify] at ht
    split at ht
    · rename_i hx
      exact hrange t (hx.1 ▸ ht)
    · exact h.range x t ht
  refine ⟨h.size.trans hp.size, fun x hx => ?_, fun e he => ?_, fun x hx => ?_,
    fun x t ht => hsize ▸ hsucc x t ht⟩
  · exact (hp.look x (Nat.lt_of_lt_of_le hx h.size)).trans (h.look x hx)
  · obtain ⟨hsource, hrange, hlook⟩ := h.copy e he
    exact ⟨hsize.symm ▸ hsource, hsize.symm ▸ hrange, by rw [hp.look _ hrange, hp.look _ hsource, hlook]⟩
  · obtain ⟨o, ho, hx'⟩ := h.like x (hsize ▸ hx)
    refine ⟨o, ho, Like.mono (?_ : Like d s.blocks o _) (hsucc x) hp⟩
    dsimp only
    rw [Blocks.block_modify]
    split
    · rename_i hid
      rw [hid.1] at hx' ⊢
      exact hlike o hx'
    · exact hx'

theorem Likeness.redirect (h : Likeness d s) (hplace : (s.blocks.block id).successors[place]? = some t)
    (hx : x.index < s.blocks.size) (hlook : (s.blocks.block x).look = (s.blocks.block t).look) :
    Likeness d { s with blocks := s.blocks.modify id (Inlining.redirect place t x) } := by
  refine h.modify (fun _ => rfl) (fun _ => rfl) (fun o ho => ho.redirect hplace hlook) fun u hu => ?_
  rcases List.mem_or_eq_of_mem_set hu with hu | rfl
  · exact h.range id u hu
  · exact hx

theorem Likeness.link {target : BlockId} (h : Likeness d s)
    (hends : (s.blocks.block id).endsSubroutine) (htrange : target.index < d.blocks.size)
    (hkind : (d.blocks.block target).kind = .bytecodes) :
    Likeness d { s with blocks := s.blocks.modify id (Inlining.link target) } := by
  refine h.modify (fun _ => rfl) (fun _ => rfl)
    (fun o ho => ⟨ho.look, ho.calls, fun h => ?_, fun _ t ht => ?_,
      fun t ht => List.mem_append_left _ (ho.callee t ht), fun t ht => ?_⟩) fun t ht => ?_
  · exact absurd (hends.symm.trans h) nofun
  · rcases List.mem_append.1 ht with ht | ht
    · exact ho.returns hends t ht
    · rw [List.mem_singleton.1 ht, Block.kind_eq_of_look (h.look target htrange)]
      exact hkind
  · cases ht
    exact List.mem_append_right _ (List.mem_singleton.2 rfl)
  · rcases List.mem_append.1 ht with ht | ht
    · exact h.range id t ht
    · rw [List.mem_singleton.1 ht]
      exact Nat.lt_of_lt_of_le htrange h.size

theorem Likeness.retargeted (h : Likeness d s) (hr : Retargeted s id place s') : Likeness d s' := by
  cases hr with
  | missing _ | outside _ _ => exact h
  | @inside t x τ s1 hplace _ _ hcopied =>
    have hid : id.index < s.blocks.size := by
      by_contra hid
      rw [Blocks.block_of_le (Nat.le_of_not_lt hid)] at hplace
      cases hplace
    have ht := h.range id t (List.mem_of_getElem? hplace)
    obtain ⟨h1, hx, hlook⟩ := h.copied ht hcopied
    rw [← hcopied.appends.same id hid] at hplace
    exact h1.redirect hplace hx (by rw [hlook, hcopied.appends.same t ht])

theorem Likeness.meets_visit (hd : Founded d) {fuel : Nat} (h : Likeness d s) :
    Meets (visit d.blockAt fuel id) s (fun _ s' => Likeness d s') (· ≠ .nonReducibleLoop) := by
  refine meets_visit_of_steps (fun _ _ h => { h with }) (fun id s h hends => ?_) (fun id place s h => ?_) h
  · refine (meets_addContinuation d.blockAt id _).imp fun _ s' hs' => ?_
    obtain ⟨-, target, htarget, rfl⟩ := hs'
    obtain ⟨htrange, hkind⟩ := hd.place _ _ htarget
    exact h.link hends htrange hkind
  · exact (meets_retarget id place).imp fun _ s' hs' => h.retargeted hs'

theorem Likeness.ends_visit (hd : Founded d) (first : BlockId) (fuel : Nat) :
    Ends (do
      let (_, s) ← (visit d.blockAt fuel first).run { blocks := d.blocks }
      return s.blocks : Except Bailout Blocks)
      (fun blocks => ∃ s : Inlining, s.blocks = blocks ∧ Likeness d s) (· ≠ .nonReducibleLoop) :=
  ends_bind.2 (Ends.mono ((Likeness.init hd).meets_visit hd) (fun r hr => ends_ok.2 ⟨r.2, rfl, hr⟩)
    fun _ he => he)

theorem Likeness.ends_inlineSubroutines (hd : Founded d) (first : BlockId) :
    Ends (inlineSubroutines d first) (fun blocks => ∃ s : Inlining, s.blocks = blocks ∧ Likeness d s)
      (· ≠ .nonReducibleLoop) :=
  Likeness.ends_visit hd first (depthBound d.blocks.size)

end Flow.Inlining

end SeaOfNodes
