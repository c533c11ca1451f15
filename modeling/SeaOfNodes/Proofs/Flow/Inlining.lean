import SeaOfNodes.Proofs.Flow.Likeness

/-!
# Scopes of copies

Inlining goes on into the copies that it made, and copies blocks that it redirected before. A copy stands
in a deeper scope than the block that it is a copy of, which bounds how many copies there are. A block that
was dealt with leads into the scopes that its own scope demands; any other block is as it was found, or is
a copy of one that was dealt with in a shallower scope. The latter happens only if a call stands both
outside and inside of subroutines.
-/

namespace SeaOfNodes

/-- How many subroutines are active. -/
def Scope.depth (s : Scope) : Nat := s.addresses.length

theorem Scope.depth_pos {s : Scope} : 0 < s.depth ↔ s ≠ .empty := by
  rw [depth, List.length_pos_iff, ne_eq, addresses_eq_nil_iff]

@[simp] theorem Scope.depth_empty : Scope.empty.depth = 0 := rfl

theorem Scope.depth_pop (s : Scope) : s.pop.depth = s.depth - 1 := by
  rw [depth, addresses_pop, List.length_tail, depth]

theorem Scope.depth_le_of_push {s t : Scope} {bci : Nat} (h : s.push bci = .ok t) : t.depth ≤ s.depth + 1 := by
  by_cases hne : t = .empty
  · rw [hne]
    exact Nat.zero_le _
  · rw [depth, addresses_push h hne]
    exact Nat.le_refl _

namespace Flow.Inlining

variable {d : Discovery} {blocks blocks' : Blocks} {S S' : BlockId → Prop} {flux : Option BlockId}
  {done done' : List BlockId} {s s' : Inlining} {b : Block} {id o x y t : BlockId} {σ τ : Scope}
  {mixed' mixed : Prop}

/-! ### What was found -/

/-- An address to which a subroutine returns: unless the code is so long that addresses wrap around, a block
starts there. -/
def Returns (d : Discovery) (bci : Nat) : Prop :=
  d.blockAt.size ≤ 65535 → ∀ t, d.blockAt[bci]? = some (some t) → (d.blocks.block t).start = bci

/-- What the blocks that are found say of subroutines. -/
structure Callable (d : Discovery) : Prop extends Founded d where
  call : ∀ x t, (d.blocks.block x).callee = some t → (d.blocks.block x).successors = [t] ∧
    (d.blocks.block x).endsSubroutine = false ∧ Returns d ((d.blocks.block x).returnBci % 65536)

/-! ### Copies and their scopes -/

/-- The scopes of an entry of the table of copies. -/
structure IsCopy (d : Discovery) (blocks : Blocks) (e : (BlockId × Scope) × BlockId) : Prop where
  new : d.blocks.size ≤ e.2.index
  scope : (blocks.block e.2).scope = e.1.2
  deeper : (blocks.block e.1.1).scope.depth < e.1.2.depth

/-- What holds of the blocks and copies at any time. -/
structure Grown (d : Discovery) (s : Inlining) : Prop extends Likeness d s where
  old : ∀ x : BlockId, x.index < d.blocks.size → (s.blocks.block x).scope = .empty
  copies : ∀ e ∈ s.copies, IsCopy d s.blocks e
  new : ∀ x : BlockId, d.blocks.size ≤ x.index → x.index < s.blocks.size → ∃ e ∈ s.copies, e.2 = x
  keys : ∀ e ∈ s.copies, ∀ e' ∈ s.copies, e.1 = e'.1 → e.2 = e'.2
  scopes : ∀ x, ∀ a ∈ (s.blocks.block x).scope.addresses, Returns d a

theorem Grown.init (hd : Callable d) : Grown d { blocks := d.blocks } where
  toLikeness := .init hd.toFounded
  old x _ := (hd.fresh x).scope
  copies := nofun
  new x hx hlt := absurd hlt (Nat.not_lt_of_le hx)
  keys := nofun
  scopes x a ha := by
    rw [(hd.fresh x).scope] at ha
    cases ha

theorem Grown.isCopy_mono (h : Grown d s) (hp : Preserves s.blocks blocks')
    {e : (BlockId × Scope) × BlockId} (he : e ∈ s.copies) : IsCopy d blocks' e := by
  obtain ⟨hsource, hrange, -⟩ := h.copy e he
  obtain ⟨hnew, hscope, hdeeper⟩ := h.copies e he
  exact ⟨hnew, (hp.scope _ hrange).trans hscope, by rwa [hp.scope _ hsource]⟩

/-- A block is copied into a deeper scope. -/
theorem Grown.copied (h : Grown d s) (hy : y.index < s.blocks.size)
    (hdepth : (s.blocks.block y).scope.depth < τ.depth) (hτ : ∀ a ∈ τ.addresses, Returns d a)
    (hc : Copied s y τ x s') : Grown d s' ∧ (s'.blocks.block x).scope = τ := by
  have hlikeness := (h.toLikeness.copied hy hc).1
  have hp := hc.appends.preserves
  cases hc with
  | known hx => exact ⟨h, (h.copies _ hx).scope⟩
  | made hnone =>
    have hnone' (x : BlockId) : ((y, τ), x) ∉ s.copies := fun hx =>
      absurd rfl (bne_iff_ne.1 (List.lookup_eq_none_iff.1 hnone _ hx))
    refine ⟨⟨hlikeness, fun x hx => ?_, ?_, fun x hx hlt => ?_, ?_, fun x a ha => ?_⟩, by rw [block_push_next]⟩
    · exact (hp.scope x (Nat.lt_of_lt_of_le hx h.size)).trans (h.old x hx)
    · rintro e (_ | ⟨_, he⟩)
      · refine ⟨h.size, by rw [block_push_next], ?_⟩
        rw [hp.scope y hy]
        exact hdepth
      · exact h.isCopy_mono hp he
    · rcases lt_or_eq_next hlt with hlt | rfl
      · obtain ⟨e, he, heq⟩ := h.new x hx hlt
        exact ⟨e, List.mem_cons_of_mem _ he, heq⟩
      · exact ⟨_, List.mem_cons_self, rfl⟩
    · rintro ⟨k, x⟩ (_ | ⟨_, he⟩) ⟨k', x'⟩ (_ | ⟨_, he'⟩) hk
      · rfl
      · cases hk
        exact absurd he' (hnone' _)
      · cases hk
        exact absurd he (hnone' _)
      · exact h.keys _ he _ he' hk
    · dsimp only at ha
      rw [Blocks.block_push] at ha
      split at ha
      · exact hτ a ha
      · exact h.scopes x a ha

/-- A block is changed, but not its scope. -/
theorem Grown.modify (h : Grown d s) {f : Block → Block} (hscope : ∀ b, (f b).scope = b.scope)
    (hlook : ∀ b, (f b).look = b.look) (hlike : Likeness d { s with blocks := s.blocks.modify id f }) :
    Grown d { s with blocks := s.blocks.modify id f } := by
  have hp : Preserves s.blocks (s.blocks.modify id f) := preserves_modify hscope hlook
  have hsize : Arena.size (s.blocks.modify id f) = s.blocks.size := Blocks.size_modify
  refine ⟨hlike, fun x hx => ?_, fun e he => h.isCopy_mono hp he, fun x hx hlt => h.new x hx (hsize ▸ hlt),
    h.keys, fun x a ha => ?_⟩
  · exact (hp.scope x (Nat.lt_of_lt_of_le hx h.size)).trans (h.old x hx)
  · by_cases hx : x.index < s.blocks.size
    · exact h.scopes x a (hp.scope x hx ▸ ha)
    · dsimp only at ha
      rw [Blocks.block_of_le (by rw [hsize]; omega)] at ha
      cases ha

/-! ### How many copies there are -/

theorem Grown.lookup (h : Grown d s) (hx : ((y, τ), x) ∈ s.copies) :
    s.copies.lookup (y, τ) = some x := by
  cases hlookup : s.copies.lookup (y, τ) with
  | none => exact absurd rfl (bne_iff_ne.1 (List.lookup_eq_none_iff.1 hlookup _ hx))
  | some x' =>
    obtain ⟨before, after, heq, -⟩ := List.lookup_eq_some_iff.1 hlookup
    have hx' : ((y, τ), x') ∈ s.copies := by rw [heq]; simp
    exact congrArg some (h.keys _ hx' _ hx rfl)

/-- The blocks in scopes of at most `k` subroutines. -/
def level (blocks : Blocks) (k : Nat) : Finset Nat :=
  (Finset.range blocks.size).filter fun i => (blocks.block ⟨i⟩).scope.depth ≤ k

theorem Grown.card_level_zero (h : Grown d s) : (level s.blocks 0).card ≤ d.blocks.size := by
  have hsub : level s.blocks 0 ⊆ Finset.range d.blocks.size := by
    intro i hi
    obtain ⟨hlt, hdepth⟩ := Finset.mem_filter.1 hi
    refine Finset.mem_range.2 (Nat.lt_of_not_le fun hle => ?_)
    obtain ⟨e, he, heq⟩ := h.new ⟨i⟩ hle (Finset.mem_range.1 hlt)
    have hcopy := h.copies e he
    have := hcopy.deeper
    rw [← hcopy.scope, heq] at this
    omega
  simpa using Finset.card_le_card hsub

/-- A block one level deeper is found by the block that it is a copy of and by its scope. -/
theorem Grown.card_level_succ (h : Grown d s) (k : Nat) :
    (level s.blocks (k + 1)).card ≤ (level s.blocks k).card * (2 ^ 64 + 1) := by
  let find : Nat × Nat → Nat := fun key =>
    ((s.copies.lookup (⟨key.1⟩, ⟨UInt64.ofNat key.2⟩)).map Handle.index).getD 0
  have hsub : level s.blocks (k + 1) ⊆
      level s.blocks k ∪ (level s.blocks k ×ˢ Finset.range (2 ^ 64)).image find := by
    intro i hi
    obtain ⟨hlt, hdepth⟩ := Finset.mem_filter.1 hi
    by_cases hk : (s.blocks.block ⟨i⟩).scope.depth ≤ k
    · exact Finset.mem_union_left _ (Finset.mem_filter.2 ⟨hlt, hk⟩)
    refine Finset.mem_union_right _ (Finset.mem_image.2 ?_)
    have hnew : d.blocks.size ≤ i := by
      by_contra hold
      rw [h.old ⟨i⟩ (by dsimp only; omega)] at hk
      exact hk (Nat.zero_le _)
    obtain ⟨⟨⟨y, τ⟩, x⟩, he, rfl⟩ := h.new ⟨i⟩ hnew (Finset.mem_range.1 hlt)
    have hcopy := h.copies _ he
    have hdeeper := hcopy.deeper
    rw [← hcopy.scope] at hdeeper
    dsimp only at hdeeper
    refine ⟨(y.index, τ.bits.toNat), Finset.mem_product.2 ⟨?_, ?_⟩, ?_⟩
    · have hy : (s.blocks.block y).scope.depth ≤ k := by omega
      exact Finset.mem_filter.2 ⟨Finset.mem_range.2 (h.copy _ he).1, hy⟩
    · exact Finset.mem_range.2 τ.bits.toNat_lt
    · have hlookup := h.lookup he
      simp only [find, UInt64.ofNat_toNat]
      rw [hlookup]
      rfl
  calc (level s.blocks (k + 1)).card
    _ ≤ _ := Finset.card_le_card hsub
    _ ≤ _ := Finset.card_union_le _ _
    _ ≤ (level s.blocks k).card + (level s.blocks k ×ˢ Finset.range (2 ^ 64)).card :=
      Nat.add_le_add_left Finset.card_image_le _
    _ = (level s.blocks k).card * (2 ^ 64 + 1) := by
      rw [Finset.card_product, Finset.card_range, Nat.mul_succ, Nat.add_comm]

/-- A scope has at most four addresses, so there are at most four levels of copies. -/
theorem Grown.size_le (h : Grown d s) : s.blocks.size ≤ d.blocks.size * (2 ^ 64 + 1) ^ 4 := by
  have hlevel (k : Nat) : (level s.blocks k).card ≤ d.blocks.size * (2 ^ 64 + 1) ^ k := by
    induction k with
    | zero => simpa using h.card_level_zero
    | succ k ih =>
      rw [Nat.pow_succ, ← Nat.mul_assoc]
      exact (h.card_level_succ k).trans (Nat.mul_le_mul_right _ ih)
  have hall : level s.blocks 4 = Finset.range s.blocks.size :=
    Finset.filter_true_of_mem fun i _ => Scope.length_addresses_le _
  have := hlevel 4
  rwa [hall, Finset.card_range] at this

/-! ### Blocks that lead into their scopes -/

/-- Where a return leads in a scope: to the place of the call, in the scope that is left after it. If the
block was copied after it was redirected, it leads to other blocks besides. -/
structure Returned (d : Discovery) (blocks : Blocks) (σ : Scope) (b : Block) : Prop where
  inside : σ ≠ .empty
  target : ∃ t origin, b.continuation = some t ∧ t ∈ b.successors ∧
    (blocks.block t).scope = σ.pop ∧ d.blockAt[σ.returnAddress]? = some (some origin) ∧
    (blocks.block t).look = (d.blocks.block origin).look
  single : σ.depth = 1 → b.successors.length = 1
  depth : ∀ t ∈ b.successors, σ.depth ≤ (blocks.block t).scope.depth + 1 ∧
    (blocks.block t).scope.depth ≤ σ.depth

/-- The block leads where a block in the scope `σ` has to lead. -/
structure Settled (d : Discovery) (blocks : Blocks) (σ : Scope) (b : Block) : Prop where
  plain : b.callee = none → b.endsSubroutine = false →
    b.continuation = none ∧ ∀ t ∈ b.successors, (blocks.block t).scope = σ
  call : ∀ t, b.callee = some t → b.continuation = none ∧ b.endsSubroutine = false ∧
    b.successors = [t] ∧ Returns d (b.returnBci % 65536) ∧ σ.push b.returnBci = .ok (blocks.block t).scope
  ret : b.endsSubroutine = true → b.callee = none ∧ Returned d blocks σ b

theorem Settled.mono (h : Settled d blocks σ b) (hrange : ∀ t ∈ b.successors, t.index < blocks.size)
    (hp : Preserves blocks blocks') : Settled d blocks' σ b := by
  refine ⟨fun hcallee hends => ?_, fun t ht => ?_, fun hends => ?_⟩
  · obtain ⟨hcontinuation, hscope⟩ := h.plain hcallee hends
    exact ⟨hcontinuation, fun t ht => (hp.scope t (hrange t ht)).trans (hscope t ht)⟩
  · obtain ⟨hcontinuation, hends, hsuccessors, hreturns, hpush⟩ := h.call t ht
    refine ⟨hcontinuation, hends, hsuccessors, hreturns, ?_⟩
    rw [hp.scope t (hrange t (by simp [hsuccessors])), hpush]
  · obtain ⟨hcallee, hinside, ⟨t, origin, hcontinuation, ht, hscope, horigin, hlook⟩, hsingle, hdepth⟩ :=
      h.ret hends
    refine ⟨hcallee, hinside, ⟨t, origin, hcontinuation, ht, ?_, horigin, ?_⟩, hsingle, fun t ht => ?_⟩
    · exact (hp.scope t (hrange t ht)).trans hscope
    · exact (hp.look t (hrange t ht)).trans hlook
    · rw [hp.scope t (hrange t ht)]
      exact hdepth t ht

theorem Settled.withScope (h : Settled d blocks σ b) : Settled d blocks σ { b with scope := τ } where
  plain := h.plain
  call := h.call
  ret hends :=
    have ⟨hcallee, hreturned⟩ := h.ret hends
    ⟨hcallee, hreturned.inside, hreturned.target, hreturned.single, hreturned.depth⟩

/-- The block is as it was found, but for its scope. -/
def Raw (d : Discovery) (b : Block) : Prop :=
  ∃ o : BlockId, o.index < d.blocks.size ∧ b = { d.blocks.block o with scope := b.scope }

/-- A call stands outside of subroutines and inside of one. The blocks `S` are dealt with, and `done` are
the successors that a block gets which is being dealt with. -/
def Mixed (S : BlockId → Prop) (done : List BlockId) (blocks : Blocks) : Prop :=
  ∃ j x, S j ∧ (blocks.block j).callee.isSome = true ∧ (blocks.block j).scope = .empty ∧
    x.index < blocks.size ∧ (blocks.block x).scope ≠ .empty ∧
    (blocks.block x).look = (blocks.block j).look ∧
    (x ∈ done ∨ ∃ y, S y ∧ x ∈ (blocks.block y).successors)

theorem Mixed.mono (h : Mixed S done blocks) (hp : Preserves blocks blocks')
    (hS : ∀ x, S x → S' x ∧ blocks'.block x = blocks.block x)
    (hdone : ∀ x ∈ done, x ∈ done' ∨ ∃ y, S' y ∧ x ∈ (blocks'.block y).successors) :
    Mixed S' done' blocks' := by
  obtain ⟨j, x, hj, hcallee, hempty, hx, hscope, hlook, href⟩ := h
  have hj' := (hS j hj).2
  refine ⟨j, x, (hS j hj).1, ?_, ?_, Nat.lt_of_lt_of_le hx hp.size, ?_, ?_, ?_⟩
  · rwa [hj']
  · rwa [hj']
  · rwa [hp.scope x hx]
  · rwa [hp.look x hx, hj']
  · rcases href with hx | ⟨y, hy, hx⟩
    · exact hdone x hx
    · exact .inr ⟨y, (hS y hy).1, (hS y hy).2.symm ▸ hx⟩

/-- A block that is not dealt with yet: it is as it was found, or a copy of a block that was dealt with in
a shallower scope. -/
inductive Pending (d : Discovery) (blocks : Blocks) (mixed : Prop) (b : Block) : Prop
  | raw (h : Raw d b)
  | settled (σ : Scope) (hσ : σ.depth < b.scope.depth) (h : Settled d blocks σ b) (hmixed : mixed)

/-- The blocks `S` are dealt with, the others wait, but for the one `flux` that is being dealt with. -/
structure Forms (d : Discovery) (S : BlockId → Prop) (flux : Option BlockId) (done : List BlockId)
    (blocks : Blocks) : Prop where
  range : ∀ x, S x → x.index < blocks.size
  apart : ∀ x, flux = some x → ¬S x
  settled : ∀ x, S x → Settled d blocks (blocks.block x).scope (blocks.block x)
  raw : ∀ x, S x → (blocks.block x).scope = .empty → (blocks.block x).callee = none →
    Raw d (blocks.block x)
  single : ∀ x, S x → (blocks.block x).endsSubroutine = true →
    (blocks.block x).successors.length = 1 ∨ Mixed S done blocks
  pending : ∀ x : BlockId, x.index < blocks.size → ¬S x → flux ≠ some x →
    Pending d blocks (Mixed S done blocks) (blocks.block x)

theorem Pending.imp (h : Pending d blocks mixed b) (hmixed : mixed → mixed') :
    Pending d blocks mixed' b := by
  cases h with
  | raw h => exact .raw h
  | settled σ hσ h hm => exact .settled σ hσ h (hmixed hm)

theorem Pending.mono (h : Pending d blocks mixed b)
    (hrange : ∀ t ∈ b.successors, t.index < blocks.size) (hp : Preserves blocks blocks')
    (hmixed : mixed → mixed') : Pending d blocks' mixed' b := by
  cases h with
  | raw h => exact .raw h
  | settled σ hσ h hm => exact .settled σ hσ (h.mono hrange hp) (hmixed hm)

/-- Blocks are added, and the block that is being dealt with changes. -/
theorem Forms.mono (h : Forms d S flux done blocks)
    (hrange : ∀ x, ∀ t ∈ (blocks.block x).successors, t.index < blocks.size)
    (hp : Preserves blocks blocks')
    (hsame : ∀ x : BlockId, x.index < blocks.size → flux ≠ some x → blocks'.block x = blocks.block x)
    (hdone : ∀ x ∈ done, x ∈ done')
    (hnew : ∀ x : BlockId, blocks.size ≤ x.index → x.index < blocks'.size →
      Pending d blocks' (Mixed S done' blocks') (blocks'.block x)) :
    Forms d S flux done' blocks' := by
  have hS (x : BlockId) (hx : S x) : blocks'.block x = blocks.block x :=
    hsame x (h.range x hx) fun hflux => h.apart x hflux hx
  have hmixed (hm : Mixed S done blocks) : Mixed S done' blocks' :=
    hm.mono hp (fun x hx => ⟨hx, hS x hx⟩) fun x hx => .inl (hdone x hx)
  refine ⟨fun x hx => Nat.lt_of_lt_of_le (h.range x hx) hp.size, h.apart, fun x hx => ?_,
    fun x hx => ?_, fun x hx => ?_, fun x hx hnot hflux => ?_⟩
  · rw [hS x hx]
    exact (h.settled x hx).mono (hrange x) hp
  · rw [hS x hx]
    exact h.raw x hx
  · rw [hS x hx]
    exact fun hends => (h.single x hx hends).imp_right hmixed
  · by_cases hlt : x.index < blocks.size
    · rw [hsame x hlt hflux]
      exact (h.pending x hlt hnot hflux).mono (hrange x) hp hmixed
    · exact hnew x (Nat.le_of_not_lt hlt) hx

/-- A block is about to be dealt with. -/
theorem Forms.start (h : Forms d S none done blocks) (hid : ¬S id) : Forms d S (some id) done blocks :=
  { h with
    apart := fun _ hx => Option.some.inj hx ▸ hid
    pending := fun x hx hnot _ => h.pending x hx hnot nofun }

/-- A block is dealt with. -/
theorem Forms.finish (h : Forms d S (some id) done blocks) (hid : id.index < blocks.size)
    (hsettled : Settled d blocks (blocks.block id).scope (blocks.block id))
    (hraw : (blocks.block id).scope = .empty → (blocks.block id).callee = none → Raw d (blocks.block id))
    (hsingle : (blocks.block id).endsSubroutine →
      (blocks.block id).successors.length = 1 ∨ Mixed S done blocks)
    (hdone : ∀ x ∈ done, x ∈ (blocks.block id).successors) :
    Forms d (fun x => S x ∨ x = id) none [] blocks := by
  have hmixed (hm : Mixed S done blocks) : Mixed (fun x => S x ∨ x = id) [] blocks :=
    hm.mono .refl (fun x hx => ⟨.inl hx, rfl⟩) fun x hx => .inr ⟨id, .inr rfl, hdone x hx⟩
  refine ⟨?_, nofun, ?_, ?_, ?_, fun x hx hnot _ => ?_⟩
  · rintro x (hx | rfl)
    · exact h.range x hx
    · exact hid
  · rintro x (hx | rfl)
    · exact h.settled x hx
    · exact hsettled
  · rintro x (hx | rfl)
    · exact h.raw x hx
    · exact hraw
  · rintro x (hx | rfl) hends
    · exact (h.single x hx hends).imp_right hmixed
    · exact (hsingle hends).imp_right hmixed
  · rw [not_or] at hnot
    exact (h.pending x hx hnot.1 fun he => hnot.2 (Option.some.inj he).symm).imp hmixed

/-! ### Making a copy -/

/-- A copy of a block that waits, or was dealt with, waits. -/
theorem Forms.pending_copy (h : Forms d S flux done blocks) (hy : y.index < blocks.size)
    (hflux : flux ≠ some y) (hdepth : (blocks.block y).scope.depth < τ.depth)
    (hmixed : S y → (blocks.block y).scope ≠ .empty → Mixed S done blocks) :
    Pending d blocks (Mixed S done blocks ∨ S y ∧ (blocks.block y).scope = .empty ∧
      (blocks.block y).callee.isSome) { blocks.block y with scope := τ } := by
  by_cases hSy : S y
  · by_cases hraw : (blocks.block y).scope = .empty ∧ (blocks.block y).callee = none
    · obtain ⟨o, ho, heq⟩ := h.raw y hSy hraw.1 hraw.2
      exact .raw ⟨o, ho, by rw [heq]⟩
    · refine .settled (blocks.block y).scope hdepth (h.settled y hSy).withScope ?_
      by_cases hscope : (blocks.block y).scope = .empty
      · exact .inr ⟨hSy, hscope, Option.isSome_iff_ne_none.2 fun hcallee => hraw ⟨hscope, hcallee⟩⟩
      · exact .inl (hmixed hSy hscope)
  · cases h.pending y hy hSy hflux with
    | raw h =>
      obtain ⟨o, ho, heq⟩ := h
      exact .raw ⟨o, ho, by rw [heq]⟩
    | settled σ hσ hsettled hm =>
      exact .settled σ (Nat.lt_trans hσ hdepth) hsettled.withScope (.inl hm)

theorem Forms.copied (hf : Forms d S flux done s.blocks) (hg : Grown d s) (hy : y.index < s.blocks.size)
    (hflux : flux ≠ some y) (hdepth : (s.blocks.block y).scope.depth < τ.depth)
    (hmixed : S y → (s.blocks.block y).scope ≠ .empty → Mixed S done s.blocks) (hc : Copied s y τ x s') :
    Forms d S flux (x :: done) s'.blocks := by
  have happends := hc.appends
  have hp := happends.preserves
  have hdone (u : BlockId) (hu : u ∈ done) : u ∈ x :: done := List.mem_cons_of_mem _ hu
  cases hc with
  | known hx =>
    exact hf.mono hg.range .refl (fun _ _ _ => rfl) hdone fun _ hle hlt => absurd hlt (Nat.not_lt_of_le hle)
  | made hnone =>
    refine hf.mono hg.range hp (fun x hx _ => block_push_of_lt hx) hdone fun x hle hlt => ?_
    obtain rfl := (lt_or_eq_next hlt).resolve_left (Nat.not_lt_of_le hle)
    dsimp only
    rw [block_push_next]
    refine (hf.pending_copy hy hflux hdepth hmixed).mono (hg.range y) hp ?_
    rintro (hm | ⟨hSy, hempty, hcallee⟩)
    · exact hm.mono hp (fun x hx => ⟨hx, block_push_of_lt (hf.range x hx)⟩) fun x hx => .inl (hdone x hx)
    · -- the block stands outside and its copy inside
      refine ⟨y, s.blocks.next, hSy, ?_, ?_, hlt, ?_, ?_, .inl List.mem_cons_self⟩
      · rwa [block_push_of_lt hy]
      · rwa [block_push_of_lt hy]
      · rw [block_push_next]
        exact Scope.depth_pos.1 (Nat.lt_of_le_of_lt (Nat.zero_le _) hdepth)
      · rw [block_push_of_lt hy, block_push_next]
        rfl

/-! ### Redirecting a successor -/

/-- A successor of the block that is being dealt with is redirected to its copy for a scope. -/
structure Redirected (d : Discovery) (S : BlockId → Prop) (done : List BlockId) (id : BlockId)
    (place : Nat) (t : BlockId) (τ : Scope) (s : Inlining) (x : BlockId) (s' : Inlining) : Prop where
  grown : Grown d s'
  forms : Forms d S (some id) (x :: done) s'.blocks
  preserves : Preserves s.blocks s'.blocks
  same : ∀ y : BlockId, y.index < s.blocks.size → y ≠ id → s'.blocks.block y = s.blocks.block y
  visited : s'.visited = s.visited
  scope : (s'.blocks.block x).scope = τ
  look : (s'.blocks.block x).look = (s.blocks.block t).look
  block : s'.blocks.block id = redirect place t x (s.blocks.block id)

theorem Forms.meets_retarget {place : Nat} (hf : Forms d S flux done s.blocks) (hg : Grown d s)
    (hid : id.index < s.blocks.size) (hnot : ¬S id) (hflux : flux = none ∨ flux = some id)
    (hplace : (s.blocks.block id).successors[place]? = some t) (ht : flux ≠ some t)
    (hτ : ∀ τ, After (s.blocks.block id) t τ → τ ≠ .empty →
      (s.blocks.block t).scope.depth < τ.depth ∧ ∀ a ∈ τ.addresses, Returns d a)
    (hmixed : S t → (s.blocks.block t).scope ≠ .empty → Mixed S done s.blocks) :
    Ensures (retarget id place) s (fun _ s' => After (s.blocks.block id) t .empty ∧ s' = s ∨
      ∃ τ x, τ ≠ .empty ∧ After (s.blocks.block id) t τ ∧ Redirected d S done id place t τ s x s') := by
  refine (Inlining.meets_retarget id place).ensures fun _ s' hr => ?_
  cases hr with
  | missing hnone => exact absurd (hplace.symm.trans hnone) nofun
  | outside hplace' hafter =>
    obtain rfl := Option.mem_unique hplace hplace'
    exact .inl ⟨hafter, rfl⟩
  | @inside t' x τ s1 hplace' hafter hne hcopied =>
    obtain rfl := Option.mem_unique hplace hplace'
    obtain ⟨hdepth, haddresses⟩ := hτ τ hafter hne
    have htrange := hg.range id t (List.mem_of_getElem? hplace)
    have happends := hcopied.appends
    obtain ⟨hg1, hscope⟩ := hg.copied htrange hdepth haddresses hcopied
    obtain ⟨hlikeness, hx, hlook⟩ := hg.toLikeness.copied htrange hcopied
    have hf1 : Forms d S (some id) (x :: done) s1.blocks := by
      have hf1 := hf.copied hg htrange ht hdepth hmixed hcopied
      rcases hflux with rfl | rfl
      · exact hf1.start hnot
      · exact hf1
    have hblock : s1.blocks.block id = s.blocks.block id := happends.same id hid
    have hp : Preserves s1.blocks (s1.blocks.modify id (redirect place t x)) :=
      preserves_modify (fun _ => rfl) fun _ => rfl
    refine .inr ⟨τ, x, hne, hafter, hg1.modify (fun _ => rfl) (fun _ => rfl) (hlikeness.redirect (hblock ▸ hplace)
      hx (by rw [hlook, happends.same t htrange])), hf1.mono hg1.range hp (fun y _ hy => ?_) (fun _ h => h) ?_,
      happends.preserves.trans hp, fun y hy hyid => ?_, happends.visited, (hp.scope x hx).trans hscope,
      (hp.look x hx).trans hlook, ?_⟩
    · rw [Blocks.block_modify, if_neg]
      rintro ⟨rfl, -⟩
      exact hy rfl
    · intro y hle hlt
      rw [Blocks.size_modify] at hlt
      exact absurd hlt (Nat.not_lt_of_le hle)
    · dsimp only
      rw [Blocks.block_modify, if_neg fun h => hyid h.1, happends.same y hy]
    · dsimp only
      rw [Blocks.block_modify, if_pos ⟨rfl, Nat.lt_of_lt_of_le hid happends.size⟩, hblock]

/-! ### Redirecting all successors -/

/-- The first `k` successors of a block are redirected. -/
structure Rewriting (d : Discovery) (S : BlockId → Prop) (id : BlockId) (s0 : Inlining) (k : Nat)
    (done : List BlockId) (s : Inlining) : Prop where
  grown : Grown d s
  forms : Forms d S (some id) done s.blocks
  preserves : Preserves s0.blocks s.blocks
  same : ∀ y : BlockId, y.index < s0.blocks.size → y ≠ id → s.blocks.block y = s0.blocks.block y
  visited : s.visited = s0.visited
  callee : (s.blocks.block id).callee = none
  rest : (s.blocks.block id).successors.drop k = (s0.blocks.block id).successors.drop k
  length : (s.blocks.block id).successors.length = (s0.blocks.block id).successors.length
  done : ∀ x ∈ done, x ∈ (s.blocks.block id).successors.take k

/-- Another successor is redirected to a block in the scope in which it is reached; that block is the
successor itself if the scope is empty. -/
theorem Rewriting.meets_retarget {s0 : Inlining} {k : Nat} (h : Rewriting d S id s0 k done s)
    (hid : id.index < s0.blocks.size) (hk : (s0.blocks.block id).successors[k]? = some t) (ht : t ≠ id)
    (htrange : t.index < s0.blocks.size)
    (hτ : ∀ τ, After (s.blocks.block id) t τ → τ ≠ .empty →
      (s0.blocks.block t).scope.depth < τ.depth ∧ ∀ a ∈ τ.addresses, Returns d a)
    (hempty : After (s.blocks.block id) t .empty → (s0.blocks.block t).scope = .empty)
    (hmixed : S t → (s0.blocks.block t).scope ≠ .empty → Mixed S done s.blocks) :
    Ensures (retarget id k) s (fun _ s' => ∃ τ x done', After (s.blocks.block id) t τ ∧
      Rewriting d S id s0 (k + 1) done' s' ∧ Preserves s.blocks s'.blocks ∧
      (s'.blocks.block id).successors.take (k + 1) = (s.blocks.block id).successors.take k ++ [x] ∧
      (s'.blocks.block id).continuation =
        (if (s.blocks.block id).continuation = some t then some x else (s.blocks.block id).continuation) ∧
      (s'.blocks.block x).scope = τ ∧ (s'.blocks.block x).look = (s0.blocks.block t).look) := by
  have hplace : (s.blocks.block id).successors[k]? = some t := by
    rw [← List.head?_drop, h.rest, List.head?_drop, hk]
  obtain ⟨hlt, hget⟩ := List.getElem?_eq_some_iff.1 hplace
  have hscope := h.preserves.scope t htrange
  have hlook := h.preserves.look t htrange
  refine (h.forms.meets_retarget h.grown (Nat.lt_of_lt_of_le hid h.preserves.size)
    (h.forms.apart id rfl) (.inr rfl) hplace (fun he => ht (Option.some.inj he).symm) (hscope ▸ hτ)
    (hscope ▸ hmixed)).imp fun _ s' h' => ?_
  obtain ⟨hafter, rfl⟩ | ⟨τ, x, -, hafter, hx⟩ := h'
  · refine ⟨.empty, t, done, hafter, { h with rest := ?_, done := fun x hx => ?_ }, .refl, ?_, ?_, hscope.trans (hempty hafter), hlook⟩
    · rw [← List.tail_drop, h.rest, List.tail_drop]
    · exact List.take_subset_take_left _ (Nat.le_succ k) (h.done x hx)
    · rw [List.take_add_one, hplace]
      rfl
    · split
      · assumption
      · rfl
  · have hsuccessors : (s'.blocks.block id).successors = (s.blocks.block id).successors.set k x := by
      rw [hx.block]
      rfl
    have htake : (s'.blocks.block id).successors.take (k + 1) =
        (s.blocks.block id).successors.take k ++ [x] := by
      rw [hsuccessors, List.take_add_one, List.take_set_of_le (Nat.le_refl k), List.getElem?_set_self hlt]
      rfl
    refine ⟨τ, x, x :: done, hafter, ⟨hx.grown, hx.forms, h.preserves.trans hx.preserves,
      fun y hy hyid => ?_, hx.visited.trans h.visited, ?_, ?_, ?_, fun y hy => ?_⟩, hx.preserves, htake, ?_,
      hx.scope, hx.look.trans hlook⟩
    · rw [hx.same y (Nat.lt_of_lt_of_le hy h.preserves.size) hyid, h.same y hy hyid]
    · rw [hx.block]
      unfold redirect
      dsimp only
      rw [h.callee, if_neg nofun]
    · rw [hsuccessors, List.drop_set_of_lt (Nat.lt_succ_self k), ← List.tail_drop, h.rest, List.tail_drop]
    · rw [hsuccessors, List.length_set, h.length]
    · rw [htake]
      rcases List.mem_cons.1 hy with rfl | hy
      · simp
      · exact List.mem_append_left _ (h.done y hy)
    · rw [hx.block]
      rfl

end Flow.Inlining

end SeaOfNodes
