import SeaOfNodes.Proofs.Flow.Order

/-!
# Completing the masks of loops

Masks only grow, and a walk that changes none of them has found them complete: a block belongs to all
loops around the blocks it leads to. Each other walk adds a bit to some mask, so that the walks come to
an end.
-/

namespace SeaOfNodes

/-- A block without its number, its loops and its exits. -/
def Block.outline (b : Block) : Block := { b with number := none, loops := 0, exits := 0 }

namespace LoopMask

variable {m m' : LoopMask}

theorem ext_toList (h : toList m = toList m') : m = m' := by
  refine UInt64.toNat_inj.1 (Nat.eq_of_testBit_eq fun l => ?_)
  have hl : m.toNat.testBit l ↔ m'.toNat.testBit l := by
    rw [← mem_toList, ← mem_toList, h]
  exact Bool.eq_iff_iff.2 hl

theorem toList_sublist (h : ∀ l ∈ toList m, l ∈ toList m') : (toList m).Sublist (toList m') :=
  List.monotone_filter_right _ fun l hl => mem_toList.1 (h l (mem_toList.2 hl))

theorem toList_subset_antisymm (h : ∀ l ∈ toList m, l ∈ toList m')
    (h' : ∀ l ∈ toList m', l ∈ toList m) : m = m' :=
  ext_toList ((toList_sublist h).antisymm (toList_sublist h'))

end LoopMask

namespace Flow

variable {base blocks blocks' : Blocks} {id c t : BlockId} {start : BlockId} {mask : LoopMask} {s : MaskWalk}

theorem outerLoops_congr {b b' : Block} (h : b.outline = b'.outline) (hloops : b.loops = b'.loops) :
    outerLoops b = outerLoops b' := by
  have hheader := congrArg Block.isLoopHeader h
  have hloop := congrArg Block.loop h
  change b.isLoopHeader = b'.isLoopHeader at hheader
  change b.loop = b'.loop at hloop
  unfold outerLoops
  rw [hheader, hloop, hloops]

theorem Alike.skeleton (h : Alike Block.outline base blocks) : Alike Block.skeleton base blocks := by
  refine ⟨h.size, fun id => ?_⟩
  have := congrArg Block.skeleton (h.block id)
  exact this

theorem Alike.isLoopHeader (h : Alike Block.outline base blocks) (id : BlockId) :
    (blocks.block id).isLoopHeader = (base.block id).isLoopHeader := by
  have := congrArg Block.isLoopHeader (h.block id)
  exact this

theorem Alike.loop (h : Alike Block.outline base blocks) (id : BlockId) :
    (blocks.block id).loop = (base.block id).loop := by
  have := congrArg Block.loop (h.block id)
  exact this

/-! ### Walks that change a state and cannot fail -/

section

variable {σ α β : Type} {post : PUnit → σ → Prop} {act : StateM σ α}

/-- A walk from `s` ends in a result and a state with `post`. -/
def Leads (act : StateM σ α) (s : σ) (post : α → σ → Prop) : Prop := post (act s).1 (act s).2

theorem leads_bind {k : α → StateM σ β} {s : σ} {post : β → σ → Prop} :
    Leads (act >>= k) s post ↔ Leads act s fun a s' => Leads (k a) s' post := Iff.rfl

theorem leads_pure {a : α} {s : σ} {post : α → σ → Prop} :
    Leads (pure a : StateM σ α) s post ↔ post a s := Iff.rfl

theorem leads_get {s : σ} {post : σ → σ → Prop} :
    Leads (get : StateM σ σ) s post ↔ post s s := Iff.rfl

theorem leads_set {s s' : σ} :
    Leads (set s' : StateM σ PUnit) s post ↔ post ⟨⟩ s' := Iff.rfl

theorem leads_modify {f : σ → σ} {s : σ} :
    Leads (modify f : StateM σ PUnit) s post ↔ post ⟨⟩ (f s) := Iff.rfl

theorem Leads.of_run {s s' : σ} {a : α} {post : α → σ → Prop} (h : Leads act s post)
    (hrun : act.run s = (a, s')) : post a s' := by
  unfold Leads at h
  rwa [show act s = (a, s') from hrun] at h

theorem Leads.imp {s : σ} {post post' : α → σ → Prop} (h : Leads act s post)
    (hpost : ∀ a s', post a s' → post' a s') : Leads act s post' := hpost _ _ h

theorem Leads.foldlM {l : List α} {b : β} {s : σ} {act : β → α → StateM σ β}
    (inv : List α → β → σ → Prop) (hs : inv l b s)
    (step : ∀ x rest b s, inv (x :: rest) b s → Leads (act b x) s fun b' s' => inv rest b' s') :
    Leads (l.foldlM act b) s fun b' s' => inv [] b' s' := by
  induction l generalizing b s with
  | nil => exact hs
  | cons x rest ih =>
    rw [List.foldlM_cons, leads_bind]
    exact (step x rest b s hs).imp fun b' s' h => ih h

theorem Leads.forIn {l : List α} {s : σ} {f : α → σ → σ} (inv : σ → Prop) (hs : inv s)
    (step : ∀ x s, inv s → inv (f x s)) :
    Leads (forIn l PUnit.unit fun x _ => do modify (f x); pure (.yield ⟨⟩) : StateM σ PUnit) s
      fun _ s' => inv s' := by
  induction l generalizing s with
  | nil => exact hs
  | cons x rest ih =>
    rw [List.forIn_cons, leads_bind, leads_bind]
    exact ih (step x s hs)

end

/-! ### One walk -/

namespace MaskWalk

variable {s s' s'' : MaskWalk} {n k fuel : Nat}

/-- What a walk does. -/
structure Grows (s s' : MaskWalk) : Prop where
  alike : Alike Block.outline s.blocks s'.blocks
  visited : ∀ i, s.visited.contains i = true → s'.visited.contains i = true
  /-- The masks of blocks that were visited before stay. -/
  kept : ∀ c : BlockId, s.visited.contains c.index = true →
    (s'.blocks.block c).loops = (s.blocks.block c).loops
  grows : ∀ c, ∀ l ∈ LoopMask.toList (s.blocks.block c).loops,
    l ∈ LoopMask.toList (s'.blocks.block c).loops
  same : s'.changed = false →
    s.changed = false ∧ ∀ c, (s'.blocks.block c).loops = (s.blocks.block c).loops
  differs : s'.changed = true → s.changed = true ∨
    ∃ c : BlockId, c.index < s.blocks.size ∧ (s'.blocks.block c).loops ≠ (s.blocks.block c).loops
  /-- The masks of the blocks that were visited are complete if no mask has grown. -/
  complete : ∀ c : BlockId, s'.visited.contains c.index = true → ¬s.visited.contains c.index = true →
    ∀ t ∈ (s.blocks.block c).successors, s'.visited.contains t.index = true ∧
      (s'.changed = false → ∀ l ∈ LoopMask.toList (outerLoops (s'.blocks.block t)),
        l ∈ LoopMask.toList (s'.blocks.block c).loops)

theorem Grows.refl (s : MaskWalk) : Grows s s :=
  ⟨.refl .., fun _ h => h, fun _ _ => rfl, fun _ _ h => h, fun h => ⟨h, fun _ => rfl⟩, .inl,
    fun _ h h' => absurd h h'⟩

/-- Masks that are not changed are seen alike from outside. -/
theorem Grows.outerLoops_eq (h : Grows s s') (hsame : s'.changed = false) (t : BlockId) :
    outerLoops (s'.blocks.block t) = outerLoops (s.blocks.block t) :=
  outerLoops_congr (h.alike.block t) ((h.same hsame).2 t)

theorem Grows.trans (h : Grows s s') (h' : Grows s' s'') : Grows s s'' := by
  refine ⟨h.alike.trans h'.alike, fun i hi => h'.visited i (h.visited i hi), fun c hc => ?_,
    fun c l hl => h'.grows c l (h.grows c l hl), fun hsame => ?_, fun hchanged => ?_, ?_⟩
  · rw [h'.kept c (h.visited _ hc), h.kept c hc]
  · obtain ⟨hsame', heq'⟩ := h'.same hsame
    obtain ⟨hsame, heq⟩ := h.same hsame'
    exact ⟨hsame, fun c => (heq' c).trans (heq c)⟩
  · rcases h'.differs hchanged with hchanged | ⟨c, hc, hne⟩
    · refine (h.differs hchanged).imp_right fun ⟨c, hc, hne⟩ => ⟨c, hc, fun heq => hne ?_⟩
      exact LoopMask.toList_subset_antisymm (fun l hl => heq ▸ h'.grows c l hl) (h.grows c)
    · refine .inr ⟨c, h.alike.size ▸ hc, fun heq => hne ?_⟩
      exact LoopMask.toList_subset_antisymm (fun l hl => h.grows c l (heq ▸ hl)) (h'.grows c)
  · intro c hc hnew t ht
    by_cases hc' : s'.visited.contains c.index
    · obtain ⟨hvisited, hcomplete⟩ := h.complete c hc' hnew t ht
      refine ⟨h'.visited _ hvisited, fun hsame l hl => ?_⟩
      rw [h'.outerLoops_eq hsame] at hl
      rw [(h'.same hsame).2]
      exact hcomplete (h'.same hsame).1 l hl
    · refine h'.complete c hc hc' t ?_
      rwa [h.alike.skeleton.successors]

/-- The mask of a new block is completed by what the walk found below it. -/
theorem Grows.close {mask : LoopMask} (hid : ¬s.visited.contains id.index)
    (hrange : id.index < s.blocks.size)
    (h : Grows { s with visited := s.visited.insert id.index } s')
    (hmask : ∀ l ∈ LoopMask.toList (s.blocks.block id).loops, l ∈ LoopMask.toList mask)
    (hdone : ∀ t ∈ (s.blocks.block id).successors, s'.visited.contains t.index ∧
      (s'.changed = false → ∀ l ∈ LoopMask.toList (outerLoops (s'.blocks.block t)),
        l ∈ LoopMask.toList mask)) :
    Grows s { s' with
      blocks := s'.blocks.modify id fun b => { b with loops := mask }
      changed := s'.changed || (s'.blocks.block id).loops != mask } := by
  have hown : (s'.blocks.block id).loops = (s.blocks.block id).loops :=
    h.kept id (BitSet.contains_insert.2 (.inl rfl))
  have hloops (c : BlockId) : (Blocks.block (s'.blocks.modify id fun b => { b with loops := mask })
      c).loops = if c = id then mask else (s'.blocks.block c).loops := by
    have hrange' : id.index < s'.blocks.size := h.alike.size ▸ hrange
    rw [Blocks.block_modify]
    by_cases hc : c = id <;> simp [hc, hrange']
  have halike : Alike Block.outline s'.blocks (s'.blocks.modify id fun b => { b with loops := mask }) :=
    (Alike.refl ..).modify id fun _ => rfl
  have hsame : (s'.changed || (s'.blocks.block id).loops != mask) = false → s'.changed = false ∧
      ∀ c, (Blocks.block (s'.blocks.modify id fun b => { b with loops := mask }) c).loops =
        (s'.blocks.block c).loops := by
    intro hfalse
    obtain ⟨hchanged, heq⟩ := Bool.or_eq_false_iff.1 hfalse
    refine ⟨hchanged, fun c => ?_⟩
    rw [hloops]
    split
    · rename_i hc
      rw [hc]
      exact (bne_eq_false_iff_eq.1 heq).symm
    · rfl
  refine ⟨h.alike.trans halike, fun i hi => h.visited i (BitSet.contains_insert.2 (.inr hi)),
    fun c hc => ?_, fun c l hl => ?_, fun hfalse => ?_, fun htrue => ?_, fun c hc hnew t ht => ?_⟩
  · have hne : c ≠ id := by
      rintro rfl
      exact hid hc
    rw [hloops, if_neg hne]
    exact h.kept c (BitSet.contains_insert.2 (.inr hc))
  · rw [hloops]
    split
    · rename_i hc
      exact hmask l (hc ▸ hl)
    · exact h.grows c l hl
  · obtain ⟨hchanged, heq⟩ := hsame hfalse
    obtain ⟨hchanged, heq'⟩ := h.same hchanged
    exact ⟨hchanged, fun c => (heq c).trans (heq' c)⟩
  · by_cases heq : (s'.blocks.block id).loops = mask
    · have hchanged : s'.changed := by
        rcases Bool.or_eq_true_iff.1 htrue with hchanged | hne
        · exact hchanged
        · exact absurd heq (bne_iff_ne.1 hne)
      refine (h.differs hchanged).imp_right fun ⟨c, hc, hne⟩ => ⟨c, hc, ?_⟩
      rw [hloops]
      split
      · rename_i hcid
        subst hcid
        exact absurd hown hne
      · exact hne
    · refine .inr ⟨id, hrange, ?_⟩
      rw [hloops, if_pos rfl, ← hown]
      exact fun hh => heq hh.symm
  · -- the loops seen from outside are the same as before the last step, if no mask has grown
    have houter (hfalse : (s'.changed || (s'.blocks.block id).loops != mask) = false) :
        outerLoops (Blocks.block (s'.blocks.modify id fun b => { b with loops := mask }) t) =
          outerLoops (s'.blocks.block t) :=
      outerLoops_congr (halike.block t) ((hsame hfalse).2 t)
    by_cases hcid : c = id
    · subst hcid
      obtain ⟨hvisited, hl⟩ := hdone t ht
      refine ⟨hvisited, fun hfalse l hlt => ?_⟩
      rw [houter hfalse] at hlt
      rw [hloops, if_pos rfl]
      exact hl (hsame hfalse).1 l hlt
    · have hnew' : ¬(s.visited.insert id.index).contains c.index := by
        rw [BitSet.contains_insert]
        rintro (hindex | hvisited)
        · exact hcid (by cases c; cases id; simp_all)
        · exact hnew hvisited
      obtain ⟨hvisited, hl⟩ := h.complete c hc hnew' t ht
      refine ⟨hvisited, fun hfalse l hlt => ?_⟩
      rw [houter hfalse] at hlt
      rw [hloops, if_neg hcid]
      exact hl (hsame hfalse).1 l hlt

/-- At least `k` of `n` blocks were visited. -/
def Counted (n k : Nat) (s : MaskWalk) : Prop :=
  ∃ seen : List BlockId, seen.Nodup ∧ (∀ c ∈ seen, c.index < n) ∧
    (∀ c : BlockId, s.visited.contains c.index = true ↔ c ∈ seen) ∧ k ≤ seen.length

theorem Counted.le (h : Counted n k s) : k ≤ n := by
  obtain ⟨seen, hnodup, hrange, -, hk⟩ := h
  exact hk.trans (length_le_of_nodup hnodup hrange)

theorem Counted.insert (h : Counted n k s) (hid : ¬s.visited.contains id.index)
    (hrange : id.index < n) : Counted n (k + 1) { s with visited := s.visited.insert id.index } := by
  obtain ⟨seen, hnodup, hseenrange, hseen, hk⟩ := h
  refine ⟨id :: seen, List.nodup_cons.2 ⟨fun hmem => hid ((hseen id).2 hmem), hnodup⟩, ?_,
    fun c => ?_, Nat.succ_le_succ hk⟩
  · rintro c (_ | ⟨_, hc⟩)
    · exact hrange
    · exact hseenrange c hc
  · have hindex : c.index = id.index ↔ c = id := by cases c; cases id; simp
    rw [BitSet.contains_insert, hindex, hseen, List.mem_cons]

/-- Exits are no masks. -/
theorem Grows.of_exits (halike : Alike Block.outline s.blocks s'.blocks)
    (hloops : ∀ c, (s'.blocks.block c).loops = (s.blocks.block c).loops)
    (hvisited : s'.visited = s.visited) (hchanged : s'.changed = s.changed) : Grows s s' := by
  refine ⟨halike, fun i hi => hvisited ▸ hi, fun c _ => hloops c, fun c l hl => (hloops c).symm ▸ hl,
    fun h => ⟨hchanged ▸ h, hloops⟩, fun h => .inl (hchanged ▸ h), fun c hc hnew => ?_⟩
  rw [hvisited] at hc
  exact absurd hc hnew

/-- A walk from a block visits it; its result shows the mask of the block if no mask has grown. -/
theorem leads_visit (hrange : ∀ c t, t ∈ (base.block c).successors → t.index < base.size) :
    ∀ {fuel k : Nat} {id : BlockId} {s : MaskWalk}, Alike Block.outline base s.blocks →
      id.index < base.size → Counted base.size k s → base.size + 1 ≤ fuel + k →
      Leads (visit fuel id) s fun mask s' => Grows s s' ∧ Counted base.size k s' ∧
        s'.visited.contains id.index ∧
        (s'.changed = false → mask = outerLoops (s'.blocks.block id)) := by
  intro fuel
  induction fuel with
  | zero =>
    intro k id s _ _ hcount hfuel
    have := hcount.le
    omega
  | succ fuel ih =>
    intro k id s halike hid hcount hfuel
    rw [visit]
    refine leads_bind.2 (leads_get.2 ?_)
    by_cases hvisited : s.visited.contains id.index
    · rw [if_pos hvisited]
      exact leads_pure.2 ⟨.refl s, hcount, hvisited, fun _ => rfl⟩
    rw [if_neg hvisited]
    have hid' : id.index < s.blocks.size := halike.size ▸ hid
    have hcount1 := hcount.insert hvisited hid
    refine leads_bind.2 (leads_set.2 (leads_bind.2 ?_))
    refine (Leads.foldlM (fun left mask s1 =>
      Grows { s with visited := s.visited.insert id.index } s1 ∧ Counted base.size (k + 1) s1 ∧
      (∀ l ∈ LoopMask.toList (s.blocks.block id).loops, l ∈ LoopMask.toList mask) ∧
      (∀ t ∈ left, t ∈ (s.blocks.block id).successors) ∧
      ∀ t ∈ (s.blocks.block id).successors, t ∈ left ∨ s1.visited.contains t.index = true ∧
        (s1.changed = false → ∀ l ∈ LoopMask.toList (outerLoops (s1.blocks.block t)),
          l ∈ LoopMask.toList mask)) ?_ ?_).imp fun mask s1 h1 => ?_
    · exact ⟨.refl _, hcount1, fun _ hl => hl, fun _ ht => ht, fun t ht => .inl ht⟩
    · rintro t left mask s1 ⟨h1, hcount1, hmask, hleft, hdone⟩
      have ht : t.index < base.size := by
        have := hleft t (List.mem_cons_self ..)
        rw [halike.skeleton.successors] at this
        exact hrange id t this
      refine leads_bind.2 ((ih (halike.trans h1.alike) ht hcount1 (by omega)).imp fun mask' s2 h2 => ?_)
      obtain ⟨h2, hcount2, hvisited2, hmask'⟩ := h2
      refine leads_pure.2 ⟨h1.trans h2, hcount2, fun l hl => LoopMask.mem_toList_or.2 (.inl (hmask l hl)),
        fun u hu => hleft u (List.mem_cons_of_mem _ hu), fun u hu => ?_⟩
      rcases hdone u hu with hu | ⟨huvisited, hul⟩
      · rcases List.mem_cons.1 hu with rfl | hu
        · refine .inr ⟨hvisited2, fun hsame l hl => LoopMask.mem_toList_or.2 (.inr ?_)⟩
          exact hmask' hsame ▸ hl
        · exact .inl hu
      · refine .inr ⟨h2.visited _ huvisited, fun hsame l hl => LoopMask.mem_toList_or.2 (.inl ?_)⟩
        rw [h2.outerLoops_eq hsame] at hl
        exact hul (h2.same hsame).1 l hl
    obtain ⟨h1, hcount1, hmask, -, hdone⟩ := h1
    refine leads_bind.2 ?_
    refine (Leads.forIn (fun s2 => Alike Block.outline s1.blocks s2.blocks ∧
      (∀ c, (s2.blocks.block c).loops = (s1.blocks.block c).loops) ∧ s2.visited = s1.visited ∧
      s2.changed = s1.changed) ⟨.refl .., fun _ => rfl, rfl, rfl⟩ ?_).imp fun _ s2 h2 => ?_
    · rintro t s2 ⟨halike2, hloops2, hvisited2, hchanged2⟩
      refine ⟨halike2.modify t fun _ => rfl, fun c => ?_, hvisited2, hchanged2⟩
      rw [Blocks.block_modify]
      split <;> exact hloops2 c
    obtain ⟨halike2, hloops2, hvisited2, hchanged2⟩ := h2
    have h12 := Grows.of_exits halike2 hloops2 hvisited2 hchanged2
    have h2 := h1.trans h12
    have hgrows := Grows.close hvisited hid' h2 hmask fun t ht => by
      obtain ⟨hv, hl⟩ := (hdone t ht).resolve_left List.not_mem_nil
      refine ⟨h12.visited _ hv, fun hsame l hlt => ?_⟩
      rw [h12.outerLoops_eq hsame] at hlt
      exact hl (h12.same hsame).1 l hlt
    refine leads_bind.2 (leads_modify.2 (leads_bind.2 (leads_get.2 (leads_pure.2 ?_))))
    refine ⟨hgrows, ?_, h2.visited _ (BitSet.contains_insert.2 (.inl rfl)), fun _ => rfl⟩
    obtain ⟨seen, hnodup, hseenrange, hseen, hk⟩ := hcount1
    exact ⟨seen, hnodup, hseenrange, fun c => by rw [← hseen c, ← hvisited2], by omega⟩

/-- The masks of the blocks in `P` say of each loop only what holds. -/
def Sound (P : BlockId → Prop) (J : Nat → BlockId → Prop) (blocks : Blocks) : Prop :=
  ∀ c, P c → ∀ l ∈ LoopMask.toList (blocks.block c).loops, J l c

/-- What holds of the loops around a block also holds of them for the blocks that lead to it. -/
structure Inward (base : Blocks) (P : BlockId → Prop) (J : Nat → BlockId → Prop) : Prop where
  closed : Closed base P
  loop : ∀ c, (base.block c).isLoopHeader = true → (base.block c).loop < 64
  step : ∀ c t l, P c → t ∈ (base.block c).successors →
    ((base.block t).isLoopHeader = true → l ≠ (base.block t).loop) → J l t → J l c

section

variable {P : BlockId → Prop} {J : Nat → BlockId → Prop}

theorem Sound.outerLoops (hbase : Inward base P J) (halike : Alike Block.outline base blocks)
    (h : Sound P J blocks) (hid : P id) {l : Nat}
    (hl : l ∈ LoopMask.toList (outerLoops (blocks.block id))) :
    J l id ∧ ((base.block id).isLoopHeader → l ≠ (base.block id).loop) := by
  have hlt (hheader : (blocks.block id).isLoopHeader) : (blocks.block id).loop < 64 := by
    rw [halike.isLoopHeader] at hheader
    rw [halike.loop]
    exact hbase.loop id hheader
  obtain ⟨hmem, hown⟩ := (mem_outerLoops hlt).1 hl
  rw [halike.isLoopHeader, halike.loop] at hown
  exact ⟨h id hid l hmem, hown⟩

/-- A walk adds only loops that it found around the blocks ahead. -/
theorem leads_visit_sound (hbase : Inward base P J) :
    ∀ {fuel : Nat} {id : BlockId} {s : MaskWalk}, Alike Block.outline base s.blocks → P id →
      Sound P J s.blocks →
      Leads (visit fuel id) s fun mask s' => Alike Block.outline base s'.blocks ∧ Sound P J s'.blocks ∧
        ∀ l ∈ LoopMask.toList mask,
          J l id ∧ ((base.block id).isLoopHeader → l ≠ (base.block id).loop) := by
  intro fuel
  induction fuel with
  | zero => exact fun halike _ h => leads_pure.2 ⟨halike, h, by simp⟩
  | succ fuel ih =>
    intro id s halike hid h
    rw [visit]
    refine leads_bind.2 (leads_get.2 ?_)
    by_cases hvisited : s.visited.contains id.index
    · rw [if_pos hvisited]
      exact leads_pure.2 ⟨halike, h, fun l hl => h.outerLoops hbase halike hid hl⟩
    rw [if_neg hvisited]
    refine leads_bind.2 (leads_set.2 (leads_bind.2 ?_))
    refine (Leads.foldlM (fun left mask s1 => Alike Block.outline base s1.blocks ∧ Sound P J s1.blocks ∧
      (∀ t ∈ left, t ∈ (base.block id).successors) ∧ ∀ l ∈ LoopMask.toList mask, J l id) ?_ ?_).imp
      fun mask s1 h1 => ?_
    · exact ⟨halike, h, fun t ht => halike.skeleton.successors id ▸ ht, h id hid⟩
    · rintro t left mask s1 ⟨halike1, h1, hleft, hmask⟩
      have ht := hleft t (List.mem_cons_self ..)
      refine leads_bind.2 ((ih halike1 (hbase.closed.step id hid t ht) h1).imp fun mask' s2 h2 => ?_)
      obtain ⟨halike2, h2, hmask'⟩ := h2
      refine leads_pure.2 ⟨halike2, h2, fun u hu => hleft u (List.mem_cons_of_mem _ hu), fun l hl => ?_⟩
      rcases LoopMask.mem_toList_or.1 hl with hl | hl
      · exact hmask l hl
      · exact hbase.step id t l hid ht (hmask' l hl).2 (hmask' l hl).1
    obtain ⟨halike1, h1, -, hmask⟩ := h1
    refine leads_bind.2 ?_
    refine (Leads.forIn (fun s2 => Alike Block.outline base s2.blocks ∧ Sound P J s2.blocks)
      ?_ ?_).imp fun _ s2 h2 => ?_
    · exact ⟨halike1, h1⟩
    · rintro t s2 ⟨halike2, h2⟩
      refine ⟨halike2.modify t fun _ => rfl, fun c hc => ?_⟩
      rw [Blocks.block_modify]
      split <;> exact h2 c hc
    obtain ⟨halike2, h2⟩ := h2
    have halike3 := halike2.modify (f := fun b => { b with loops := mask }) id fun _ => rfl
    have h3 : Sound P J (s2.blocks.modify id fun b => { b with loops := mask }) := by
      intro c hc
      rw [Blocks.block_modify]
      split
      · rename_i hcid
        exact hcid.1 ▸ hmask
      · exact h2 c hc
    refine leads_bind.2 (leads_modify.2 (leads_bind.2 (leads_get.2 (leads_pure.2 ?_))))
    exact ⟨halike3, h3, fun l hl => h3.outerLoops hbase halike3 hid hl⟩

end

end MaskWalk

/-! ### All walks -/

/-- The number of bits of all masks. -/
def maskBits (blocks : Blocks) : Nat :=
  ∑ i ∈ Finset.range blocks.size, (LoopMask.toList (blocks.block ⟨i⟩).loops).length

theorem maskBits_le (blocks : Blocks) : maskBits blocks ≤ 64 * blocks.size := by
  have h := Finset.sum_le_card_nsmul (Finset.range blocks.size)
    (fun i => (LoopMask.toList (blocks.block ⟨i⟩).loops).length) 64
    fun i _ => (List.length_filter_le ..).trans (by simp)
  simpa [maskBits, Nat.mul_comm] using h

/-- Masks that grow have more bits. -/
theorem maskBits_lt (hsize : blocks'.size = blocks.size)
    (h : ∀ c, ∀ l ∈ LoopMask.toList (blocks.block c).loops,
      l ∈ LoopMask.toList (blocks'.block c).loops)
    (hc : c.index < blocks.size) (hne : (blocks'.block c).loops ≠ (blocks.block c).loops) :
    maskBits blocks < maskBits blocks' := by
  unfold maskBits
  rw [hsize]
  refine Finset.sum_lt_sum (fun i _ => (LoopMask.toList_sublist (h ⟨i⟩)).length_le)
    ⟨c.index, Finset.mem_range.2 hc, ?_⟩
  refine lt_of_le_of_ne (LoopMask.toList_sublist (h c)).length_le fun heq => hne ?_
  exact (LoopMask.ext_toList ((LoopMask.toList_sublist (h c)).eq_of_length heq)).symm

/-- What the walks come to. -/
structure Completed (first : BlockId) (blocks blocks' : Blocks) : Prop where
  alike : Alike Block.outline blocks blocks'
  grows : ∀ c, ∀ l ∈ LoopMask.toList (blocks.block c).loops,
    l ∈ LoopMask.toList (blocks'.block c).loops
  start : outerLoops (blocks'.block first) = 0
  /-- The blocks that are reached belong to the loops around the blocks they lead to. -/
  complete : ∃ P, Closed blocks P ∧ P first ∧ ∀ c, P c → ∀ t ∈ (blocks.block c).successors,
    ∀ l ∈ LoopMask.toList (outerLoops (blocks'.block t)), l ∈ LoopMask.toList (blocks'.block c).loops

/-- What a walk from the start does to all masks. -/
structure Round (start : BlockId) (blocks : Blocks) (mask : LoopMask) (s : MaskWalk) : Prop where
  grows : MaskWalk.Grows { blocks } s
  seen : ∀ c : BlockId, s.visited.contains c.index = true → c.index < blocks.size
  entered : s.visited.contains start.index = true
  mask : s.changed = false → mask = outerLoops (s.blocks.block start)
  /-- Masks that have changed have more bits. -/
  bits : s.changed = true → maskBits blocks < maskBits s.blocks

theorem round_of_run (hrange : ∀ c t, t ∈ (blocks.block c).successors → t.index < blocks.size)
    (hstart : start.index < blocks.size)
    (hrun : (MaskWalk.visit (blocks.size + 1) start).run { blocks } = (mask, s)) :
    Round start blocks mask s := by
  have hcount : MaskWalk.Counted blocks.size 0 { blocks } :=
    ⟨[], .nil, nofun, by simp, Nat.le_refl 0⟩
  obtain ⟨hgrows, ⟨seen, -, hseenrange, hseen, -⟩, hvisited, hmask⟩ :=
    (MaskWalk.leads_visit hrange (.refl ..) hstart hcount (Nat.le_refl _)).of_run hrun
  refine ⟨hgrows, fun c hc => hseenrange c ((hseen c).1 hc), hvisited, hmask, fun hchanged => ?_⟩
  obtain ⟨c, hc, hne⟩ := (hgrows.differs hchanged).resolve_left Bool.false_ne_true
  exact maskBits_lt hgrows.alike.size hgrows.grows hc hne

theorem Round.range (h : Round start blocks mask s)
    (hrange : ∀ c t, t ∈ (blocks.block c).successors → t.index < blocks.size) (c t : BlockId)
    (ht : t ∈ (s.blocks.block c).successors) : t.index < s.blocks.size := by
  rw [h.grows.alike.skeleton.successors] at ht
  exact h.grows.alike.size ▸ hrange c t ht

theorem ends_completeMasks :
    ∀ {rounds : Nat} {blocks : Blocks},
      (∀ c t, t ∈ (blocks.block c).successors → t.index < blocks.size) → start.index < blocks.size →
      64 * blocks.size < rounds + maskBits blocks →
      Ends (completeMasks start rounds blocks) (Completed start blocks) fun _ => True := by
  intro rounds
  induction rounds with
  | zero =>
    intro blocks _ _ hrounds
    have := maskBits_le blocks
    omega
  | succ rounds ih =>
    intro blocks hrange hstart hrounds
    unfold completeMasks
    rcases hrun : (MaskWalk.visit (blocks.size + 1) start).run { blocks } with ⟨mask, s⟩
    have hround := round_of_run hrange hstart hrun
    have hgrows := hround.grows
    have hsize : s.blocks.size = blocks.size := hgrows.alike.size
    dsimp only
    split
    · trivial
    rename_i hzero
    split
    · rename_i hchanged
      have hlt := hround.bits hchanged
      refine (ih (hround.range hrange) (hsize ▸ hstart) ?_).mono (fun blocks' h => ?_) fun _ h => h
      · rw [hsize]
        omega
      · obtain ⟨P, hclosed, hP, hcomplete⟩ := h.complete
        refine ⟨hgrows.alike.trans h.alike, fun c l hl => h.grows c l (hgrows.grows c l hl), h.start, P,
          ⟨fun c hc => hsize ▸ hclosed.range c hc, fun c hc t ht => ?_⟩, hP, fun c hc t ht => ?_⟩
        · exact hclosed.step c hc t (by rwa [hgrows.alike.skeleton.successors])
        · exact hcomplete c hc t (by rwa [hgrows.alike.skeleton.successors])
    · rename_i hsame
      have hsame : s.changed = false := by simpa using hsame
      have hnone : ∀ c : BlockId, ¬(BitSet.empty.contains c.index) := by simp
      refine ⟨hgrows.alike, hgrows.grows, ?_, fun c => s.visited.contains c.index = true,
        ⟨hround.seen, fun c hc t ht => ?_⟩, hround.entered, fun c hc t ht => ?_⟩
      · rw [← hround.mask hsame]
        exact not_not.1 hzero
      · exact (hgrows.complete c hc (hnone c) t ht).1
      · exact (hgrows.complete c hc (hnone c) t ht).2 hsame

/-- The walks add only loops found ahead; where they fail, there is one around the start. -/
theorem ends_completeMasks_sound {P : BlockId → Prop} {J : Nat → BlockId → Prop}
    (hbase : MaskWalk.Inward base P J) (hstart : P start) :
    ∀ {rounds : Nat} {blocks : Blocks}, Alike Block.outline base blocks →
      MaskWalk.Sound P J blocks →
      Ends (completeMasks start rounds blocks) (MaskWalk.Sound P J)
        fun _ => ∃ l, J l start ∧ ((base.block start).isLoopHeader → l ≠ (base.block start).loop) := by
  intro rounds
  induction rounds with
  | zero => exact fun _ h => ends_ok.2 h
  | succ rounds ih =>
    intro blocks halike h
    unfold completeMasks
    rcases hrun : (MaskWalk.visit (blocks.size + 1) start).run { blocks } with ⟨mask, s⟩
    obtain ⟨halike', h', hmask⟩ :=
      (MaskWalk.leads_visit_sound hbase (s := { blocks }) halike hstart h).of_run hrun
    dsimp only
    split
    · rename_i hne
      obtain ⟨l, hl⟩ := not_forall_not.1 fun hnone => hne (LoopMask.eq_zero_iff.2 hnone)
      exact ⟨l, hmask l hl⟩
    split
    · exact ih halike' h'
    · exact ends_ok.2 h'

end Flow

end SeaOfNodes
