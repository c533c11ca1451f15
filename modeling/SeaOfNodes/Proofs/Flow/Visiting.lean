import SeaOfNodes.Proofs.Flow.Inlining
import SeaOfNodes.Proofs.Flow.Order
import SeaOfNodes.Proofs.Flow.Tasks

/-!
# Visiting blocks

What inlining does to one block: outside of subroutines it is left alone; a call leads to a copy of the
subroutine, a return to where the call continues, and any other block to copies in its own scope. The walk
deals with every block that is reached, and its fuel does not run out.
-/

namespace SeaOfNodes

namespace Flow.Inlining

variable {d : Discovery} {S : BlockId → Prop} {done : List BlockId} {s s' s0 : Inlining} {id t x : BlockId}
  {σ τ : Scope} {k : Nat} {b : Block} {first target : BlockId}

/-! ### Dealing with a block -/

/-- A block was dealt with. -/
structure Dealt (d : Discovery) (S : BlockId → Prop) (id : BlockId) (s s' : Inlining) : Prop where
  grown : Grown d s'
  forms : Forms d (fun x => S x ∨ x = id) none [] s'.blocks
  preserves : Preserves s.blocks s'.blocks
  same : ∀ y : BlockId, y.index < s.blocks.size → y ≠ id → s'.blocks.block y = s.blocks.block y
  visited : s'.visited = s.visited

theorem Settled.of_plain {blocks : Blocks} (hcallee : b.callee = none)
    (hends : b.endsSubroutine = false) (hcontinuation : b.continuation = none)
    (hscope : ∀ t ∈ b.successors, (blocks.block t).scope = σ) : Settled d blocks σ b :=
  ⟨fun _ _ => ⟨hcontinuation, hscope⟩, by simp [hcallee], by simp [hends]⟩

theorem Settled.of_call {blocks : Blocks} (hcallee : b.callee = some t)
    (hends : b.endsSubroutine = false) (hcontinuation : b.continuation = none) (hsuccessors : b.successors = [t])
    (hreturns : Returns d (b.returnBci % 65536)) (hpush : σ.push b.returnBci = .ok (blocks.block t).scope) :
    Settled d blocks σ b := by
  refine ⟨by simp [hcallee], fun u hu => ?_, by simp [hends]⟩
  obtain rfl := Option.mem_unique hcallee hu
  exact ⟨hcontinuation, hends, hsuccessors, hreturns, hpush⟩

/-- The scopes of the successors that are redirected, after one more. -/
theorem Preserves.forall_take {blocks blocks' : Blocks} {b' : Block} (hp : Preserves blocks blocks')
    (hrange : ∀ y ∈ b.successors, y.index < blocks.size)
    (htake : b'.successors.take (k + 1) = b.successors.take k ++ [x]) {P : Scope → Prop}
    (hall : ∀ y ∈ b.successors.take k, P (blocks.block y).scope) (hx : P (blocks'.block x).scope) :
    ∀ y ∈ b'.successors.take (k + 1), P (blocks'.block y).scope := by
  intro y hy
  rw [htake] at hy
  rcases List.mem_append.1 hy with hy | hy
  · rw [hp.scope y (hrange y (List.mem_of_mem_take hy))]
    exact hall y hy
  · rwa [List.mem_singleton.1 hy]

/-- A mix that was there before a block is dealt with stays. -/
theorem Rewriting.mixed (h : Rewriting d S id s0 k done s) (hrange : ∀ x, S x → x.index < s0.blocks.size)
    (hm : Mixed S [] s0.blocks) : Mixed S done s.blocks := by
  refine hm.mono h.preserves (fun x hx => ⟨hx, h.same x (hrange x hx) ?_⟩) nofun
  rintro rfl
  exact h.forms.apart x rfl hx

/-- All successors are redirected. -/
theorem Rewriting.dealt (h : Rewriting d S id s0 k done s) (hid : id.index < s0.blocks.size)
    (hscope : (s0.blocks.block id).scope ≠ .empty)
    (hsettled : Settled d s.blocks (s0.blocks.block id).scope (s.blocks.block id))
    (hsingle : (s.blocks.block id).endsSubroutine →
      (s.blocks.block id).successors.length = 1 ∨ Mixed S done s.blocks) : Dealt d S id s0 s := by
  have hscope' := h.preserves.scope id hid
  refine ⟨h.grown, h.forms.finish (Nat.lt_of_lt_of_le hid h.preserves.size) (hscope'.symm ▸ hsettled)
    (fun hempty => ?_) hsingle fun x hx => ?_, h.preserves, h.same, h.visited⟩
  · exact absurd (hscope'.symm.trans hempty) hscope
  · exact List.mem_of_mem_take (h.done x hx)

section

variable (hd : Callable d) (hg : Grown d s) (hf : Forms d S none [] s.blocks) (hid : id.index < s.blocks.size)
  (hnot : ¬S id)

include hd hg hf hid hnot

/-- What a block leads to that waits in some scope lies in shallower scopes. -/
theorem Forms.shallower (hcallee : (s.blocks.block id).callee = none)
    (hscope : (s.blocks.block id).scope ≠ .empty) (ht : t ∈ (s.blocks.block id).successors) :
    (s.blocks.block t).scope.depth < (s.blocks.block id).scope.depth ∧
      ((s.blocks.block t).scope ≠ .empty → Mixed S [] s.blocks) := by
  cases hf.pending id hid hnot nofun with
  | raw h =>
    obtain ⟨o, -, heq⟩ := h
    have ho : t ∈ (d.blocks.block o).successors := congrArg Block.successors heq ▸ ht
    have hempty := hg.old t (hd.range o t ho)
    rw [hempty]
    exact ⟨Scope.depth_pos.2 hscope, fun hne => absurd rfl hne⟩
  | settled σ hσ h hmixed =>
    refine ⟨?_, fun _ => hmixed⟩
    cases hends : (s.blocks.block id).endsSubroutine with
    | true =>
      have := ((h.ret hends).2.depth t ht).2
      omega
    | false => rwa [(h.plain hcallee hends).2 t ht]

/-- Outside of subroutines, a block that calls none is left alone. -/
theorem Forms.leave (hends : (s.blocks.block id).endsSubroutine = false)
    (hcallee : (s.blocks.block id).callee = none) (hscope : (s.blocks.block id).scope = .empty) :
    Forms d (fun x => S x ∨ x = id) none [] s.blocks := by
  have hraw : Raw d (s.blocks.block id) := by
    cases hf.pending id hid hnot nofun with
    | raw h => exact h
    | settled σ hσ h hmixed =>
      rw [hscope] at hσ
      exact absurd hσ (Nat.not_lt_zero _)
  have ⟨o, _, heq⟩ := hraw
  refine (hf.start hnot).finish hid (.of_plain hcallee hends ?_ fun t ht => ?_) (fun _ _ => hraw) (by simp [hends])
    nofun
  · rw [congrArg Block.continuation heq]
    exact (hd.fresh o).continuation
  · rw [congrArg Block.successors heq] at ht
    rw [hscope]
    exact hg.old t (hd.range o t ht)

/-- A call leads to the copy of the subroutine for the scope that is entered. -/
theorem meets_call (hcallee : (s.blocks.block id).callee = some t) :
    Ensures (retargetAll id (List.range (s.blocks.block id).successors.length)) s
      (fun _ s' => Dealt d S id s s') := by
  -- the subroutine is reached in a shallower scope than the one that is entered
  obtain ⟨hcontinuation, hends, hsuccessors, hreturns, hdepth, hmixed⟩ :
      (s.blocks.block id).continuation = none ∧ (s.blocks.block id).endsSubroutine = false ∧
      (s.blocks.block id).successors = [t] ∧ Returns d ((s.blocks.block id).returnBci % 65536) ∧
      (s.blocks.block t).scope.depth ≤ (s.blocks.block id).scope.depth ∧
      ((s.blocks.block t).scope ≠ .empty → Mixed S [] s.blocks) := by
    cases hf.pending id hid hnot (by rintro ⟨⟩) with
    | raw h =>
      obtain ⟨o, -, heq⟩ := h
      obtain ⟨hsuccessors, hends, hreturns⟩ := hd.call o t (by rw [← hcallee, heq])
      have hempty := hg.old t (hd.range o t (by simp [hsuccessors]))
      refine ⟨?_, ?_, ?_, ?_, ?_, fun hne => absurd hempty hne⟩
      · rw [congrArg Block.continuation heq]
        exact (hd.fresh o).continuation
      · rw [congrArg Block.endsSubroutine heq]
        exact hends
      · rw [congrArg Block.successors heq]
        exact hsuccessors
      · rw [congrArg Block.returnBci heq]
        exact hreturns
      · rw [hempty]
        exact Nat.zero_le _
    | settled σ hσ h hmixed =>
      obtain ⟨hcontinuation, hends, hsuccessors, hreturns, hpush⟩ := h.call t hcallee
      have hle := Scope.depth_le_of_push hpush
      exact ⟨hcontinuation, hends, hsuccessors, hreturns, by omega, fun _ => hmixed⟩
  have hpush (τ : Scope) (hτ : After (s.blocks.block id) t τ) :
      (s.blocks.block id).scope.push (s.blocks.block id).returnBci = .ok τ :=
    hτ.entered (by rw [hcontinuation]; rintro ⟨⟩) hcallee
  simp only [retargetAll, hsuccessors, List.length_singleton, List.range_one, List.forIn_cons, List.forIn_nil, bind_assoc,
    pure_bind]
  refine (hf.meets_retarget hg hid hnot (.inl rfl) (by rw [hsuccessors]; rfl) (by rintro ⟨⟩)
    (fun τ h hne => ⟨?_, fun a ha => ?_⟩) fun _ => hmixed).bind fun _ s' h => meets_pure.2 ?_
  · rw [Scope.depth, Scope.depth, Scope.addresses_push (hpush τ h) hne]
    exact Nat.lt_succ_of_le hdepth
  · rw [Scope.addresses_push (hpush τ h) hne] at ha
    rcases List.mem_cons.1 ha with rfl | ha
    · exact hreturns
    · exact hg.scopes id a ha
  · obtain ⟨hafter, rfl⟩ | ⟨τ, x, -, hafter, hx⟩ := h
    · -- the address does not show, and the subroutine is not copied
      have hscope := Scope.eq_empty_of_push (hpush _ hafter)
      have htscope : (s'.blocks.block t).scope = .empty := by
        rw [hscope, Scope.depth_empty] at hdepth
        by_contra hne
        exact Nat.not_lt_of_le hdepth (Scope.depth_pos.2 hne)
      exact ⟨hg, (hf.start hnot).finish hid (.of_call hcallee hends hcontinuation hsuccessors hreturns
        (htscope.symm ▸ hpush _ hafter)) (by simp [hcallee]) (by simp [hends]) (List.forall_mem_nil _), .refl, fun _ _ _ => rfl, rfl⟩
    have hblock := hx.block
    have hcallee' : (s'.blocks.block id).callee = some x := by
      rw [hblock]
      exact if_pos hcallee
    have hsuccessors' : (s'.blocks.block id).successors = [x] := by
      rw [hblock]
      show (s.blocks.block id).successors.set 0 x = _
      rw [hsuccessors]
      rfl
    have hends' : (s'.blocks.block id).endsSubroutine = false := by rw [hblock]; exact hends
    have hreturn' := Block.returnBci_eq_of_look (hx.preserves.look id hid)
    refine ⟨hx.grown, hx.forms.finish (Nat.lt_of_lt_of_le hid hx.preserves.size)
      (.of_call hcallee' hends' ?_ hsuccessors' (hreturn' ▸ hreturns) ?_) (by simp [hcallee']) (by simp [hends'])
      (by simp [hsuccessors']), hx.preserves, hx.same, hx.visited⟩
    · rw [hblock]
      show (if (s.blocks.block id).continuation = some t then some x else _) = _
      rw [hcontinuation, if_neg (by rintro ⟨⟩)]
    · rw [hx.scope, hx.preserves.scope id hid, hreturn']
      exact hpush _ hafter

/-- In a subroutine, a block that neither calls nor returns leads to copies in its own scope. -/
theorem meets_plain (hends : (s.blocks.block id).endsSubroutine = false)
    (hcallee : (s.blocks.block id).callee = none) (hscope : (s.blocks.block id).scope ≠ .empty) :
    Ensures (retargetAll id (List.range (s.blocks.block id).successors.length)) s
      (fun _ s' => Dealt d S id s s') := by
  have hcontinuation : (s.blocks.block id).continuation = none := by
    cases hf.pending id hid hnot nofun with
    | raw h =>
      obtain ⟨o, -, heq⟩ := h
      rw [congrArg Block.continuation heq]
      exact (hd.fresh o).continuation
    | settled σ hσ h hmixed => exact (h.plain hcallee hends).1
  let inv (k : Nat) (s' : Inlining) : Prop := ∃ done, Rewriting d S id s k done s' ∧
    (s'.blocks.block id).continuation = none ∧
    ∀ x ∈ (s'.blocks.block id).successors.take k, (s'.blocks.block x).scope = (s.blocks.block id).scope
  have hinit : inv 0 s :=
    ⟨[], ⟨hg, hf.start hnot, .refl, fun _ _ _ => rfl, rfl, hcallee, rfl, rfl, nofun⟩, hcontinuation, nofun⟩
  refine (Meets.forIn_range inv hinit fun k hk s1 h1 => ?_).imp fun _ s' h' => ?_
  · obtain ⟨done, h1, hcontinuation1, htake1⟩ := h1
    have hmem := List.getElem_mem hk
    obtain ⟨hdepth, hmixed⟩ := hf.shallower hd hg hid hnot hcallee hscope hmem
    have hstays (τ : Scope) (hτ : After (s1.blocks.block id) (s.blocks.block id).successors[k] τ) :
        τ = (s.blocks.block id).scope := by
      rw [← h1.preserves.scope id hid]
      exact hτ.stays (by rw [hcontinuation1]; nofun) (by rw [h1.callee]; nofun)
    refine (h1.meets_retarget hid (List.getElem?_eq_getElem hk) ?_ (hg.range id _ hmem) (fun τ hτ _ => ?_)
      (fun hτ => ?_) fun _ hne => h1.mixed hf.range (hmixed hne)).bind fun _ s2 h2 => meets_pure.2 ⟨rfl, ?_⟩
    · intro heq
      rw [heq] at hdepth
      exact Nat.lt_irrefl _ hdepth
    · rw [hstays τ hτ]
      exact ⟨hdepth, hg.scopes id⟩
    · exact absurd (hstays _ hτ).symm hscope
    · obtain ⟨τ, x, done', hτ, h2, hp, htake, hcontinuation2, hx, -⟩ := h2
      exact ⟨done', h2, by rw [hcontinuation2, hcontinuation1, if_neg nofun],
        hp.forall_take (P := (· = _)) (h1.grown.range id) htake htake1 (hx.trans (hstays τ hτ))⟩
  · obtain ⟨done, h', hcontinuation', htake'⟩ := h'
    have hends' := (Block.endsSubroutine_eq_of_look (h'.preserves.look id hid)).trans hends
    refine h'.dealt hid hscope (.of_plain h'.callee hends' hcontinuation' fun t ht => htake' t ?_) (by simp [hends'])
    rwa [List.take_of_length_le h'.length.le]

end

/-! ### Returns -/

/-- The first `k` successors of a block that returns are redirected. Once the continuation, first `target`,
is among them, it is the one that is reached in the scope that is left. -/
inductive Returning (σ : Scope) (target : BlockId) (rest : List BlockId) (k : Nat) (blocks : Blocks)
    (b : Block) : Prop
  | before (continuation : b.continuation = some target) (ahead : target ∈ rest)
    (scope : ∀ x ∈ b.successors.take k, (blocks.block x).scope = σ)
  | after (t : BlockId) (continuation : b.continuation = some t) (mem : t ∈ b.successors.take k)
    (left : (blocks.block t).scope = σ.pop) (look : (blocks.block t).look = (blocks.block target).look)
    (ahead : ∀ u ∈ rest, u = target ∧ u ≠ t)
    (scope : ∀ x ∈ b.successors.take k, (blocks.block x).scope = σ ∨ (blocks.block x).scope = σ.pop)

/-- The successors of a block that returns are redirected one after the other. -/
theorem meets_returning (hb : s.blocks.block id = b) (hg : Grown d s) (hf : Forms d S (some id) [] s.blocks)
    (hid : id.index < s.blocks.size) (hcallee : b.callee = none) (hscope : b.scope ≠ .empty)
    (hcontinuation : b.continuation = some target) (htarget : (s.blocks.block target).scope = .empty)
    (hmem : target ∈ b.successors)
    (hother : ∀ t ∈ b.successors, t ≠ target → (s.blocks.block t).scope.depth < b.scope.depth ∧
      ((s.blocks.block t).scope ≠ .empty → Mixed S [] s.blocks))
    (horder : ∀ k, b.successors[k]? = some target → ∀ u ∈ b.successors.drop (k + 1), u = target)
    (hlast : b.scope.pop = .empty → b.successors = [target]) :
    Ensures (retargetAll id (List.range b.successors.length)) s (fun _ s' => ∃ done,
      Rewriting d S id s b.successors.length done s' ∧
        Returning b.scope target [] b.successors.length s'.blocks (s'.blocks.block id)) := by
  subst hb
  have hrange (t : BlockId) (ht : t ∈ (s.blocks.block id).successors) := hg.range id t ht
  have hdepth (t : BlockId) (ht : t ∈ (s.blocks.block id).successors) :
      (s.blocks.block t).scope.depth < (s.blocks.block id).scope.depth := by
    by_cases heq : t = target
    · rw [heq, htarget]
      exact Scope.depth_pos.2 hscope
    · exact (hother t ht heq).1
  let inv (k : Nat) (s' : Inlining) : Prop := ∃ done, Rewriting d S id s k done s' ∧
    Returning (s.blocks.block id).scope target ((s.blocks.block id).successors.drop k) k s'.blocks
      (s'.blocks.block id)
  have hinit : inv 0 s :=
    ⟨[], ⟨hg, hf, .refl, fun _ _ _ => rfl, rfl, hcallee, rfl, rfl, nofun⟩,
      .before hcontinuation hmem nofun⟩
  refine (Meets.forIn_range inv hinit fun k hk s1 h1 => ?_).imp fun _ s' h' => ?_
  · obtain ⟨done, h1, hreturning⟩ := h1
    have hscope1 := h1.preserves.scope id hid
    have hget := List.getElem?_eq_getElem hk
    have htmem := List.getElem_mem hk
    have hdrop : (s.blocks.block id).successors.drop k = (s.blocks.block id).successors[k] ::
        (s.blocks.block id).successors.drop (k + 1) := List.drop_eq_getElem_cons hk
    generalize (s.blocks.block id).successors[k] = t at hget htmem hdrop
    have hne : t ≠ id := by
      rintro rfl
      exact Nat.lt_irrefl _ (hdepth t htmem)
    -- unless the continuation is meant, the successor is reached in the scope of the block
    have hstays (hcont : (s1.blocks.block id).continuation ≠ some t) (τ : Scope)
        (hτ : After (s1.blocks.block id) t τ) : τ = (s.blocks.block id).scope := by
      rw [← hscope1]
      exact hτ.stays hcont (by rw [h1.callee]; nofun)
    have hstep (hcont : (s1.blocks.block id).continuation ≠ some t) :=
      h1.meets_retarget hid hget hne (hrange t htmem)
        (fun τ hτ _ => by rw [hstays hcont τ hτ]; exact ⟨hdepth t htmem, hg.scopes id⟩)
        (fun hτ => absurd (hstays hcont _ hτ).symm hscope)
        fun _ hn => h1.mixed hf.range ((hother t htmem fun he => hn (he ▸ htarget)).2 hn)
    cases hreturning with
    | before hcont hahead htake1 =>
      by_cases heq : t = target
      · subst heq
        have hleft (τ : Scope) (hτ : After (s1.blocks.block id) t τ) : τ = (s.blocks.block id).scope.pop := by
          rw [← hscope1]
          exact hτ.left hcont
        refine (h1.meets_retarget hid hget hne (hrange t htmem) (fun τ hτ hne => ?_) (fun _ => htarget)
          fun _ hn => absurd htarget hn).bind fun _ s2 h2 => meets_pure.2 ⟨rfl, ?_⟩
        · refine ⟨?_, fun a ha => hg.scopes id a ?_⟩
          · rw [htarget]
            exact Scope.depth_pos.2 hne
          · rw [hleft τ hτ, Scope.addresses_pop] at ha
            exact List.mem_of_mem_tail ha
        · obtain ⟨τ, x, done', hτ, h2, hp, htake2, hcont2, hx, hlook⟩ := h2
          have hleft := hleft τ hτ
          have htarget2 := (h2.preserves.scope t (hrange t htmem)).trans htarget
          refine ⟨done', h2, .after x (by rw [hcont2, if_pos hcont]) (by rw [htake2]; simp)
            (hx.trans hleft) (hlook.trans (h2.preserves.look t (hrange t htmem)).symm) (fun u hu => ?_)
            (hp.forall_take (P := fun σ => σ = _ ∨ σ = _) (h1.grown.range id) htake2
              (fun y hy => .inl (htake1 y hy)) (.inr (hx.trans hleft)))⟩
          refine ⟨horder k hget u hu, ?_⟩
          rw [horder k hget u hu]
          rintro rfl
          -- then the scope that is left is empty, and nothing comes after the continuation
          rw [hlast (hleft.symm.trans (hx.symm.trans htarget2))] at hu hk
          simp at hu
      · have hcont' : (s1.blocks.block id).continuation ≠ some t := by
          rw [hcont]
          exact fun he => heq (Option.some.inj he).symm
        refine (hstep hcont').bind fun _ s2 h2 => meets_pure.2 ⟨rfl, ?_⟩
        obtain ⟨τ, x, done', hτ, h2, hp, htake2, hcont2, hx, -⟩ := h2
        refine ⟨done', h2, .before (by rw [hcont2, if_neg hcont', hcont]) ?_
          (hp.forall_take (P := (· = _)) (h1.grown.range id) htake2 htake1 (hx.trans (hstays hcont' τ hτ)))⟩
        rw [hdrop] at hahead
        exact (List.mem_cons.1 hahead).resolve_left fun he => heq he.symm
    | after u hcont humem hleft hlook hahead htake1 =>
      obtain ⟨rfl, hu⟩ := hahead t (by rw [hdrop]; exact List.mem_cons_self)
      have hurange := h1.grown.range id u (List.mem_of_mem_take humem)
      have hcont' : (s1.blocks.block id).continuation ≠ some t := by
        rw [hcont]
        exact fun he => hu (Option.some.inj he).symm
      refine (hstep hcont').bind fun _ s2 h2 => meets_pure.2 ⟨rfl, ?_⟩
      obtain ⟨τ, x, done', hτ, h2, hp, htake2, hcont2, hx, -⟩ := h2
      refine ⟨done', h2, .after u (by rw [hcont2, if_neg hcont', hcont]) ?_ ?_ ?_ (fun v hv => ?_)
        (hp.forall_take (P := fun σ => σ = _ ∨ σ = _) (h1.grown.range id) htake2 htake1
          (.inl (hx.trans (hstays hcont' τ hτ))))⟩
      · rw [htake2]
        exact List.mem_append_left _ humem
      · rw [hp.scope u hurange, hleft]
      · rw [hp.look u hurange, hlook, h2.preserves.look t (hrange t htmem),
          h1.preserves.look t (hrange t htmem)]
      · exact hahead v (by rw [hdrop]; exact List.mem_cons_of_mem _ hv)
  · obtain ⟨done, h', hreturning⟩ := h'
    rw [List.drop_length] at hreturning
    exact ⟨done, h', hreturning⟩

/-- When all successors of a block that returns are redirected, it leads to where the call continues. -/
theorem Rewriting.dealt_ret (hb : s0.blocks.block id = b) (h : Rewriting d S id s0 b.successors.length done s)
    (hid : id.index < s0.blocks.size) (hrange : ∀ x, S x → x.index < s0.blocks.size)
    (hscope : b.scope ≠ .empty) (hends : b.endsSubroutine)
    (htarget : d.blockAt[b.scope.returnAddress]? = some (some target)) (htrange : target.index < s0.blocks.size)
    (htlook : (s0.blocks.block target).look = (d.blocks.block target).look)
    (hone : b.scope.depth = 1 → b.successors.length = 1)
    (hmixed : b.successors.length = 1 ∨ Mixed S [] s0.blocks)
    (hreturning : Returning b.scope target [] b.successors.length s.blocks (s.blocks.block id)) :
    Dealt d S id s0 s := by
  subst hb
  have hends' := (Block.endsSubroutine_eq_of_look (h.preserves.look id hid)).trans hends
  cases hreturning with
  | before _ hahead _ => cases hahead
  | after t hcontinuation hmem hleft hlook _ hall =>
    rw [List.take_of_length_le h.length.le] at hmem hall
    have hdepth (u : BlockId) (hu : u ∈ (s.blocks.block id).successors) :
        (s0.blocks.block id).scope.depth ≤ (s.blocks.block u).scope.depth + 1 ∧
          (s.blocks.block u).scope.depth ≤ (s0.blocks.block id).scope.depth := by
      have hpop := Scope.depth_pop (s0.blocks.block id).scope
      rcases hall u hu with heq | heq <;> rw [heq] <;> omega
    refine h.dealt hid hscope ⟨by simp [hends'], by simp [h.callee], fun _ => ⟨h.callee, hscope,
      ⟨t, target, hcontinuation, hmem, hleft, htarget, ?_⟩, fun hd => h.length.trans (hone hd), hdepth⟩⟩ fun _ => ?_
    · rw [hlook, h.preserves.look target htrange, htlook]
    · exact hmixed.imp (fun hone => h.length.trans hone) (h.mixed hrange)

/-- What a return leads to besides its continuation: nothing if it was not dealt with before. If it was, then
in a scope that is not so deep; and the new continuation is among the old ones only if there is just one. -/
theorem Forms.besides (hd : Callable d) (hf : Forms d S none [] s.blocks) (hid : id.index < s.blocks.size)
    (hnot : ¬S id) (hends : (s.blocks.block id).endsSubroutine) :
    (s.blocks.block id).callee = none ∧
      ((s.blocks.block id).successors = [] ∨ Mixed S [] s.blocks ∧ 1 < (s.blocks.block id).scope.depth ∧
        ∀ t ∈ (s.blocks.block id).successors, (s.blocks.block t).scope = .empty →
          (s.blocks.block id).successors = [t]) := by
  cases hf.pending id hid hnot nofun with
  | raw h =>
    obtain ⟨o, -, heq⟩ := h
    obtain ⟨hsuccessors, hcallee⟩ := hd.ret o (by rw [← hends, heq])
    rw [congrArg Block.callee heq, congrArg Block.successors heq]
    exact ⟨hcallee, .inl hsuccessors⟩
  | settled σ hσ h hmixed =>
    obtain ⟨hcallee, hreturned⟩ := h.ret hends
    have hpos := Scope.depth_pos.2 hreturned.inside
    refine ⟨hcallee, .inr ⟨hmixed, by omega, fun t ht hempty => ?_⟩⟩
    have hdepth := (hreturned.depth t ht).1
    rw [hempty, Scope.depth_empty] at hdepth
    obtain ⟨u, hu⟩ := List.length_eq_one_iff.1 (hreturned.single (by omega))
    rw [hu, List.mem_singleton] at ht
    rw [hu, ht]

/-- A return leads to where the call continues. -/
theorem meets_ret (hd : Callable d) (hg : Grown d s) (hf : Forms d S none [] s.blocks)
    (hid : id.index < s.blocks.size) (hnot : ¬S id) (hends : (s.blocks.block id).endsSubroutine)
    (hscope : (s.blocks.block id).scope ≠ .empty)
    (htarget : d.blockAt[(s.blocks.block id).scope.returnAddress]? = some (some target)) :
    Ensures (retargetAll id (List.range (Blocks.block (s.blocks.modify id (link target)) id).successors.length))
      { s with blocks := s.blocks.modify id (link target) } (fun _ s' => Dealt d S id s s') := by
  obtain ⟨htrange, htkind⟩ := hd.place _ _ htarget
  have htscope := hg.old target htrange
  have htlook := hg.look target htrange
  obtain ⟨hcallee, hbesides⟩ := hf.besides hd hid hnot hends
  have htrange' := Nat.lt_of_lt_of_le htrange hg.size
  have hg1 := hg.modify (f := link target) (fun _ => rfl) (fun _ => rfl) (hg.toLikeness.link hends htrange htkind)
  have hp : Preserves s.blocks (s.blocks.modify id (link target)) :=
    preserves_modify (fun _ => rfl) fun _ => rfl
  have hsame (y : BlockId) (hy : y ≠ id) :
      Blocks.block (s.blocks.modify id (link target)) y = s.blocks.block y := by
    rw [Blocks.block_modify, if_neg fun h => hy h.1]
  have hblock : Blocks.block (s.blocks.modify id (link target)) id = link target (s.blocks.block id) := by
    rw [Blocks.block_modify, if_pos ⟨rfl, hid⟩]
  have hf1 : Forms d S (some id) [] (s.blocks.modify id (link target)) := by
    refine (hf.start hnot).mono hg.range hp (fun y _ hy => hsame y fun he => hy (he ▸ rfl)) (fun _ h => h)
      fun y hle hlt => ?_
    rw [Blocks.size_modify] at hlt
    exact absurd hlt (Nat.not_lt_of_le hle)
  have hmixed (hm : Mixed S [] s.blocks) : Mixed S [] (s.blocks.modify id (link target)) := by
    refine hm.mono hp (fun y hy => ⟨hy, hsame y ?_⟩) nofun
    rintro rfl
    exact hnot hy
  have hid1 : id.index < Arena.size (s.blocks.modify id (link target)) := Nat.lt_of_lt_of_le hid hp.size
  have hsuccessors : (link target (s.blocks.block id)).successors = (s.blocks.block id).successors ++ [target] := rfl
  rw [hblock]
  refine (meets_returning (b := link target (s.blocks.block id)) hblock hg1 hf1 hid1 hcallee hscope rfl ?_ ?_ ?_
    ?_ ?_).imp fun _ s' h' => ?_
  · exact (hp.scope target htrange').trans htscope
  · simp [hsuccessors]
  · intro t ht hne
    have ht : t ∈ (s.blocks.block id).successors := by simpa [hsuccessors, hne] using ht
    obtain ⟨hdepth, hm⟩ := hf.shallower hd hg hid hnot hcallee hscope ht
    dsimp only
    rw [hp.scope t (hg.range id t ht)]
    exact ⟨hdepth, fun hne => hmixed (hm hne)⟩
  · intro k hk u hu
    rw [hsuccessors] at hk hu
    by_cases hmem : target ∈ (s.blocks.block id).successors
    · rcases hbesides with hnil | ⟨-, -, hone⟩
      · simp [hnil] at hmem
      · rw [hone target hmem htscope] at hu
        simpa using List.mem_of_mem_drop hu
    · have hle : (s.blocks.block id).successors.length ≤ k := by
        by_contra hlt
        rw [List.getElem?_append_left (by omega)] at hk
        exact hmem (List.mem_of_getElem? hk)
      rw [List.drop_eq_nil_of_le (by simp; omega)] at hu
      cases hu
  · intro hpop
    rcases hbesides with hnil | ⟨-, hdepth, -⟩
    · rw [hsuccessors, hnil]
      rfl
    · have := Scope.depth_pop (s.blocks.block id).scope
      rw [show (s.blocks.block id).scope.pop = _ from hpop, Scope.depth_empty] at this
      omega
  · obtain ⟨done, h', hreturning⟩ := h'
    have hdealt : Dealt d S id { s with blocks := s.blocks.modify id (link target) } s' := by
      refine h'.dealt_ret hblock hid1 hf1.range hscope hends htarget (Nat.lt_of_lt_of_le htrange' hp.size)
        ((hp.look target htrange').trans htlook) (fun hone => ?_) ?_ hreturning
      · change (s.blocks.block id).scope.depth = 1 at hone
        rw [hsuccessors, hbesides.resolve_right (by omega)]
        rfl
      · rcases hbesides with hnil | ⟨hm, -⟩
        · exact .inl (by rw [hsuccessors, hnil]; rfl)
        · exact .inr (hmixed hm)
    refine ⟨hdealt.grown, hdealt.forms, hp.trans hdealt.preserves, fun y hy hne => ?_, hdealt.visited⟩
    rw [hdealt.same y (Nat.lt_of_lt_of_le hy hp.size) hne]
    exact hsame y hne

/-! ### The walk -/

/-- The block was visited. -/
def Seen (s : Inlining) (x : BlockId) : Prop := s.visited.contains x.index = true

/-- Control goes from `first` to the block, by blocks that were visited. -/
inductive Reached (first : BlockId) (s : Inlining) : BlockId → Prop
  | start : Reached first s first
  | step {y x : BlockId} (h : Reached first s y) (hy : Seen s y) (hx : x ∈ (s.blocks.block y).successors) :
    Reached first s x

/-- What holds between the visits to blocks. -/
structure Walked (d : Discovery) (first : BlockId) (s : Inlining) : Prop where
  grown : Grown d s
  forms : Forms d (Seen s) none [] s.blocks
  reached : ∀ x, Seen s x → Reached first s x

/-- Blocks that were visited stay, and what was visited since leads to visited blocks only. -/
structure Advances (s s' : Inlining) : Prop where
  size : s.blocks.size ≤ s'.blocks.size
  seen : ∀ x, Seen s x → Seen s' x
  same : ∀ x, Seen s x → s'.blocks.block x = s.blocks.block x
  closed : ∀ x, Seen s' x → ¬Seen s x → ∀ t ∈ (s'.blocks.block x).successors, Seen s' t

theorem Advances.refl : Advances s s :=
  ⟨Nat.le_refl _, fun _ h => h, fun _ _ => rfl, fun _ h hn => absurd h hn⟩

theorem Advances.trans {s'' : Inlining} (h : Advances s s') (h' : Advances s' s'') : Advances s s'' where
  size := h.size.trans h'.size
  seen x hx := h'.seen x (h.seen x hx)
  same x hx := (h'.same x (h.seen x hx)).trans (h.same x hx)
  closed x hx hnot t ht := by
    by_cases hx' : Seen s' x
    · rw [h'.same x hx'] at ht
      exact h'.seen t (h.closed x hx' hnot t ht)
    · exact h'.closed x hx hx' t ht

theorem Reached.mono (h : Reached first s x) (hseen : ∀ x, Seen s x → Seen s' x)
    (hsame : ∀ x, Seen s x → s'.blocks.block x = s.blocks.block x) : Reached first s' x := by
  induction h with
  | start => exact .start
  | step _ hy hx ih => exact .step ih (hseen _ hy) (hsame _ hy ▸ hx)

theorem seen_insert {y : BlockId} (hvisited : s'.visited = s.visited.insert id.index) :
    Seen s' y ↔ Seen s y ∨ y = id := by
  have hindex : y.index = id.index ↔ y = id := ⟨fun h => by cases y; cases id; cases h; rfl, fun h => h ▸ rfl⟩
  rw [Seen, hvisited, BitSet.contains_insert, hindex, or_comm, Seen]

/-- A block that was dealt with is visited. -/
theorem Walked.deal (h : Walked d first s) (hreached : Reached first s id) (hnot : ¬Seen s id) {s1 : Inlining}
    (hdealt : Dealt d (Seen s) id { s with visited := s.visited.insert id.index } s1) :
    Walked d first s1 ∧ (∀ y, Seen s1 y ↔ Seen s y ∨ y = id) ∧
      ∀ y, Seen s y → s1.blocks.block y = s.blocks.block y := by
  have hseen (y : BlockId) : Seen s1 y ↔ Seen s y ∨ y = id := seen_insert hdealt.visited
  have hsame (y : BlockId) (hy : Seen s y) : s1.blocks.block y = s.blocks.block y := by
    refine hdealt.same y (h.forms.range y hy) ?_
    rintro rfl
    exact hnot hy
  have hmono (y : BlockId) (hy : Reached first s y) : Reached first s1 y :=
    hy.mono (fun x hx => (hseen x).2 (.inl hx)) hsame
  have hfun : Seen s1 = fun y => Seen s y ∨ y = id := funext fun y => propext (hseen y)
  refine ⟨⟨hdealt.grown, hfun ▸ hdealt.forms, fun y hy => ?_⟩, hseen, hsame⟩
  rcases (hseen y).1 hy with hy | rfl
  · exact hmono y (h.reached y hy)
  · exact hmono y hreached

/-- A block that is entered gets its successors redirected as far as that is needed. -/
theorem Walked.meets_deal (hd : Callable d) (h : Walked d first s)
    (hid : id.index < s.blocks.size) (hnot : ¬Seen s id) : Ensures (enter d.blockAt id >>= fun places =>
      retargetAll id places) s
      (fun _ s' => Dealt d (Seen s) id { s with visited := s.visited.insert id.index } s') := by
  have hg0 : Grown d { s with visited := s.visited.insert id.index } := { h.grown with }
  refine meets_bind.2 ?_
  unfold enter
  refine meets_change.2 (meets_observe.2 ?_)
  dsimp only
  split
  · rename_i hends
    refine Meets.bind ((meets_addContinuation d.blockAt id _).ensures fun _ _ h => h) fun _ s1 h1 => ?_
    obtain ⟨hscope, target, htarget, rfl⟩ := h1
    rw [if_pos (by simp [← Scope.isEmpty_iff] at hscope; simp [hscope])]
    refine meets_observe.2 (meets_pure.2 ?_)
    exact meets_ret hd hg0 h.forms hid hnot hends hscope htarget
  · rename_i hends
    replace hends := Bool.eq_false_iff.2 hends
    split
    · rename_i hcase
      refine meets_observe.2 (meets_pure.2 ?_)
      cases hcallee : (s.blocks.block id).callee with
      | some t => exact meets_call hd hg0 h.forms hid hnot hcallee
      | none =>
        have hscope : (s.blocks.block id).scope ≠ .empty := by
          intro hempty
          simp [hcallee, hempty, Scope.isEmpty, Scope.empty] at hcase
        exact meets_plain hd hg0 h.forms hid hnot hends hcallee hscope
    · rename_i hcase
      simp only [Bool.or_eq_true, Bool.not_eq_true, not_or, Option.isSome_eq_false_iff,
        Option.isNone_iff_eq_none, Bool.not_eq_false, Bool.not_eq_eq_eq_not, Bool.not_true] at hcase
      exact meets_pure.2 (meets_pure.2 ⟨hg0, h.forms.leave hd hg0 hid hnot hends hcase.1
        (Scope.isEmpty_iff.1 hcase.2), .refl, fun _ _ _ => rfl, rfl⟩)

/-- A block is visited, and with it all that it leads to. The blocks on the way to it are different ones, so
that fuel does not run out. -/
theorem performs_visit (hd : Callable d) : ∀ {fuel : Nat} (path : List BlockId) {id : BlockId}
    {s : Inlining}, Walked d first s → id.index < s.blocks.size → ¬Seen s id → Reached first s id →
    path.Nodup → (∀ y ∈ path, Seen s y) → d.blocks.size * (2 ^ 64 + 1) ^ 4 < fuel + path.length →
    Performs d.blockAt [.visit id] (visit d.blockAt fuel id) () s
      fun s' => Walked d first s' ∧ Advances s s' ∧ Seen s' id := by
  intro fuel
  induction fuel with
  | zero =>
    intro path id s h _ _ _ hnodup hpath hfuel
    have hlength := length_le_of_nodup hnodup fun y hy => h.forms.range y (hpath y hy)
    have hsize := h.grown.size_le
    omega
  | succ fuel ih =>
    intro path id s h hid hnot hreached hnodup hpath hfuel
    rw [visit]
    refine .visit hnot fun places s0 henter => ?_
    have hdeal := h.meets_deal hd hid hnot
    rw [Ensures, meets_bind, Meets, henter] at hdeal
    refine ((Performs.retargets places).and_meets hdeal).bind fun s1 hdealt => .follow ?_
    obtain ⟨h1, hseen, hsame⟩ := h.deal hreached hnot hdealt
    have hid1 : Seen s1 id := (hseen id).2 (.inr rfl)
    refine (Performs.forIn (fun left s' => Walked d first s' ∧ Advances s1 s' ∧ ∃ before,
      before ++ left = (s1.blocks.block id).successors ∧ ∀ t ∈ before, Seen s' t)
      ⟨h1, .refl, [], rfl, List.forall_mem_nil _⟩ fun t left s2 h2 => ?_).bind_pure fun s' h' => ?_
    · obtain ⟨h2, hadvances, before, hbefore, hall⟩ := h2
      have hmem : t ∈ (s2.blocks.block id).successors := by
        rw [hadvances.same id hid1, ← hbefore]
        simp
      have hnext {s3 : Inlining} (hadvances' : Advances s2 s3) (ht : Seen s3 t) : ∃ before',
          before' ++ left = (s1.blocks.block id).successors ∧ ∀ u ∈ before', Seen s3 u := by
        refine ⟨before ++ [t], by simpa using hbefore, fun u hu => ?_⟩
        rcases List.mem_append.1 hu with hu | hu
        · exact hadvances'.seen u (hall u hu)
        · rw [List.mem_singleton.1 hu]
          exact ht
      refine .get_bind ?_
      by_cases ht : Seen s2 t
      · rw [if_neg (by simpa [Seen] using ht)]
        exact .seen ht ⟨h2, hadvances, hnext .refl ht⟩
      · rw [if_pos (by simpa [Seen] using ht)]
        refine (ih (id :: path) h2 (h2.grown.range id t hmem) ht
          (.step (h2.reached id (hadvances.seen id hid1)) (hadvances.seen id hid1) hmem)
          (List.nodup_cons.2 ⟨fun hp => hnot (hpath id hp), hnodup⟩) (fun y hy => ?_)
          (by rw [List.length_cons]; omega)).bind_pure fun s3 h3 => ?_
        · refine hadvances.seen y ((hseen y).2 ?_)
          exact (List.mem_cons.1 hy).elim .inr fun hy => .inl (hpath y hy)
        · exact ⟨h3.1, hadvances.trans h3.2.1, hnext h3.2.1 h3.2.2⟩
    · obtain ⟨h', hadvances, before, hbefore, hall⟩ := h'
      rw [List.append_nil] at hbefore
      refine ⟨h', ⟨hdealt.preserves.size.trans hadvances.size,
        fun x hx => hadvances.seen x ((hseen x).2 (.inl hx)),
        fun x hx => (hadvances.same x ((hseen x).2 (.inl hx))).trans (hsame x hx), fun x hx hn t ht => ?_⟩,
        hadvances.seen id hid1⟩
      by_cases hx1 : Seen s1 x
      · obtain rfl := ((hseen x).1 hx1).resolve_left hn
        rw [hadvances.same x hx1, ← hbefore] at ht
        exact hall t ht
      · exact hadvances.closed x hx hx1 t ht

/-- What inlining comes to: the blocks that are reached were dealt with. -/
structure Finished (d : Discovery) (first : BlockId) (s : Inlining) : Prop extends Walked d first s where
  first : Seen s first
  closed : ∀ x, Seen s x → ∀ t ∈ (s.blocks.block x).successors, Seen s t

/-- Stated for any fuel: the bound in use is far too large to be looked at. -/
theorem exists_runs_visit (hd : Callable d) (hfirst : first.index < d.blocks.size)
    {fuel : Nat} (hfuel : d.blocks.size * (2 ^ 64 + 1) ^ 4 < fuel) :
    ∃ s r, Runs d.blockAt [.visit first] { blocks := d.blocks } s r ∧ (do
        let (_, s) ← (visit d.blockAt fuel first).run { blocks := d.blocks }
        return s.blocks : Except Bailout Blocks) = r.map (fun _ => s.blocks) ∧
      (r = .ok () → Finished d first s) := by
  have hnew (x : BlockId) : ¬Seen { blocks := d.blocks } x := by simp [Seen]
  have hforms : Forms d (Seen { blocks := d.blocks }) none [] d.blocks :=
    ⟨fun x hx => absurd hx (hnew x), nofun, fun x hx => absurd hx (hnew x), fun x hx => absurd hx (hnew x),
      fun x hx => absurd hx (hnew x), fun x hx _ _ => .raw ⟨x, hx, rfl⟩⟩
  obtain ⟨s, r, hruns, hvisit, hpost⟩ := performs_visit hd [] ⟨.init hd, hforms, fun x hx => absurd hx (hnew x)⟩
    hfirst (hnew first) .start .nil nofun hfuel
  refine ⟨s, r, hruns, ?_, fun hr => ?_⟩
  · rw [StateT.run, hvisit]
    cases r <;> rfl
  · obtain ⟨hwalked, hadvances, hseen⟩ := hpost hr
    exact ⟨hwalked, hseen, fun x hx => hadvances.closed x hx (hnew x)⟩

end Flow.Inlining

/-- Inlining ends, and it comes to what a run without fuel comes to. -/
theorem Flow.exists_runs_inlineSubroutines {d : Discovery} (hd : Inlining.Callable d) {first : BlockId}
    (hfirst : first.index < d.blocks.size) :
    ∃ s r, Inlining.Runs d.blockAt [.visit first] { blocks := d.blocks } s r ∧
      inlineSubroutines d first = r.map (fun _ => s.blocks) ∧ (r = .ok () → Inlining.Finished d first s) := by
  refine Inlining.exists_runs_visit hd hfirst (Nat.lt_succ_of_le (Nat.mul_le_mul_left _ ?_))
  exact Nat.pow_le_pow_right (Nat.succ_pos _) (by decide)

end SeaOfNodes
