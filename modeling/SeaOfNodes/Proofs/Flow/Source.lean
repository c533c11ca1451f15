import SeaOfNodes.Proofs.Flow.Likeness
import SeaOfNodes.Proofs.Flow.Scan
import SeaOfNodes.Proofs.Flow.Stages

/-!
# Where blocks come from

A block that is found in the code ends with an instruction and leads where that one leads, or else says
nothing of subroutines. Each block of a map is a copy of such a block.
-/

namespace SeaOfNodes

open Bytecode

namespace Flow.Discovery

variable {m : Method} {options : Options} {d : Discovery} {n : Nat} {id t : BlockId} {c : Cursor}

/-- The instruction with which a block ends. -/
structure LastOf (m : Method) (options : Options) (d : Discovery) (id : BlockId) (c : Cursor) : Prop where
  mem : c ∈ instructions m.code
  code : IsCode d id
  start : (d.blocks.block id).start ≤ c.bci
  stop : c.bci ≤ (d.blocks.block id).stop
  last : (d.blocks.block id).stop < c.next
  tip : m.ClosesBlock options c → (d.blocks.block id).stop = c.bci
  ends : EndsWith m options d.blocks d.blockAt c (d.blocks.block id)

/-- A block that starts with an instruction has a last one. -/
theorem Mapped.exists_last {opened : Option (List BlockId)} (h : Mapped m options n opened d)
    (hn : n ≤ m.code.size) {a : Cursor} (ha : a ∈ instructions m.code) {stop : Int} (hle : a.bci ≤ stop)
    (hstop : stop < n) : ∃ c ∈ instructions m.code, a.bci ≤ c.bci ∧ c.bci ≤ stop ∧ stop < c.next := by
  induction hk : (stop - a.bci).toNat using Nat.strong_induction_on generalizing a with
  | _ k ih =>
    have hnext := lt_next ha
    by_cases hin : stop < a.next
    · exact ⟨a, ha, Nat.le_refl _, hle, hin⟩
    rcases (site_next ha (by omega)).2 with ⟨b, hb, hba⟩ | hall
    · obtain ⟨c, hc, hfrom, hto⟩ := ih _ (by omega) hb (by omega) rfl
      exact ⟨c, hc, by omega, hto⟩
    · -- then all instructions are read before the end of the block
      have := h.read a.next hall
      omega

/-- A block ends with an instruction, or says nothing of subroutines and leads nowhere. -/
theorem Read.ends_or_marks (h : Read m options d) (id : BlockId) :
    (∃ c, LastOf m options d id c) ∨ (d.blocks.block id).marks = (none, 0, false) ∧
      ((d.blocks.block id).kind = .bytecodes → (d.blocks.block id).successors = []) := by
  obtain ⟨n, current, hready, hwalk⟩ := h.ready
  have hmapped := hready.mapped
  by_cases hid : id.index < d.blocks.size
  swap
  · rw [Blocks.block_of_le (Nat.le_of_not_lt hid)]
    exact .inr ⟨rfl, fun _ => rfl⟩
  by_cases hkind : (d.blocks.block id).kind = .bytecodes
  swap
  · exact .inr ⟨(hmapped.fresh id).marks hkind, fun hk => absurd hk hkind⟩
  have hcode : IsCode d id := ⟨hid, hkind⟩
  have hlies := hmapped.lies hcode
  obtain ⟨k, hsite, hstarts⟩ := hlies.start
  have hstart := hstarts.start
  obtain ⟨-, -, hto⟩ := hmapped.within k id hstarts.place
  rcases hsite.2 with ⟨a, ha, rfl⟩ | hall
  swap
  · have := hmapped.read k hall
    obtain ⟨-, hsuccessors, hmarks⟩ := hlies.ahead (by omega)
    exact .inr ⟨hmarks, fun _ => hsuccessors⟩
  have hread (b : Cursor) (hb : b ∈ instructions m.code) : b.bci < n :=
    (hready.reached b hb).resolve_right (by rw [hwalk]; exact List.not_mem_nil)
  obtain ⟨c, hc, hac, hcs, hlast⟩ := hmapped.exists_last hready.bound ha hto
    (hlies.behind (by have := hread a ha; omega))
  have hfrom : (d.blocks.block id).start ≤ c.bci := by omega
  have hin := hlies.range c hc hfrom hcs
  by_cases hopen : current = none ∨ c.next ≠ n
  · refine .inl ⟨c, hc, hcode, hfrom, hcs, hlast, hlies.tip c hc hin,
      hlies.flow c hc hin hlast (hread c hc) ?_⟩
    exact hopen.imp_left fun hnone => by rw [hnone]; rfl
  · rw [not_or, not_not] at hopen
    obtain ⟨owner, howner⟩ := Option.ne_none_iff_exists'.1 hopen.1
    obtain ⟨-, hsuccessors, hmarks⟩ := hlies.openAt [] (by rw [howner]; rfl) c hc hin hopen.2
    exact .inr ⟨hmarks, fun _ => hsuccessors⟩

/-- A block that ends with a return from a subroutine leads nowhere yet. -/
theorem LastOf.ret (h : LastOf m options d id c) (hform : c.form? = some .ret) :
    (d.blocks.block id).successors = [] ∧ (d.blocks.block id).callee = none ∧
      (d.blocks.block id).endsSubroutine := by
  obtain ⟨⟨ids, chain, hids, hchain, heq⟩, hmarks⟩ := h.ends
  have hways : c.ways = [] := by simp [Cursor.ways, hform]
  rw [hways] at hids
  cases hids
  rw [catchers_eq_nil (by rw [hform]; rfl)] at hchain
  cases hchain
  simp only [Block.marks, Cursor.marks, hform, Prod.mk.injEq] at hmarks
  exact ⟨heq, hmarks.1, hmarks.2.2⟩

/-- A block that ends with a call leads to the subroutine. -/
theorem LastOf.call (h : LastOf m options d id c) {far : Bool} (hform : c.form? = some (.call far)) :
    ∃ t, (d.blocks.block id).successors = [t] ∧ (d.blocks.block id).callee = some t ∧
      (d.blocks.block id).returnBci = c.next ∧ (d.blocks.block id).endsSubroutine = false := by
  obtain ⟨⟨ids, chain, hids, hchain, heq⟩, hmarks⟩ := h.ends
  have hways : c.ways = [c.target.toNat] := by simp [Cursor.ways, hform]
  rw [hways] at hids
  cases hids with
  | cons hstarts hnil =>
    cases hnil
    rw [catchers_eq_nil (by rw [hform]; rfl)] at hchain
    cases hchain
    simp only [Block.marks, Cursor.marks, hform, Prod.mk.injEq, heq] at hmarks
    exact ⟨_, heq, hmarks.1, hmarks.2.1, hmarks.2.2⟩

/-- Only a call has a callee, and only a return ends a subroutine. -/
theorem LastOf.form (h : LastOf m options d id c) :
    (∀ t, (d.blocks.block id).callee = some t → ∃ far, c.form? = some (.call far)) ∧
      ((d.blocks.block id).endsSubroutine → c.form? = some .ret) := by
  have hmarks := h.ends.marks
  unfold Block.marks Cursor.marks at hmarks
  split at hmarks <;> simp_all

theorem LastOf.range (h : LastOf m options d id c) : ∀ t ∈ (d.blocks.block id).successors,
    t.index < d.blocks.size := by
  obtain ⟨ids, chain, hids, hchain, heq⟩ := h.ends.follows
  intro t ht
  rw [heq] at ht
  rcases List.mem_append.1 ht with ht | ht
  · obtain ⟨i, hi, rfl⟩ := List.mem_iff_getElem.1 ht
    exact ((List.forall₂_iff_get.1 hids).2 i (hids.length_eq ▸ hi) hi).range
  · exact range_of_chain hchain t (Option.mem_toList.1 ht)

/-- A dispatch block leads to blocks that exist. -/
theorem Chained.range (h : Chained m d) {i : Nat} {bci : Int}
    (hid : (d.blocks.block id).kind = .dispatch i bci) : ∀ t ∈ (d.blocks.block id).successors,
      t.index < d.blocks.size := by
  obtain ⟨rest, hmem⟩ := h.listed id i bci hid
  obtain ⟨row, entry, at_, -, -, -, hentry, hsuccessors⟩ := h.link _ hmem
  intro t ht
  rw [hsuccessors] at ht
  rcases List.mem_cons.1 ht with rfl | ht
  · exact hentry.range
  · exact h.rest _ hmem t (Option.mem_toList.1 ht)

theorem Read.founded (h : Read m options d) : Inlining.Founded d where
  range x t ht := by
    obtain ⟨n, current, hready, -⟩ := h.ready
    rcases h.ends_or_marks x with ⟨c, hlast⟩ | ⟨-, hnone⟩
    · exact hlast.range t ht
    · rcases (hready.mapped.fresh x).kind with hkind | ⟨i, bci, hkind⟩
      · rw [hnone hkind] at ht
        cases ht
      · exact hready.mapped.chains.range hkind t ht
  place i t ht := by
    obtain ⟨n, current, hready, -⟩ := h.ready
    exact (hready.mapped.within i t ht).1
  ret x hx := by
    rcases h.ends_or_marks x with ⟨c, hends⟩ | ⟨hmarks, -⟩
    · obtain ⟨hsuccessors, hcallee, -⟩ := hends.ret (hends.form.2 hx)
      exact ⟨hsuccessors, hcallee⟩
    · have : (d.blocks.block x).endsSubroutine = false := congrArg (·.2.2) hmarks
      rw [this] at hx
      cases hx
  callee x t ht := by
    rcases h.ends_or_marks x with ⟨c, hlast⟩ | ⟨hmarks, -⟩
    · obtain ⟨far, hform⟩ := hlast.form.1 t ht
      obtain ⟨u, hsuccessors, hcallee, -⟩ := hlast.call hform
      obtain rfl := Option.mem_unique hcallee ht
      exact hsuccessors ▸ List.mem_singleton.2 rfl
    · cases (congrArg (·.1) hmarks : (d.blocks.block x).callee = none).symm.trans ht
  fresh x := by
    obtain ⟨n, current, hready, -⟩ := h.ready
    exact hready.mapped.fresh x

end Flow.Discovery

namespace BlockMap

open Flow

variable {m : Method} {options : Options} {d : Discovery} {first : BlockId} {blocks : Blocks}

/-- Inlining subroutines, if there are any, leaves copies of what was found. -/
theorem ends_inlined (hd : Inlining.Founded d) (first : BlockId) :
    Ends (inlined options d first) (fun blocks => ∃ s : Inlining, s.blocks = blocks ∧ Inlining.Likeness d s)
      (· ≠ .nonReducibleLoop) := by
  unfold inlined
  split
  · split
    · exact Inlining.Likeness.ends_inlineSubroutines hd first
    · nofun
  · exact ends_ok.2 ⟨_, rfl, .init hd⟩

theorem Found.founded (h : Found m options d first blocks) : Inlining.Founded d :=
  ((Discovery.ends_discover_read m options).of_ok h.discover).founded

/-- Each block before the ordering is a copy of one that was found. -/
theorem Found.exists_like (h : Found m options d first blocks) {x : BlockId} (hx : x.index < blocks.size) :
    ∃ o : BlockId, o.index < d.blocks.size ∧ Inlining.Like d blocks o (blocks.block x) := by
  obtain ⟨s, rfl, hs⟩ := (ends_inlined h.founded first).of_ok h.inlined
  exact hs.like x hx

end BlockMap

end SeaOfNodes
