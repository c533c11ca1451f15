import SeaOfNodes.Proofs.Flow.ControlFlow
import SeaOfNodes.Proofs.Flow.Visiting

/-!
# Subroutines

Inlining ends for every method that can be read. In the map of a method with subroutines, a call leads to a
copy of the subroutine in the scope that it enters, and a return leads to where the call continues, in the
scope that is left. The return leads nowhere else, unless some call stands both outside of subroutines and
inside of one.
-/

namespace SeaOfNodes

open Bytecode

namespace Flow.Discovery

variable {m : Method} {options : Options} {d : Discovery} {id : BlockId} {c : Cursor}

/-- A block that is open at the end does not end with an instruction that closes blocks. -/
theorem Ready.closed {n : Nat} {current : Option BlockId} (h : Ready m options n current d)
    (hc : c ∈ instructions m.code) (hclose : m.ClosesBlock options c) : current = none ∨ c.next ≠ n := by
  by_contra hopen
  rw [not_or, not_not] at hopen
  obtain ⟨owner, howner⟩ := Option.ne_none_iff_exists'.1 hopen.1
  obtain ⟨b, hb, hnext, -, hgoes⟩ := h.last owner howner
  obtain rfl := eq_of_next hb hc (hnext.trans hopen.2.symm)
  exact hgoes hclose

theorem closesBlock_of_isCall (hcall : c.form?.any Form.isCall) : m.ClosesBlock options c := by
  refine .inl ?_
  cases hform : c.form? with
  | none => simp [hform] at hcall
  | some form => cases form <;> simp_all [Form.isCall, Form.isBlockEnd]

section

variable (h : Read m options d) (hc : c ∈ instructions m.code)

include h hc

/-- A method with a call has subroutines. -/
theorem Read.hasSubroutines (hcall : c.form?.any Form.isCall) : d.hasSubroutines := by
  obtain ⟨n, current, hready, hwalk⟩ := h.ready
  refine hready.mapped.called c hc ?_ ?_ hcall
  · exact (hready.reached c hc).resolve_right (by rw [hwalk]; exact List.not_mem_nil)
  · exact (hready.closed hc (closesBlock_of_isCall hcall)).imp_left fun hnone => by rw [hnone]; rfl

/-- A block with an instruction that closes blocks ends with it. -/
theorem Read.lastOf (hclose : m.ClosesBlock options c)
    (hid : IsCode d id) (hfrom : (d.blocks.block id).start ≤ c.bci) (hto : c.bci ≤ (d.blocks.block id).stop) :
    LastOf m options d id c := by
  obtain ⟨n, current, hready, hwalk⟩ := h.ready
  have hlast : (d.blocks.block id).stop < c.next := by
    by_contra hlt
    exact hready.mapped.inner hid hc hfrom (by omega) hclose
  have hlies := hready.mapped.lies hid
  have hin := hlies.range c hc hfrom hto
  refine ⟨hc, hid, hfrom, hto, hlast, hlies.tip c hc hin, hlies.flow c hc hin hlast ?_ ?_⟩
  · exact (hready.reached c hc).resolve_right (by rw [hwalk]; exact List.not_mem_nil)
  · exact (hready.closed hc hclose).imp_left fun hnone => by rw [hnone]; rfl

/-- After a call a block starts, to which the subroutine returns. -/
theorem Read.returns {far : Bool}
    (hform : c.form? = some (.call far)) : Inlining.Returns d (c.next % 65536) := by
  obtain ⟨n, current, hready, -⟩ := h.ready
  intro hsize t ht
  have hnext := lt_next hc
  have hlt := ((h.admits c hc).next _ hform rfl).1
  rw [hready.mapped.size] at hsize
  rw [Nat.mod_eq_of_lt (by omega)] at ht ⊢
  obtain ⟨hcode, hfrom, hto⟩ := hready.mapped.within c.next t ht
  obtain ⟨k, hk, hstarts⟩ := (hready.mapped.lies hcode).start
  have hstart := hstarts.start
  by_contra hne
  -- then the block would go on from the call
  have hle : k ≤ c.bci := by
    by_contra hlt
    have := hk.next_le hc (by omega)
    omega
  exact hready.mapped.inner hcode hc (by omega) hto
    (closesBlock_of_isCall (by rw [hform]; rfl))

end

theorem Read.callable (h : Read m options d) : Inlining.Callable d where
  toFounded := h.founded
  call x t ht := by
    rcases h.ends_or_marks x with ⟨c, hlast⟩ | ⟨hmarks, -⟩
    · obtain ⟨far, hform⟩ := hlast.form.1 t ht
      obtain ⟨u, hsuccessors, hcallee, hreturn, hends⟩ := hlast.call hform
      obtain rfl := Option.mem_unique hcallee ht
      exact ⟨hsuccessors, hends, hreturn ▸ h.returns hlast.mem hform⟩
    · have : (d.blocks.block x).callee = none := congrArg (·.1) hmarks
      rw [this] at ht
      cases ht

end Flow.Discovery

/-- Inlining ends, well or with a bailout, and the blocks that it adds are in one to four subroutines. -/
theorem Flow.inlineSubroutines_ends {m : Method} {options : Options} {d : Discovery} {first : BlockId}
    (hd : discover m options = .ok d) (hfirst : (d.blockAt[0]?).join = some first) :
    ∃ s r, Inlining.Runs d.blockAt [.visit first] { blocks := d.blocks } s r ∧
      inlineSubroutines d first = r.map (fun _ => s.blocks) ∧
      (r = .ok () → s.blocks.size ≤ d.blocks.size * (2 ^ 64 + 1) ^ 4) ∧
      ∀ x : BlockId, d.blocks.size ≤ x.index → x.index < s.blocks.size →
        (s.blocks.block x).scope ≠ .empty ∧ (s.blocks.block x).scope.addresses.length ≤ 4 := by
  have hread := (Discovery.ends_discover_read m options).of_ok hd
  have hrange := (hread.founded.place 0 first (Option.join_eq_some_iff.1 hfirst)).1
  obtain ⟨s, r, hruns, heq, hfinished⟩ := exists_runs_inlineSubroutines hread.callable hrange
  refine ⟨s, r, hruns, heq, fun hr => (hfinished hr).grown.size_le, fun x hx hlt => ?_⟩
  have hcloned := hruns.cloned ⟨Nat.le_refl _, fun x hx hlt => absurd hlt (Nat.not_lt_of_le hx)⟩
  exact ⟨hcloned.scope x hx hlt, Scope.length_addresses_le _⟩

/-- A subroutine that calls itself. -/
def Method.callsItself : Method :=
  .ofCode #[0xa8, 0, 3, 0x4c, 0xa8, 0xff, 0xff, 0xb1] [] []

/-- The copies of the subroutine are copied in turn, until a fifth one would be too deep. -/
theorem Flow.inlineSubroutines_ends_callsItself :
    ∃ d, discover .callsItself .standard = .ok d ∧ (d.blockAt[0]?).join = some ⟨0⟩ ∧
      ∃ s, Inlining.Runs d.blockAt [.visit ⟨0⟩] { blocks := d.blocks } s (.error (.subroutine .tooDeep)) ∧
        ∀ x : BlockId, d.blocks.size ≤ x.index → x.index < s.blocks.size →
          (s.blocks.block x).scope ≠ .empty ∧ (s.blocks.block x).scope.addresses.length ≤ 4 := by
  obtain ⟨d, hd, h⟩ : ∃ d, discover .callsItself .standard = .ok d ∧
      (decide ((d.blockAt[0]?).join = some (⟨0⟩ : BlockId)) &&
        failsWith (inlineSubroutines d ⟨0⟩) (.subroutine .tooDeep)) = true :=
    exists_ok_of_any (by decide +kernel)
  rw [Bool.and_eq_true, decide_eq_true_iff] at h
  obtain ⟨s, r, hruns, heq, -, hscope⟩ := inlineSubroutines_ends hd h.1
  rw [eq_error_of_failsWith h.2] at heq
  cases r with
  | ok => cases heq
  | error e =>
    cases heq
    exact ⟨d, hd, h.1, s, hruns, hscope⟩

namespace BlockMap

open Flow

variable {m : Method} {options : Options} {map : BlockMap} {completed : Blocks} {s : Flow.Ordering}
  {first : BlockId} {d : Discovery}

instance (map : BlockMap) (b : BlockId) (bci : Nat) : Decidable (map.Spans b bci) :=
  decidable_of_iff (b.index < map.blocks.size ∧ (map.block b).kind = .bytecodes ∧
    (map.block b).start ≤ bci ∧ bci ≤ (map.block b).stop)
    ⟨fun ⟨hr, hk, hs, ht⟩ => ⟨hr, hk, hs, ht⟩, fun ⟨hr, hk, hs, ht⟩ => ⟨hr, hk, hs, ht⟩⟩

/-- Some call stands outside of subroutines and inside of one. -/
def CallsMixed (map : BlockMap) (m : Method) : Prop :=
  ∃ b ∈ map.order, ∃ b' ∈ map.order, ∃ c, map.IsLast m b c ∧ map.IsLast m b' c ∧
    c.form?.any Form.isCall = true ∧ (map.block b).scope = .empty ∧ (map.block b').scope ≠ .empty

/-- What a map says of subroutines. -/
structure Inlines (map : BlockMap) (m : Method) : Prop where
  /-- A call leads into the subroutine, in the scope with the address after the call. -/
  call : ∀ b ∈ map.order, ∀ c, map.IsLast m b c → c.form?.any Form.isCall = true →
    ∃ t, (map.block b).callee = some t ∧ (map.block b).successors = [t] ∧
      (map.block b).scope.push c.next = .ok (map.block t).scope
  /-- A return leads to the innermost address of its scope, in the scope without that address. -/
  ret : ∀ b ∈ map.order, ∀ c, map.IsLast m b c → c.form? = some .ret →
    (map.block b).scope ≠ .empty ∧ ∃ t, (map.block b).continuation = some t ∧
      t ∈ (map.block b).successors ∧ (map.block t).kind = .bytecodes ∧
      (map.block t).start = (map.block b).scope.returnAddress ∧
      (map.block t).scope = (map.block b).scope.pop
  /-- It leads nowhere else. -/
  single : ¬map.CallsMixed m → ∀ b ∈ map.order, ∀ c, map.IsLast m b c → c.form? = some .ret →
    ∃ t, (map.block b).successors = [t]

/-- The map of a method whose subroutines are inlined, and the walk that inlined them. -/
theorem Staged.finished {blocks : Blocks}
    (h : Staged m options d first blocks s completed map) (hread : Discovery.Read m options d)
    (hsub : d.hasSubroutines) :
    ∃ w : Inlining, w.blocks = blocks ∧ Inlining.Finished d first w ∧
      ∀ x, x ∈ map.order ↔ w.Seen x := by
  have hfirst := (hread.founded.place 0 first (Option.join_eq_some_iff.1 h.start)).1
  have hcallable := hread.callable
  have hinlined := h.inlined
  unfold BlockMap.inlined at hinlined
  rw [if_pos hsub] at hinlined
  split at hinlined
  swap
  · cases hinlined
  obtain ⟨w, r, -, heq, hw⟩ := exists_runs_inlineSubroutines hcallable hfirst
  rw [hinlined] at heq
  cases r with
  | error e => cases heq
  | ok =>
  obtain rfl := Except.ok.inj heq
  replace hw := hw rfl
  refine ⟨w, rfl, hw, fun x => ?_⟩
  obtain ⟨hwalk, hhead⟩ := h.walking h.order
  have horder : map.order = s.order := by rw [h.result]
  rw [horder]
  constructor
  · exact h.within ⟨hw.forms.range, hw.closed⟩ hw.first x
  · intro hx
    have hreached := hw.reached x hx
    induction hreached with
    | start => exact List.mem_of_head? hhead
    | step hy hseen ht ih => exact hwalk.mem_order (ih hseen) ht

section

variable {d : Discovery} {first b o : BlockId} {blocks completed : Blocks} {s : Flow.Ordering} {c : Cursor}

/-- A block of a map that looks like a block that was found ends with the same instruction. -/
theorem Staged.isLast (h : Staged m options d first blocks s completed map) (hb : b.index < blocks.size)
    (hlook : (blocks.block b).look = (d.blocks.block o).look) (hlast : Discovery.LastOf m options d o c) :
    map.IsLast m b c := by
  obtain ⟨hkind, hstart, hstop⟩ := h.range hlook
  refine ⟨hlast.mem, ⟨h.alike.size.symm ▸ hb, hkind.trans hlast.code.2, hstart ▸ hlast.start,
    hstop ▸ hlast.stop⟩, fun c' hc' hspans => ?_⟩
  by_contra hlt
  have hnext := next_le hlast.mem hc' (by omega)
  have hto := hspans.stop
  have := hlast.last
  omega

/-- The instruction with which a block of a map ends closes the block that it is a copy of. -/
theorem Staged.lastOf (h : Staged m options d first blocks s completed map)
    (hread : Discovery.Read m options d) (ho : o.index < d.blocks.size)
    (hlook : (blocks.block b).look = (d.blocks.block o).look) (hlast : map.IsLast m b c)
    (hclose : m.ClosesBlock options c) : Discovery.LastOf m options d o c := by
  obtain ⟨hkind, hstart, hstop⟩ := h.range hlook
  exact hread.lastOf hlast.mem hclose ⟨ho, hkind ▸ hlast.spans.kind⟩ (hstart ▸ hlast.spans.start)
    (hstop ▸ hlast.spans.stop)

end

/-- A mix of calls in the walk shows in the map. -/
theorem Staged.callsMixed {w : Inlining} (h : Staged m options d first w.blocks s completed map)
    (hread : Discovery.Read m options d) (hw : Inlining.Finished d first w)
    (horder : ∀ x, x ∈ map.order ↔ w.Seen x) (hmixed : Inlining.Mixed w.Seen [] w.blocks) :
    map.CallsMixed m := by
  obtain ⟨j, x, hj, hcallee, hempty, hx, hscope, hlook, href⟩ := hmixed
  obtain ⟨y, hy, hyx⟩ := href.resolve_left List.not_mem_nil
  have hscopes (b : BlockId) : (map.block b).scope = (w.blocks.block b).scope := (h.same b).1
  obtain ⟨o, ho, hlike⟩ := hw.grown.like j (hw.forms.range j hj)
  obtain ⟨t, ht⟩ := Option.isSome_iff_exists.1 (hlike.calls.symm.trans hcallee)
  rcases hread.ends_or_marks o with ⟨c, hlast⟩ | ⟨hmarks, -⟩
  · obtain ⟨far, hform⟩ := hlast.form.1 t ht
    exact ⟨j, (horder j).2 hj, x, (horder x).2 (hw.closed y hy x hyx), c,
      h.isLast (hw.forms.range j hj) hlike.look hlast, h.isLast hx (hlook.trans hlike.look) hlast,
      by rw [hform]; rfl, (hscopes j).trans hempty, fun he => hscope ((hscopes x).symm.trans he)⟩
  · have : (d.blocks.block o).callee = none := congrArg (·.1) hmarks
    rw [this] at ht
    cases ht

/-- Subroutines are inlined: a call has one successor, and so has a return unless calls are mixed. -/
theorem inlines_of_create (hsize : m.code.size ≤ 65535)
    (hcalls : ∃ c ∈ instructions m.code, c.form?.any Form.isCall = true)
    (hmap : create m options = .ok map) : map.Inlines m := by
  obtain ⟨d, first, blocks, s, completed, hstaged⟩ := (ends_create_stages m options).of_ok hmap
  have hread := (Discovery.ends_discover_read m options).of_ok hstaged.discover
  obtain ⟨c₀, hc₀, hcall₀⟩ := hcalls
  obtain ⟨w, rfl, hw, horder⟩ := hstaged.finished hread (hread.hasSubroutines hc₀ hcall₀)
  have hscope (b : BlockId) : (map.block b).scope = (w.blocks.block b).scope := (hstaged.same b).1
  -- a block that ends with a return ends a subroutine
  have hret (b : BlockId) (hb : b ∈ map.order) (c : Cursor) (hlast : map.IsLast m b c)
      (hform : c.form? = some .ret) : (w.blocks.block b).endsSubroutine = true := by
    obtain ⟨o, ho, hlike⟩ := hw.grown.like b (hw.forms.range b ((horder b).1 hb))
    rw [Block.endsSubroutine_eq_of_look hlike.look]
    exact ((hstaged.lastOf hread ho hlike.look hlast (.inl (by rw [hform]; rfl))).ret hform).2.2
  refine ⟨fun b hb c hlast hcall => ?_, fun b hb c hlast hform => ?_, fun hplain b hb c hlast hform => ?_⟩
  · have hseen := (horder b).1 hb
    obtain ⟨o, ho, hlike⟩ := hw.grown.like b (hw.forms.range b hseen)
    have hlast' := hstaged.lastOf hread ho hlike.look hlast (Discovery.closesBlock_of_isCall hcall)
    obtain ⟨far, hform⟩ : ∃ far, c.form? = some (.call far) := by
      cases hform : c.form? with
      | none => simp [hform] at hcall
      | some form => cases form <;> simp_all [Form.isCall]
    obtain ⟨u, -, hcallee', hreturn, -⟩ := hlast'.call hform
    obtain ⟨t, ht⟩ := Option.isSome_iff_exists.1 (hlike.calls.trans (by rw [hcallee']; rfl))
    obtain ⟨-, -, hsuccessors, -, hpush⟩ := (hw.forms.settled b hseen).call t ht
    rw [Block.returnBci_eq_of_look hlike.look, hreturn] at hpush
    exact ⟨t, (hstaged.same b).2.1.trans ht, (hstaged.successors b).trans hsuccessors, by rw [hscope, hscope, hpush]⟩
  · have hseen := (horder b).1 hb
    obtain ⟨-, hinside, ⟨t, origin, ht, hmem, htscope, horigin, hlook⟩, -⟩ :=
      (hw.forms.settled b hseen).ret (hret b hb c hlast hform)
    have hne : (w.blocks.block b).scope.isEmpty = false :=
      Bool.eq_false_iff.2 fun he => hinside (Scope.isEmpty_iff.1 he)
    have hreturns := hw.grown.scopes b (w.blocks.block b).scope.returnAddress
      (by rw [Scope.addresses_eq_cons hne]; exact List.mem_cons_self)
    obtain ⟨n, current, hready, -⟩ := hread.ready
    have hfounded := hread.founded
    refine ⟨hscope b ▸ hinside, t, (hstaged.same b).2.2.trans ht, (hstaged.successors b).symm ▸ hmem, ?_, ?_, ?_⟩
    · exact (hstaged.range hlook).1.trans (hfounded.place _ _ horigin).2
    · rw [hscope]
      exact (hstaged.range hlook).2.1.trans (hreturns (hready.mapped.size ▸ hsize) origin horigin)
    · rw [hscope, hscope, htscope]
  · have hseen := (horder b).1 hb
    rw [hstaged.successors b]
    refine List.length_eq_one_iff.1 ((hw.forms.single b hseen (hret b hb c hlast hform)).resolve_right ?_)
    exact fun hmixed => hplain (hstaged.callsMixed hread hw horder hmixed)

end BlockMap

/-- A subroutine that is called twice. -/
def Method.calledTwice : Method :=
  .ofCode #[0xa8, 0, 7, 0xa8, 0, 4, 0xb1, 0x4c, 0xa9, 1] [] []

/-- A call at bci 8 that is reached from the start and from a subroutine. -/
def Method.calledInside : Method :=
  .ofCode #[0x1a, 0x99, 0, 7, 0xa8, 0, 11, 0xb1, 0xa8, 0, 4, 0xb1, 0x4c, 0xa9, 1, 0xa7, 0xff, 0xf9] [] []

namespace BlockMap

theorem inlines_of_create_calledTwice : ∃ map, create .calledTwice .standard = .ok map ∧
    map.Inlines .calledTwice ∧ (map.order.filter fun b => (map.block b).endsSubroutine).length = 2 := by
  obtain ⟨map, hmap, hlength⟩ : ∃ map, create .calledTwice .standard = .ok map ∧
      decide ((map.order.filter fun b => (map.block b).endsSubroutine).length = 2) = true :=
    exists_ok_of_any (by decide +kernel)
  exact ⟨map, hmap, inlines_of_create (by decide) (by decide +kernel) hmap, of_decide_eq_true hlength⟩

/-- A return with two successors: the call was redirected outside before it was copied. -/
theorem create_calledInside : ∃ map, create .calledInside .standard = .ok map ∧ ∃ b ∈ map.order, ∃ c,
    map.IsLast .calledInside b c ∧ c.form? = some .ret ∧ (map.block b).successors.length = 2 := by
  obtain ⟨map, hmap, hb⟩ : ∃ map, create .calledInside .standard = .ok map ∧
      decide (∃ b ∈ map.order, ∃ c ∈ instructions Method.calledInside.code, (map.Spans b c.bci ∧
        ∀ c' ∈ instructions Method.calledInside.code, map.Spans b c'.bci → c'.bci ≤ c.bci) ∧
        c.form? = some .ret ∧ (map.block b).successors.length = 2) = true :=
    exists_ok_of_any (by decide +kernel)
  obtain ⟨b, hb, c, hc, ⟨hspans, hlast⟩, hret⟩ := of_decide_eq_true hb
  exact ⟨map, hmap, b, hb, c, ⟨hc, hspans, hlast⟩, hret⟩

end BlockMap

end SeaOfNodes
