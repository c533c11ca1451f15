import SeaOfNodes.Proofs.Flow.Scan
import SeaOfNodes.Proofs.Flow.Stages

/-!
# Chains of exception handlers

An exception goes through one dispatch block for each row of the exception table that covers where it is
raised, up to a row that catches everything. The chains share their ends, and a list of rows has one chain,
whatever the order in which the chains are asked for.
-/

namespace SeaOfNodes

open Bytecode

variable {rows : List (Handler × Nat)}

/-- No row is tried if none covers the bci. -/
theorem catchersIn_eq_nil_iff {bci : Nat} :
    catchersIn bci rows = [] ↔ ∀ row ∈ rows, row.1.covers bci = false := by
  induction rows with
  | nil => simp [catchersIn]
  | cons row rows ih =>
    rw [catchersIn, List.forall_mem_cons]
    cases hcovers : row.1.covers bci with
    | true =>
      cases row.1.isCatchAll <;> simp
    | false => simp [ih]

namespace Flow.Discovery

variable {m : Method} {options : Options} {n bci : Nat} {d d' : Discovery} {todo : List Cursor}
  {current : Option BlockId} {calls : List (Nat × Option BlockId)}

/-- A dispatch block is known by its row and what comes after it. -/
theorem Chained.eq_of_link (h : Chained m d) {i : Nat} {id id' entry entry' : BlockId} {at_ at_' : Int}
    {rest : Option BlockId} (hkind : (d.blocks.block id).kind = .dispatch i at_)
    (hkind' : (d.blocks.block id').kind = .dispatch i at_')
    (hsuccessors : (d.blocks.block id).successors = entry :: rest.toList)
    (hsuccessors' : (d.blocks.block id').successors = entry' :: rest.toList) : id = id' := by
  -- both stand in the table under the same key
  have hlisted {j e : BlockId} {b : Int} (hj : (d.blocks.block j).kind = .dispatch i b)
      (hs : (d.blocks.block j).successors = e :: rest.toList) : ((rest, i), j) ∈ d.chains := by
    obtain ⟨rest', hmem⟩ := h.listed j i b hj
    obtain ⟨row, e', b', -, -, -, -, hs'⟩ := h.link _ hmem
    obtain rfl : rest = rest' := by
      have heq := (List.cons.inj (hs.symm.trans hs')).2
      cases rest <;> cases rest' <;> simp_all
    exact hmem
  exact congrArg Prod.snd (List.inj_on_of_nodup_map h.nodup (hlisted hkind hsuccessors)
    (hlisted hkind' hsuccessors') rfl)

/-- A list of rows has one chain. -/
theorem Chained.unique (h : Chained m d) :
    ∀ {r r' : Option BlockId}, Chain d.blocks d.blockAt rows r → Chain d.blocks d.blockAt rows r' →
      r = r' := by
  induction rows with
  | nil =>
    intro r r' hr hr'
    cases hr
    cases hr'
    rfl
  | cons row rows ih =>
    intro r r' hr hr'
    cases hr with
    | cons range kind target successors others =>
      cases hr' with
      | cons range' kind' target' successors' others' =>
        cases ih others others'
        exact congrArg some (h.eq_of_link kind kind' successors successors')

/-! ### The search under way -/

/-- The search while it has instructions left to read. Where exceptions go is asked for any bcis between
reading them; `calls` are the bcis with the answers, the latest first. -/
inductive Searching (m : Method) (options : Options) : List Cursor → Option BlockId →
    List (Nat × Option BlockId) → Discovery → Prop
  | start {starts : BitSet} {d : Discovery} (checked : check m.code = .ok starts)
    (entries : (addHandlers m.handlers starts).run { blockAt := Array.replicate m.code.size none } =
      .ok ((), d)) : Searching m options (instructions m.code) none [] d
  | read {c : Cursor} {rest : List Cursor} {current current' : Option BlockId}
    {calls : List (Nat × Option BlockId)} {d d' : Discovery}
    (before : Searching m options (c :: rest) current calls d)
    (step : (readNext m options current c).run d = .ok (current', d')) :
    Searching m options rest current' calls d'
  | call {todo : List Cursor} {current : Option BlockId} {calls : List (Nat × Option BlockId)}
    {d d' : Discovery} {bci : Nat} {r : Option BlockId} (before : Searching m options todo current calls d)
    (step : (dispatch options m.handlers bci).run d = .ok (r, d')) :
    Searching m options todo current ((bci, r) :: calls) d'

/-- What holds while the search is under way. -/
structure Underway (m : Method) (options : Options) (todo : List Cursor) (current : Option BlockId)
    (calls : List (Nat × Option BlockId)) (d : Discovery) : Prop where
  checked : ∃ starts, Checked m.code starts
  ready : ∃ n, Ready m options n current d ∧ Cursor.walkFrom m.code n = todo
  ahead : todo <:+ instructions m.code
  chains : ∀ call ∈ calls, Chain d.blocks d.blockAt (tried m options call.1) call.2

theorem Ready.meets_dispatch (h : Ready m options n current d) (bci : Nat) :
    Meets (dispatch options m.handlers bci) d (fun r d' => Ready m options n current d' ∧ Refined d d' ∧
      Chain d'.blocks d'.blockAt (tried m options bci) r) fun _ => False := by
  refine (h.mapped.meets_dispatch h.entered bci).imp fun r d' h' => ?_
  obtain ⟨hmapped, hrefined, hat, hchain⟩ := h'
  exact ⟨⟨hmapped, h.entered.mono hrefined, h.bound, h.reached, hat ▸ h.last⟩, hrefined, hchain⟩

/-- Each step keeps what holds: the chains that were given stay what they are. -/
theorem Searching.underway (h : Searching m options todo current calls d) :
    Underway m options todo current calls d := by
  induction h with
  | start checked entries =>
    have hchecked := (ends_check m.code).of_ok checked
    have hready := Ends.of_ok (meets_entries options hchecked) entries
    exact ⟨⟨_, hchecked⟩, ⟨0, hready, rfl⟩, List.suffix_refl _, nofun⟩
  | read before step ih =>
    obtain ⟨⟨starts, hchecked⟩, ⟨n, hready, hwalk⟩, hahead, hchains⟩ := ih
    obtain ⟨rfl, hrest⟩ := Cursor.walkFrom_of_eq_cons hwalk
    have hc := hahead.subset (List.mem_cons_self ..)
    have hstep := hready.meets_readNext hc (next_le_of_checked hchecked hc) (admits_of_checked hchecked hc)
    obtain ⟨hready', hrefined⟩ := Ends.of_ok hstep step
    exact ⟨⟨starts, hchecked⟩, ⟨_, hready', hrest.symm⟩, (List.suffix_cons ..).trans hahead,
      fun call hcall => (hchains call hcall).mono hrefined⟩
  | @call _ _ _ _ _ bci _ before step ih =>
    obtain ⟨hchecked, ⟨n, hready, hwalk⟩, hahead, hchains⟩ := ih
    obtain ⟨hready', hrefined, hchain⟩ := Ends.of_ok (hready.meets_dispatch bci) step
    refine ⟨hchecked, ⟨n, hready', hwalk⟩, hahead, ?_⟩
    rintro call (_ | ⟨_, hcall⟩)
    · exact hchain
    · exact (hchains call hcall).mono hrefined

/-- What is said of where exceptions go, for the bcis that were asked for. -/
structure Dispatches (m : Method) (options : Options) (calls : List (Nat × Option BlockId))
    (d : Discovery) : Prop where
  omitted : options.omitExceptionEdges = true → ∀ call ∈ calls, call.2 = none
  none_iff : options.omitExceptionEdges = false → ∀ call ∈ calls,
    (call.2 = none ↔ ∀ row ∈ m.handlers, row.covers call.1 = false)
  chain : options.omitExceptionEdges = false → ∀ call ∈ calls,
    Chain d.blocks d.blockAt (catchersIn call.1 m.handlers.zipIdx) call.2
  same : ∀ call ∈ calls, ∀ call' ∈ calls,
    catchersIn call.1 m.handlers.zipIdx = catchersIn call'.1 m.handlers.zipIdx → call.2 = call'.2
  /-- Also the chains that reading the instructions asks for are those of the table. -/
  unique : ∀ rows r r', Chain d.blocks d.blockAt rows r → Chain d.blocks d.blockAt rows r' → r = r'

/-- Whenever it is asked where an exception goes, there is an answer, and all answers are chains of the
exception table, one for each list of rows that are tried. -/
theorem dispatches_of_searching (h : Searching m options todo current calls d) :
    (∀ bci, ∃ r d', (dispatch options m.handlers bci).run d = .ok (r, d')) ∧
      Dispatches m options calls d := by
  obtain ⟨-, ⟨n, hready, -⟩, -, hchains⟩ := h.underway
  refine ⟨fun bci => ?_, fun homit call hcall => ?_, fun homit call hcall => ?_, fun homit call hcall => ?_,
    fun call hcall call' hcall' hrows => ?_, fun rows r r' hr hr' => hready.mapped.chains.unique hr hr'⟩
  · obtain ⟨r, d', heq, -⟩ := (hready.meets_dispatch bci).exists_ok
    exact ⟨r, d', heq⟩
  · have hchain := hchains call hcall
    rw [tried, if_pos homit] at hchain
    generalize call.2 = r at hchain
    cases hchain
    rfl
  · have hchain := hchains call hcall
    rw [tried, if_neg (Bool.eq_false_iff.1 homit)] at hchain
    have hnil : catchersIn call.1 m.handlers.zipIdx = [] ↔ ∀ row ∈ m.handlers, row.covers call.1 = false := by
      rw [catchersIn_eq_nil_iff]
      refine ⟨fun hrows row hrow => ?_, fun hrows row hrow => hrows _ (List.fst_mem_of_mem_zipIdx hrow)⟩
      obtain ⟨i, hi⟩ := List.getElem?_of_mem hrow
      exact hrows (row, i) (List.mem_zipIdx_iff_getElem?.2 hi)
    rw [← hnil]
    generalize catchersIn call.1 m.handlers.zipIdx = rows at hchain
    generalize call.2 = r at hchain
    cases hchain <;> simp
  · have hchain := hchains call hcall
    rwa [tried, if_neg (Bool.eq_false_iff.1 homit)] at hchain
  · refine hready.mapped.chains.unique (hchains call hcall) ?_
    have hchain := hchains call' hcall'
    rwa [tried, ← hrows] at hchain

end Flow.Discovery

/-- Two handlers, the second of which catches everything. -/
def Method.guarded : Method :=
  .ofCode #[0, 0, 0xb1] [⟨0, 2, 2, some ⟨"E", true⟩⟩, ⟨0, 3, 2, none⟩, ⟨1, 2, 2, none⟩] []

/-- The last row is not tried, so that two bcis have the same chain, and a third one has its end. -/
theorem Flow.Discovery.dispatches_of_searching_guarded : ∃ todo current d x y,
    Searching .guarded .standard todo current [(1, some x), (2, some y), (0, some x)] d ∧
      Dispatches .guarded .standard [(1, some x), (2, some y), (0, some x)] d ∧
      (d.blocks.block x).successors.getLast? = some y := by
  let ask (bci : Nat) := dispatch .standard Method.guarded.handlers bci
  obtain ⟨starts, hchecked, hrun⟩ : ∃ starts, check Method.guarded.code = .ok starts ∧
      ((addHandlers Method.guarded.handlers starts).run { blockAt := Array.replicate 3 none }).toOption.any
        (fun p => ((ask 0).run p.2).toOption.any fun q₀ => ((ask 2).run q₀.2).toOption.any
          fun q₁ => ((ask 1).run q₁.2).toOption.any fun q₂ => decide (q₀.1 = some ⟨2⟩ ∧
            q₁.1 = some ⟨1⟩ ∧ q₂.1 = some ⟨2⟩ ∧ (q₂.2.blocks.block ⟨2⟩).successors.getLast? = some ⟨1⟩)) = true :=
    exists_ok_of_any (by decide +kernel)
  obtain ⟨⟨_, d₀⟩, hentries, hrun⟩ := exists_ok_of_any hrun
  obtain ⟨⟨r₀, d₁⟩, hask₀, hrun⟩ := exists_ok_of_any hrun
  obtain ⟨⟨r₁, d₂⟩, hask₁, hrun⟩ := exists_ok_of_any hrun
  obtain ⟨⟨r₂, d₃⟩, hask₂, hrun⟩ := exists_ok_of_any hrun
  obtain ⟨rfl, rfl, rfl, hlast⟩ := of_decide_eq_true hrun
  have hstart : Searching Method.guarded .standard _ _ _ _ := .start hchecked hentries
  have hsearch := ((hstart.call hask₀).call hask₁).call hask₂
  exact ⟨_, _, d₃, ⟨2⟩, ⟨1⟩, hsearch, (dispatches_of_searching hsearch).2, hlast⟩

end SeaOfNodes
