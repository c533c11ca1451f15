import SeaOfNodes.Proofs.Flow.Map

/-!
# Straight-line code

Code that computes on the frame and then returns is one block, which belongs to no loop.
-/

namespace SeaOfNodes

open Bytecode Flow

/-- Instructions that only compute on locals and the operand stack. -/
def Bytecode.Form.computes : Form → Bool
  | .nop | .constant .. | .pushByte | .pushShort | .loadConstant _ | .load .. | .store .. | .shuffle _
  | .arith .. | .shift .. | .negate _ | .increment | .convert .. | .compare .. => true
  | _ => false

/-- The method computes and then returns a value of a kind, or nothing. -/
structure Method.IsStraightLine (m : Method) (body : List Cursor) (last : Cursor) (kind : Option Kind) :
    Prop where
  handlers : m.handlers = []
  code : instructions m.code = body ++ [last]
  computes : ∀ c ∈ body, c.form?.any Form.computes = true
  returns : last.form? = some (.methodReturn kind)

/-- The block of straight-line code whose last instruction is at a bci. -/
def straightBlock (stop : Int) : Block := { Block.startingAt 0 .bytecodes with stop }

variable {m : Method} {options : Options} {body : List Cursor} {last : Cursor} {kind : Option Kind}

namespace Flow.Discovery

variable {d : Discovery} {c : Cursor} {cs : List Cursor} {stop : Int}

/-- The instructions read so far are one block, and those in `cs` are still to be read. -/
structure Single (d : Discovery) (stop : Int) (cs : List Cursor) : Prop where
  blocks : d.blocks = ⟨#[straightBlock stop]⟩
  plain : d.hasSubroutines = false
  first : d.blockAt[0]? = some (some ⟨0⟩)
  unread : ∀ c ∈ cs, (d.blockAt[c.bci]?).join = none

theorem Single.read (h : Single d stop (c :: cs)) (hne : ∀ c' ∈ cs, c'.bci ≠ c.bci) :
    Single { d with
      blocks := d.blocks.modify ⟨0⟩ fun b => { b with stop := c.bci }
      blockAt := d.blockAt.setIfInBounds c.bci (some ⟨0⟩) } c.bci cs where
  blocks := by
    show d.blocks.modify _ _ = _
    rw [h.blocks]
    rfl
  plain := h.plain
  first := by
    show (d.blockAt.setIfInBounds c.bci _)[0]? = _
    rw [Array.getElem?_setIfInBounds]
    split
    · have hfirst := (Array.getElem?_eq_some_iff.1 h.first).1
      simp_all
    · exact h.first
  unread c' hc' := by
    show ((d.blockAt.setIfInBounds c.bci _)[c'.bci]?).join = none
    rw [Array.getElem?_setIfInBounds, if_neg (hne c' hc').symm]
    exact h.unread c' (List.mem_cons_of_mem _ hc')

/-- Nothing is caught, so no instruction that computes ends the block. -/
theorem leave_of_computes (hm : m.handlers = []) (hc : c.form?.any Form.computes) (id : BlockId) :
    leave m options c id = return false := by
  obtain ⟨form, hform, hcomputes⟩ := (Option.any_eq_true _ _).1 hc
  have hdispatch : dispatch options m.handlers c.bci = return none := by
    unfold dispatch
    rw [hm]
    split <;> rfl
  unfold leave
  rw [hform]
  cases form <;> first | exact Bool.noConfusion hcomputes | (simp only [hdispatch, pure_bind]; split <;> rfl)

/-- The rest of the code goes on in the block. -/
theorem meets_scan_rest (hm : m.handlers = []) (hbody : ∀ c ∈ body, c.form?.any Form.computes)
    (hlast : last.form? = some (.methodReturn kind)) (hcs : body ++ [last] = c :: cs)
    (hdistinct : (c :: cs).Pairwise fun c c' => c'.bci ≠ c.bci) (h : Single d c.bci cs) :
    Ensures (do
      let closed ← leave m options c ⟨0⟩
      scan m options cs (if closed then none else some ⟨0⟩)) d (fun _ d' => Single d' last.bci []) := by
  induction body generalizing d c cs with
  | nil =>
    obtain ⟨rfl, rfl⟩ := List.cons.inj hcs
    simp only [leave, hlast, pure_bind, scan]
    exact h
  | cons b body ih =>
    rw [List.cons_append, List.cons.injEq] at hcs
    obtain ⟨rfl, rfl⟩ := hcs
    rw [leave_of_computes hm (hbody b List.mem_cons_self), pure_bind]
    obtain ⟨c, cs, hcs⟩ : ∃ c cs, body ++ [last] = c :: cs := List.exists_cons_of_ne_nil (by simp)
    rw [hcs] at h hdistinct ⊢
    have hopen := h.unread c List.mem_cons_self
    simp only [scan, blockOf, blockAt?, bind_assoc, pure_bind, meets_bind, meets_get, hopen, assign,
      meets_modify, meets_pure, modifyBlock, Bool.false_eq_true, if_false]
    rw [← meets_bind]
    exact ih (fun c' hc' => hbody c' (List.mem_cons_of_mem _ hc')) hcs hdistinct.tail
      (h.read (List.pairwise_cons.1 hdistinct.tail).1)

/-- The first instruction opens the block. -/
theorem meets_scan_straight (h : m.IsStraightLine body last kind) (hsize : 0 < m.code.size) :
    Ensures (scan m options (instructions m.code) none) { blockAt := Array.replicate m.code.size none }
      (fun _ d => Single d last.bci []) := by
  have hdistinct : (body ++ [last]).Pairwise fun c c' => c'.bci ≠ c.bci := by
    rw [← h.code]
    refine pairwise_walk.1.imp_of_mem fun {c c'} hc _ hle => ?_
    have := lt_next hc
    omega
  obtain ⟨c, cs, hcs⟩ : ∃ c cs, body ++ [last] = c :: cs := List.exists_cons_of_ne_nil (by simp)
  have hfirst : c.bci = 0 := (Cursor.walkFrom_of_eq_cons (h.code.trans hcs)).1
  rw [h.code, hcs]
  rw [hcs] at hdistinct
  have hopen (bci : Nat) : ((Array.replicate m.code.size (none : Option BlockId))[bci]?).join = none := by
    rw [Array.getElem?_replicate]
    split <;> rfl
  simp only [scan, blockOf, blockFrom, blockAt?, addBlock, bind_assoc, pure_bind, meets_bind, meets_get, hopen,
    assign, meets_modify, meets_modifyGet, meets_pure, modifyBlock, hfirst]
  rw [← meets_bind]
  refine meets_scan_rest h.handlers h.computes h.returns hcs hdistinct ⟨?_, rfl, ?_, fun c' hc' => ?_⟩
  · rw [hfirst]
    rfl
  · simp [hsize, Arena.next, Arena.empty]
  · have hne : 0 ≠ c'.bci := hfirst ▸ ((List.pairwise_cons.1 hdistinct).1 c' hc').symm
    simp [hne, hopen]

end Flow.Discovery

/-! ### The one block -/

namespace Flow

theorem ends_discover_straight (h : m.IsStraightLine body last kind) :
    Ends (discover m options) (Discovery.Single · last.bci []) (fun _ => True) := by
  unfold discover
  refine ends_bind.2 ?_
  cases hcheck : check m.code with
  | error e => trivial
  | ok starts =>
    have hsize : 0 < m.code.size := by
      unfold check at hcheck
      by_contra hzero
      have hempty : m.code.isEmpty := by simp_all
      simp [hempty] at hcheck
      cases hcheck
    refine ends_bind.2 ?_
    rw [h.handlers]
    exact Discovery.meets_scan_straight h hsize

theorem ends_order_straight (stop : Int) (limit : Nat) :
    Ends (Flow.order ⟨#[straightBlock stop]⟩ ⟨0⟩ limit)
      (fun s => s.blocks = ⟨#[straightBlock stop]⟩ ∧ s.order = [⟨0⟩]) (fun _ => True) := by
  have hvisit : Ensures (Ordering.visit limit 2 ⟨0⟩) { blocks := ⟨#[straightBlock stop]⟩ }
      (fun _ s => s.blocks = ⟨#[straightBlock stop]⟩ ∧ s.order = [⟨0⟩]) := by
    have hnew : BitSet.empty.contains 0 = false := by decide
    have hsuccessors : (Blocks.block ⟨#[straightBlock stop]⟩ ⟨0⟩).successors = [] := rfl
    simp only [Ordering.visit, meets_bind, meets_get, hnew, Bool.false_eq_true, if_false, meets_modify,
      Ordering.modifyBlock, hsuccessors, List.foldlM_nil, meets_pure, Ordering.block]
    exact ⟨rfl, trivial⟩
  unfold Flow.order
  refine ends_bind.2 (Ends.mono hvisit (fun r hr => ?_) fun _ => id)
  dsimp only
  split
  · trivial
  · exact hr

theorem completeMasks_straight (stop : Int) (rounds : Nat) :
    completeMasks ⟨0⟩ (rounds + 1) ⟨#[straightBlock stop]⟩ = .ok ⟨#[straightBlock stop]⟩ := by
  have hvisit : Leads (MaskWalk.visit 2 ⟨0⟩) { blocks := ⟨#[straightBlock stop]⟩ }
      fun loops s => loops = 0 ∧ s.blocks = ⟨#[straightBlock stop]⟩ ∧ s.changed = false := by
    have hnew : BitSet.empty.contains 0 = false := by decide
    have hsuccessors : (Blocks.block ⟨#[straightBlock stop]⟩ ⟨0⟩).successors = [] := rfl
    simp only [MaskWalk.visit, leads_bind, leads_get, hnew, leads_set, hsuccessors, leads_modify,
      Bool.false_eq_true, if_false, List.foldlM_nil, leads_pure, List.forIn_nil]
    exact ⟨rfl, rfl, by simp⟩
  obtain ⟨hloops, hblocks, hchanged⟩ := hvisit
  show (if (MaskWalk.visit 2 ⟨0⟩ { blocks := ⟨#[straightBlock stop]⟩ }).1 ≠ 0 then _ else _) = _
  rw [if_neg (not_not.2 hloops)]
  show (if (MaskWalk.visit 2 ⟨0⟩ { blocks := ⟨#[straightBlock stop]⟩ }).2.changed then _ else _) = _
  rw [hchanged, if_neg Bool.false_ne_true]
  exact congrArg Except.ok hblocks

end Flow

/-- All instructions are in one block, which belongs to no loop. -/
structure BlockMap.IsSingle (map : BlockMap) (stop : Int) : Prop where
  order : map.order = [⟨0⟩]
  blocks : map.blocks = ⟨#[{ straightBlock stop with number := some 0 }]⟩

theorem BlockMap.isSingle_of_create {map : BlockMap} (h : m.IsStraightLine body last kind)
    (hmap : create m options = .ok map) : map.IsSingle last.bci := by
  obtain ⟨d, first, blocks, s, completed, hstaged⟩ := (ends_create_stages m options).of_ok hmap
  have hd := (Flow.ends_discover_straight h).of_ok hstaged.discover
  obtain rfl : first = ⟨0⟩ := by
    have hstart := hstaged.start
    rw [hd.first] at hstart
    exact (Option.some.inj hstart).symm
  obtain rfl : ⟨#[straightBlock last.bci]⟩ = blocks := by
    have hinlined := hstaged.inlined
    rw [inlined, hd.plain, if_neg Bool.false_ne_true, hd.blocks] at hinlined
    exact Except.ok.inj hinlined
  obtain ⟨hblocks, horder⟩ := (Flow.ends_order_straight last.bci _).of_ok hstaged.order
  obtain rfl : ⟨#[straightBlock last.bci]⟩ = completed := by
    have hmasks := hstaged.masks
    rw [hblocks, maskRounds, Flow.completeMasks_straight] at hmasks
    exact Except.ok.inj hmasks
  rw [hstaged.result]
  refine ⟨horder, ?_⟩
  show numbered _ s.order = _
  rw [horder]
  rfl

end SeaOfNodes
