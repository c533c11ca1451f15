import SeaOfNodes.Proofs.Lift.Method
import SeaOfNodes.Proofs.Lift.Shedding

/-!
# Cleaning up keeps a graph in order

A loop to which nothing leads back comes apart: its phis and the proxies at its exits are folded, its
exits become plain begins, and the loop itself is taken out. After that every loop has an end, and
once the placeholders are spliced out the graph is finished. Only a placeholder that an exit belongs to
cannot be spliced out, and there is none if no dispatch block is the header of a loop.
-/

namespace SeaOfNodes

namespace NodeClass

variable {c : NodeClass} {field : Nat} {spec : FieldSpec}

theorem field_of_loopExit (hspec : c.layout.inputs[field]? = some spec)
    (h : c.takes spec.role .loopExit) : c = .proxy ∧ field = 1 := by
  have key : ∀ p ∈ c.layout.inputs.zipIdx, c.takes p.1.role .loopExit → c = .proxy ∧ p.2 = 1 := by
    cases c <;> decide
  exact key (spec, field) (List.mem_zipIdx_iff_getElem?.2 hspec) h

theorem field_of_loopBegin (hspec : c.layout.inputs[field]? = some spec)
    (h : c.takes spec.role .loopBegin) :
    (c = .phi ∨ c = .loopEnd ∨ c = .loopExit) ∧ field = 0 ∧ spec.shape ≠ .list := by
  have key : ∀ p ∈ c.layout.inputs.zipIdx, c.takes p.1.role .loopBegin →
      (c = .phi ∨ c = .loopEnd ∨ c = .loopExit) ∧ p.2 = 0 ∧ p.1.shape ≠ .list := by
    cases c <;> decide
  exact key (spec, field) (List.mem_zipIdx_iff_getElem?.2 hspec) h

theorem field_of_forwardEnd (hspec : c.layout.inputs[field]? = some spec)
    (h : c.takes spec.role .forwardEnd) : field = 0 := by
  have key : ∀ p ∈ c.layout.inputs.zipIdx, c.takes p.1.role .forwardEnd → p.2 = 0 := by
    cases c <;> decide
  exact key (spec, field) (List.mem_zipIdx_iff_getElem?.2 hspec) h

end NodeClass

namespace Graph

variable {g : Graph} {id u loopBegin loopExit : NodeId} {n : Node} {cls? : NodeId → Option NodeClass}

/-- The users of a node that are found are all that are accepted, each once. -/
theorem meets_usersWhere (hg : g.Consistent) (hid : (g.node? id).isSome) (accept : Node → Bool)
    {fail : Fault → Prop} :
    Meets (usersWhere id accept) g
      (fun r g' => g' = g ∧ r.Nodup ∧
        ∀ x, x ∈ r ↔ x ∈ g.users id ∧ ∃ n, g.node? x = some n ∧ accept n) fail := by
  unfold usersWhere
  refine meets_bind.2 ((meets_usages hid).2 ?_)
  refine (Meets.filterM (fun u => (g.node? u).any accept) fun u hu => ?_).bind ?_
  · obtain ⟨n, hn⟩ := exists_node?_of_isAlive (hg.isAlive_user hu)
    rw [meets_bind, meets_node, hn]
    simp
  rintro _ g ⟨rfl, rfl⟩
  refine meets_pure.2 ⟨rfl, nodup_eraseReps_mergeSort _, fun x => ?_⟩
  rw [mem_eraseReps, List.mem_mergeSort, List.mem_filter, Option.any_eq_true]

theorem isProxyAt_iff (hf : n.Fits cls?) : isProxyAt loopExit n ↔
    ∃ kind first, n.joint? = some ⟨.proxy kind, first, [some loopExit]⟩ := by
  by_cases hc : n.cls = .proxy
  · obtain ⟨kind, hop⟩ := Node.op_of_proxy hc
    obtain ⟨value, point, hinputs⟩ := hf.inputs_of_proxy hc
    simp [isProxyAt, Node.joint?, hc, hop, hinputs, Links.get, Node.slotsAt, Node.links, Link.slots]
  · refine iff_of_false (by simp [isProxyAt, hc]) ?_
    rintro ⟨kind, first, hj⟩
    exact hc (congrArg Op.cls (Node.op_of_joint? hj))

section

variable [Source] {gone : NodeId → Prop}

/-- Only proxies use an exit of a loop. -/
theorem SoundBut.isProxy_of_mem_users (hs : g.SoundBut gone)
    (hc : g.cls? loopExit = some .loopExit) (hu : u ∈ g.users loopExit) :
    IsProxy g.joint? loopExit u := by
  have ha := hs.consistent.isAlive_user hu
  obtain ⟨n, field, spec, hn, ht, hspec, htakes⟩ := hs.exists_field hc hu
  obtain ⟨hcls, rfl⟩ := NodeClass.field_of_loopExit (c := n.cls) hspec htakes
  refine (isProxyAt_iff (hs.fits u n hn)).1 ?_ |>.imp fun kind h => h.imp fun first h =>
    (joint?_of_node? hn ha).trans h
  obtain ⟨value, point, hinputs⟩ := (hs.fits u n hn).inputs_of_proxy hcls
  have hpoint : some loopExit = point := by simpa [Node.slotsAt, Node.links, hinputs, Link.slots] using ht
  simp [isProxyAt, hcls, hinputs, Links.get, ← hpoint]

/-- Only phis, ends and exits use a loop. -/
theorem SoundBut.tied_of_mem_users (hs : g.SoundBut gone)
    (hc : g.cls? loopBegin = some .loopBegin) (hu : u ∈ g.users loopBegin) :
    (∃ values, IsPhi g.joint? loopBegin u values) ∨ (∃ index, IsLoopEnd g.joint? loopBegin u index) ∨
      ∃ second, g.joint? u = some ⟨.loopExit, [some loopBegin], second⟩ := by
  have ha := hs.consistent.isAlive_user hu
  obtain ⟨n, field, spec, hn, ht, hspec, htakes⟩ := hs.exists_field hc hu
  obtain ⟨hcls, rfl, hshape⟩ := NodeClass.field_of_loopBegin (c := n.cls) hspec htakes
  obtain ⟨x, hx⟩ := (hs.fits u n hn).exists_one hspec hshape
  have hfirst : n.slotsAt .inputs 0 = [some loopBegin] := by
    rw [Node.slotsAt_of_getElem? hx] at ht ⊢
    obtain rfl := List.mem_singleton.1 ht
    rfl
  unfold IsPhi IsLoopEnd
  rw [joint?_of_node? hn ha, Node.joint?, hfirst]
  rcases hcls with hc | hc | hc
  · obtain ⟨kind, hop⟩ := Node.op_of_phi hc
    rw [hc, hop]
    exact .inl ⟨_, kind, rfl⟩
  · obtain ⟨index, hop⟩ := Node.op_of_loopEnd hc
    obtain ⟨b, hinputs⟩ := (hs.fits u n hn).inputs_of_loopEnd hc
    rw [hc, hop, Node.slotsAt, Node.links, hinputs]
    exact .inr (.inl ⟨index, rfl⟩)
  · have hop := Node.op_of_loopExit hc
    rw [hc, hop]
    exact .inr (.inr ⟨_, rfl⟩)

end

end Graph

namespace Lift

open Graph

/-- The notes that are watched while a graph is cleaned up. -/
def watches (clean exact : Bool) : Note → Bool
  | .held => clean
  | .loose | .gap | .unlisted => exact
  | .quiet => false

theorem exact_of_watches {clean exact : Bool} {k : Note} (h : watches clean exact k)
    (hk : k ≠ .held) : exact := by
  cases k <;> simp_all [watches]

section

variable [Source]

/-- A graph that is cleaned up: the exits in `opened` are about to go, and of what is watched no more
is unfinished than what is `owed`. -/
structure Trim (clean exact : Bool) (opened : NodeId → Prop) (owed : List (Note × NodeId)) (g : Graph) :
    Prop where
  sound : g.Sound
  tied : Tied clean opened g.joint?
  owes : g.Owes (watches clean exact) owed

variable {clean exact : Bool} {opened : NodeId → Prop} {owed owed' : List (Note × NodeId)}
  {g g' : Graph} {id value x loopBegin loopExit : NodeId} {n : Node} {j : Joint} {field : Nat}
  {second first : List (Option NodeId)} {opened' : NodeId → Prop}

/-! ### Folding -/

/-- A value of a phi or of a proxy can take its place. -/
theorem Trim.meets_foldInto (h : Trim clean exact opened owed g) (hn : g.node? id = some n)
    (ha : g.isAlive id) (hgo : mayGo n.cls)
    (hkind : n.op.operandKind? Source.method.result field = some n.op.valueKind)
    (hvalue : some value ∈ n.slotsAt .inputs field) (hlt : value.index < id.index)
    (hproxy : ∀ x, IsProxy g.joint? x id → opened x) :
    Meets (foldInto id (some value)) g
      (fun _ g' => Trim clean exact opened owed g' ∧ Drops id g.joint? g'.joint?) (fun _ => False) := by
  have htyped := (h.sound.filled id n hn ha not_false).typed.operands field _ hkind value hvalue
  obtain ⟨spec, ct, hspec, hct, haccepts⟩ := h.sound.accepts hn hvalue
  have hisValue : ct.isValue := by
    have hcls : n.cls = .phi ∧ field = 1 ∨ n.cls = .proxy ∧ field = 0 := by
      have hc : n.cls = .phi ∨ n.cls = .proxy := by simpa [mayGo] using hgo
      revert hkind
      unfold Op.operandKind?
      cases hop : n.op <;> simp [Node.cls, hop, Op.cls] at hc ⊢ <;> split <;> simp_all
    rcases hcls with ⟨hc, rfl⟩ | ⟨hc, rfl⟩ <;>
    · rw [Node.layout, Op.layout, show n.op.cls = _ from hc] at hspec
      obtain rfl := Option.some.inj hspec
      exact haccepts
  refine (Graph.meets_foldInto h.sound ha (cls?_of_node? hn) hgo ⟨ct, hct, hisValue⟩
    (h.sound.consistent.isAlive_of_slot hn hvalue) hlt fun kind hk => ?_).imp fun _ g' hf => ?_
  · -- the node has the kind of its value
    obtain ⟨op, hop, rfl⟩ := hk
    obtain rfl := Option.mem_unique (op?_of_node? hn) hop
    obtain ⟨opv, hopv, hkv⟩ := htyped
    exact ⟨opv, hopv, by rw [← hkv, Kind.onStack_onStack]⟩
  · have hj (j : Joint) (hj : g.joint? id = some j) : mayGo j.op.cls := by
      have := (of_joint? hj).2
      rw [op?_of_node? hn] at this
      rwa [← Option.some.inj this]
    have hid : g'.joint? id = none := joint?_eq_none_of_not_isAlive (by rw [hf.isAlive, if_pos rfl])
    refine ⟨⟨hf.sound, h.tied.fold hj hid hf.joints hproxy, fun k x hk hx => ?_⟩,
      hid, hj, fun x hx => (hf.joints x hx).bare⟩
    rw [hf.moves.notes] at hx
    exact h.owes k x hk (hx.resolve_left List.not_mem_nil).1

/-- Folding a phi into its first value. -/
theorem Trim.meets_foldPhi (h : Trim clean exact opened owed g) {values : List (Option NodeId)}
    (hphi : IsPhi g.joint? loopBegin x values) (hn : g.node? x = some n) :
    Meets (foldInto x (n.phiValues?.getD []).head?.join) g
      (fun _ g' => Trim clean exact opened owed g' ∧ Drops x g.joint? g'.joint?) (fun _ => False) := by
  obtain ⟨kind, hj⟩ := hphi
  have ha := (of_joint? hj).1
  have hop : n.op = .phi kind := Option.mem_unique (op?_of_node? hn) (of_joint? hj).2
  have hc : n.cls = .phi := congrArg Op.cls hop
  obtain ⟨merge, vs, hinputs⟩ := (h.sound.fits x n hn).inputs_of_phi hc
  have hslots : n.slotsAt .inputs 1 = vs := by simp [Node.slotsAt, Node.links, hinputs, Link.slots]
  obtain ⟨-, v, hv, hlt⟩ := (h.sound.filled x n hn ha not_false).phi hc
  have hvalue : (n.phiValues?.getD []).head?.join = some v := by
    simp [Node.phiValues?, hop, Node.inputList, hinputs, ← hslots, hv]
  rw [hvalue]
  refine h.meets_foldInto hn ha (by rw [hc]; rfl) (by rw [hop]; rfl) (List.mem_of_mem_head? hv) hlt ?_
  rintro y ⟨kind', first, hy⟩
  rw [hj] at hy
  cases hy

/-- Folding a proxy at an exit that is about to go. -/
theorem Trim.meets_foldProxy (h : Trim clean exact (· = loopExit) owed g)
    (hproxy : IsProxy g.joint? loopExit x) (hn : g.node? x = some n) :
    Meets (foldInto x (Links.get n.inputs 0 0)) g
      (fun _ g' => Trim clean exact (· = loopExit) owed g' ∧ Drops x g.joint? g'.joint?)
      (fun _ => False) := by
  obtain ⟨kind, first, hj⟩ := hproxy
  have ha := (of_joint? hj).1
  have hop : n.op = .proxy kind := Option.mem_unique (op?_of_node? hn) (of_joint? hj).2
  have hc : n.cls = .proxy := congrArg Op.cls hop
  have hfilled := h.sound.filled x n hn ha not_false
  obtain ⟨value, point, hinputs⟩ := (h.sound.fits x n hn).inputs_of_proxy hc
  have hslots : n.slotsAt .inputs 0 = [value] := by simp [Node.slotsAt, Node.links, hinputs, Link.slots]
  obtain ⟨v, rfl⟩ : ∃ v, value = some v := by
    refine Option.ne_none_iff_exists'.1 fun hnone => ?_
    have := (Node.forall₂_iff_getElem?.1 hfilled.present).2 0 (.one "value") (.one value)
      (by rw [Node.layout, Op.layout, show n.op.cls = .proxy from hc]; rfl) (by rw [hinputs]; rfl) rfl
    exact this (by simp [hnone, Link.slots])
  have hmem : some v ∈ n.slotsAt .inputs 0 := by rw [hslots]; exact List.mem_singleton.2 rfl
  rw [show Links.get n.inputs 0 0 = some v by rw [hinputs]; rfl]
  refine h.meets_foldInto hn ha (by rw [hc]; rfl) (by rw [hop]; rfl) hmem
    (hfilled.proxy hc v hmem) ?_
  rintro y ⟨kind', first', hy⟩
  rw [hj] at hy
  cases hy
  rfl

section

variable (h : Trim clean exact opened owed g)

include h

/-- All phis of a loop, or all proxies at an exit, are folded one after another. -/
theorem Trim.meets_foldAll {P : (NodeId → Option Joint) → NodeId → Prop} {list : List NodeId}
    {value : Node → Option NodeId} (hnodup : list.Nodup)
    (hmem : ∀ x, x ∈ list ↔ P g.joint? x)
    (hP : ∀ J J' x y, Drops x J J' → y ≠ x → (P J' y ↔ P J y))
    (hgone : ∀ J x, P J x → (J x).isSome)
    (step : ∀ g x n, Trim clean exact opened owed g → P g.joint? x → g.node? x = some n →
      Meets (foldInto x (value n)) g
        (fun _ g' => Trim clean exact opened owed g' ∧ Drops x g.joint? g'.joint?) (fun _ => False)) :
    Meets (forIn list PUnit.unit fun x _ => do
        foldInto x (value (← node x))
        pure (ForInStep.yield PUnit.unit)) g
      (fun _ g' => (Trim clean exact opened owed g' ∧ Sheds (fun _ => False) g.joint? g'.joint?) ∧
        ∀ x, ¬ P g'.joint? x) (fun _ => False) := by
  refine Meets.forIn_each (fun g : Graph => P g.joint?) (fun g : Graph => P g.joint?)
    (fun g' => Trim clean exact opened owed g' ∧ Sheds (fun _ => False) g.joint? g'.joint?) ⟨h, .refl _⟩
    hnodup (fun x => (hmem x).1) (fun x => (hmem x).2) fun x g1 ⟨h1, hsheds⟩ hx => ?_
  obtain ⟨j, hj⟩ := Option.isSome_iff_exists.1 (hgone _ x hx)
  obtain ⟨n, hn, -⟩ := exists_node?_of_joint? hj
  rw [meets_bind, meets_node_of hn]
  refine (step g1 x n h1 hx hn).bind fun _ g2 ⟨h2, hdrops⟩ => ⟨rfl, ⟨h2, hsheds.trans hdrops.sheds⟩,
    fun y hyx => (hP _ _ x y hdrops hyx).2, fun y hy => ?_⟩
  have hyx : y ≠ x := by
    rintro rfl
    simpa [hdrops.gone] using hgone _ y hy
  exact ⟨hyx, (hP _ _ x y hdrops hyx).1 hy⟩

/-! ### Loop exits -/

theorem Trim.relinks {made lost : List (Note × NodeId)}
    (hr : Relinks g g' id made lost) (hmade : ∀ q ∈ made, q ∈ owed')
    (hkeep : ∀ q ∈ owed, watches clean exact q.1 → q ∉ lost → q ∈ owed')
    (hlost : ∀ q ∈ lost, q.1 = .loose ∨ q.1 = .gap) : Trim clean exact opened owed' g' where
  sound := hr.sound
  tied := by rw [hr.joints]; exact h.tied
  owes := hr.owes rfl h.owes hmade hkeep hlost

/-- What does not hold is not owed. -/
theorem Trim.owe (ho : ∀ q ∈ owed, watches clean exact q.1 → g.Notes q.1 q.2 → q ∈ owed') :
    Trim clean exact opened owed' g :=
  { h with owes := fun k x hk hx => ho _ (h.owes k x hk hx) hk hx }

/-- A node that leads nowhere goes, and with it what is owed there. -/
theorem Trim.deletes (hd : Deletes g g' id n) (htied : Tied clean opened' g'.joint?)
    (hsucc : ∀ t, n.uses .successors t = 0)
    (hends : ∀ t, g.cls? t = some .forwardEnd → 0 < n.uses .inputs t → (.unlisted, t) ∈ owed')
    (hkeep : ∀ q ∈ owed, watches clean exact q.1 → q.2 ≠ id → q ∈ owed') :
    Trim clean exact opened' owed' g' :=
  ⟨hd.sound h.sound fun _ _ hx => hx, htied, hd.owes rfl h.owes hsucc hends hkeep⟩

/-- A node is cut off from where control goes on after it. -/
theorem Trim.meets_cut {k : Option NodeId → GraphM PUnit} {post : PUnit → Graph → Prop}
    {fail : Fault → Prop} {c : NodeClass} (hc : g.cls? id = some c) (ha : g.isAlive id)
    (hnext : (c.layout.fieldIndex? .successors "next").isSome) (howed : (.gap, id) ∉ owed)
    (hk : ∀ next g1, (exact → next ≠ none) → g.Leads id next → Relinks g g1 id (unlinked id next none) [] →
      g1.Leads id none → Trim clean exact opened (unlinked id next none ++ owed) g1 →
      Meets (k next) g1 post fail) :
    Meets (do
        let next ← next? id
        setNext id none
        k next) g post fail := by
  refine meets_bind.2 ((meets_next?_sound h.sound hc hnext).mono ?_ fun _ => False.elim)
  rintro next g ⟨rfl, hleads⟩
  refine meets_bind.2 ((meets_setNext_sound h.sound hc ha hnext hleads (by simp)).mono
    (fun _ g1 ⟨hr, hleads1, _⟩ => hk next g1 ?_ hleads hr hleads1 ?_) fun _ => False.elim)
  · rintro he rfl
    exact howed (h.owes .gap id he (hleads.gap h.sound ha hc hnext))
  · exact h.relinks hr (fun q hq => List.mem_append_left _ hq) (fun q hq _ _ => List.mem_append_right _ hq)
      (by simp)

/-- A new begin, to which control does not come yet, and from which it does not go on. -/
theorem Trim.meets_addBegin :
    Meets (add (.begin none)) g
      (fun x g' => Trim clean exact opened ((.loose, x) :: (.gap, x) :: owed) g' ∧
        Adds g g' x (.begin none) ∧ g'.joint? = g.joint? ∧ g'.Notes .loose x ∧ g'.Leads x none)
      (fun _ => False) := by
  have hfits : (Node.begin none).Fits g.cls? := by
    intro d
    cases d with
    | inputs => exact .nil
    | successors => exact .cons (Node.linkFits_one (by decide) (by rintro _ ⟨⟩)) .nil
  have hno (d : Direction) (t : NodeId) : ¬ 0 < (Node.begin none).uses d t := by
    cases d <;> simp [Node.uses, Node.slots, Node.links, Node.begin, Links.slots, Link.slots]
  refine (meets_addFresh h.sound.consistent.packed _).mono (fun x g' hadds => ?_) fun e he => ?_
  · have hends (t : NodeId) (ht : 0 < (Node.begin none).uses .inputs t) : g.cls? t ≠ some .forwardEnd :=
      absurd ht (hno _ t)
    have hm := hadds.moves h.sound.consistent hends
    have hjoint : g'.joint? = g.joint? := by
      rw [hadds.joint?, Function.update_eq_self_iff]
      exact (joint?_eq_none_of_fresh (node?_eq_none_of_bound hadds.fresh)).symm
    have hnotes : newNotes (Node.begin none) x ++ heldBy g (.begin none) = [(.loose, x), (.gap, x)] := rfl
    rw [hnotes] at hm
    refine ⟨⟨hadds.sound h.sound hfits (fun _ => ?_) hends, hjoint ▸ h.tied, fun k y hk hy => ?_⟩, hadds,
      hjoint, (hm.notes _ _).2 (.inl (by simp)), Node.begin none, by rw [hadds.node?, if_pos rfl], rfl⟩
    · exact Node.filled_of_cls (by rintro ⟨⟩) (by rintro ⟨⟩) .nil
        (Node.typed_plain (by rintro ⟨⟩) (by rintro ⟨⟩) fun _ => rfl)
    · rcases (hm.notes k y).1 hy with hy | ⟨hy, -⟩
      · exact List.mem_append_left owed hy
      · exact List.mem_append_right [_, _] (h.owes k y hk hy)
  · rcases he with ⟨d, t, _, ht, -⟩ | hcan
    · exact hno d t ht
    · exact hcan ⟨fun d t ht => absurd ht (hno d t), fun t ht => absurd ht (hno _ t)⟩

/-- Control passes a node by, which then goes. What is owed there is owed no more. -/
theorem Trim.meets_bypass {new : Option NodeId} {c : NodeClass}
    (ha : g.isAlive id) (hc : g.cls? id = some c)
    (hfollower : c.isFollower) (husers : g.users id = [])
    (hsucc : ∀ n, g.node? id = some n → ∀ t, n.uses .successors t = 0)
    (hnew : ∀ t, new = some t → g.Notes .loose t) (hsome : exact → new ≠ none)
    (howed : ∀ q ∈ owed, q.1 = .loose ∧ new = some q.2 ∨ q.1 ≠ .loose ∧ q.2 = id)
    (htied : Tied clean opened' (Function.update g.joint? id none)) :
    Meets (do
        replaceAtPredecessor id new
        delete id) g
      (fun _ g' => Trim clean exact opened' [] g' ∧
        g'.joint? = Function.update g.joint? id none ∧ g'.op? = g.op? ∧
        ∀ x, g'.isAlive x = if x = id then false else g.isAlive x) (fun _ => False) := by
  have hends {n : Node} {g : Graph} (hg : g.Sound) (hn : g.node? id = some n) (hcls : n.cls = c)
      (t : NodeId) (ht : g.cls? t = some .forwardEnd) (hu : 0 < n.uses .inputs t) :
      (Note.unlisted, t) ∈ ([] : List (Note × NodeId)) := by
    obtain ⟨spec, ct, hct, htakes⟩ := hg.takes hn hu
    obtain rfl := Option.mem_unique ht hct
    rw [hcls] at htakes
    rcases NodeClass.takes_forwardEnd htakes with rfl | rfl <;> cases hfollower
  refine (meets_replaceAtPredecessor_sound h.sound ha hnew).bind fun _ g1 h1 => ?_
  rcases h1 with ⟨hpred, rfl⟩ | ⟨p, hpred, hr⟩
  · -- control does not come to the node; that is owed only if it would come to itself
    refine (meets_delete_sound h.sound ha husers hpred).imp fun _ g' hd => ?_
    obtain ⟨n, hd⟩ := hd
    have hcls : n.cls = c := Option.mem_unique (cls?_of_node? hd.node) hc
    refine ⟨h.deletes hd (hd.joint? ▸ htied) (hsucc n hd.node) (hends h.sound hd.node hcls)
      fun q hq hw hne => ?_, hd.joint?, hd.op?, hd.isAlive⟩
    rcases howed q hq with ⟨hk, hq⟩ | ⟨-, hq⟩
    · have hid := h.owes .loose id (hk ▸ hw) ⟨ha, by simp [hc, hfollower], hpred⟩
      rcases howed _ hid with ⟨-, hid⟩ | ⟨hid, -⟩
      · exact absurd (Option.mem_unique hq hid) hne
      · exact absurd rfl hid
    · exact absurd hq hne
  · have hne : id ≠ p := by
      rintro rfl
      have huses := h.sound.consistent.successor id id hpred
      obtain ⟨n, hn⟩ := exists_node?_of_isAlive ha
      rw [uses_of_node? hn, hsucc n hn] at huses
      cases huses
    have hpred1 : g1.predecessor? id = none := ((hr.loose id).2 (.inl (by simp [unlinked]))).2.2
    have t1 : Trim clean exact opened (unlinked p (some id) new ++
        owed.filter (· ∉ new.toList.map ((Note.loose, ·)))) g1 :=
      h.relinks hr (fun q hq => List.mem_append_left _ hq)
        (fun q hq _ hl => List.mem_append_right _ (List.mem_filter.2 ⟨hq, decide_eq_true hl⟩)) (by simp)
    refine (meets_delete_sound t1.sound (by rw [hr.isAlive, ha]) ((hr.users_eq_nil_iff id).2 husers)
      hpred1).imp fun _ g' hd => ?_
    obtain ⟨n, hd⟩ := hd
    have hn : g.node? id = some n := (hr.others id hne).symm.trans hd.node
    have hcls : n.cls = c := Option.mem_unique (cls?_of_node? hn) hc
    have hjoint : g'.joint? = Function.update g.joint? id none := by rw [hd.joint?, hr.joints]
    refine ⟨t1.deletes hd (hjoint ▸ htied) (hsucc n hn) (hends hr.sound hd.node hcls)
      fun q hq hw hqid => ?_, hjoint, hd.op?.trans hr.op?, fun x => by rw [hd.isAlive, hr.isAlive]⟩
    rcases List.mem_append.1 hq with hq | hq
    · rcases List.mem_append.1 hq with hq | hq
      · obtain rfl : q = (.loose, id) := by simpa using hq
        exact absurd rfl hqid
      · split at hq
        · obtain rfl := List.mem_singleton.1 hq
          exact absurd ‹new = none› (hsome (exact_of_watches hw (by rintro ⟨⟩)))
        · cases hq
    · obtain ⟨hq, hl⟩ := List.mem_filter.1 hq
      rcases howed q hq with ⟨hk, hq⟩ | ⟨-, hq⟩
      · refine absurd ?_ (of_decide_eq_true hl)
        exact List.mem_map.2 ⟨q.2, by simp [hq], by rw [← hk]⟩
      · exact absurd hq hqid

end

/-- An exit that nothing uses gives way to a begin. -/
theorem Trim.meets_replaceExit {b : NodeId} (h : Trim clean exact (· = loopExit) [(.loose, b), (.gap, b)] g)
    (hj : g.joint? loopExit = some ⟨.loopExit, first, second⟩) (husers : g.users loopExit = [])
    (hb : g.cls? b = some .begin) (hloose : g.Notes .loose b) (hleads : g.Leads b none) :
    Meets (do
        let next ← next? loopExit
        setNext loopExit none
        setNext b next
        replaceAtPredecessor loopExit (some b)
        delete loopExit) g
      (fun _ g' => Trim clean exact (fun _ => False) [] g' ∧
        g'.joint? = Function.update g.joint? loopExit none) (fun _ => False) := by
  have ha := (of_joint? hj).1
  have hc : g.cls? loopExit = some .loopExit := cls?_of_op? (of_joint? hj).2
  have hne : b ≠ loopExit := by
    rintro rfl
    rw [hc] at hb
    cases hb
  refine h.meets_cut hc ha rfl (by simp [hne.symm]) fun next g1 hsome hnext hr1 hleads1 t1 => ?_
  have hnextb : next ≠ some b := by
    rintro rfl
    have hpred := hnext.predecessor?_eq h.sound
    rw [hloose.2.2] at hpred
    cases hpred
  have hb1 : g1.cls? b = some .begin := by rw [hr1.cls?, hb]
  have hloose1 : g1.Notes .loose b := (hr1.loose b).2 (.inr ⟨hloose, by simp⟩)
  refine (meets_setNext_sound t1.sound hb1 (by rw [hr1.isAlive]; exact hloose.1) rfl
    (hleads.relinks hr1 hne) fun t ht => ?_).bind fun _ g2 h2 => ?_
  · exact (hr1.loose t).2 (.inl (by simp [unlinked, ht]))
  obtain ⟨hr2, -, hgap2⟩ := h2
  -- the begin leads to where the exit led
  have t2 : Trim clean exact (· = loopExit) [(.gap, loopExit), (.loose, b)] g2 := by
    have t2 : Trim clean exact (· = loopExit) [(.gap, loopExit), (.loose, b), (.gap, b)] g2 := by
      refine t1.relinks hr2 (fun q hq => ?_) (fun q hq _ hl => ?_) (by simp)
      · simp only [unlinked, Option.toList_none, List.map_nil, List.nil_append] at hq
        split at hq <;> simp_all
      · simp only [unlinked, if_true, List.append_assoc] at hq
        exact (List.mem_append.1 hq).resolve_left hl
    refine t2.owe fun q hq hw hx => ?_
    rcases List.mem_cons.1 hq with rfl | hq
    · simp
    · rcases List.mem_cons.1 hq with rfl | hq
      · simp
      · obtain rfl := List.mem_singleton.1 hq
        exact absurd hx (hgap2 (hsome (exact_of_watches hw (by rintro ⟨⟩))))
  have hloose2 (t : NodeId) (ht : some b = some t) : g2.Notes .loose t := by
    obtain rfl := Option.some.inj ht
    refine (hr2.loose b).2 (.inr ⟨hloose1, fun hmem => hnextb ?_⟩)
    simpa using hmem
  have hc2 : g2.cls? loopExit = some .loopExit := by rw [hr2.cls?, hr1.cls?, hc]
  have hleads2 := hleads1.relinks hr2 hne.symm
  have hjoint : g2.joint? = g.joint? := by rw [hr2.joints, hr1.joints]
  refine (t2.meets_bypass (by rw [hr2.isAlive, hr1.isAlive, ha]) hc2 rfl
    ((hr2.users_eq_nil_iff _).2 ((hr1.users_eq_nil_iff _).2 husers))
    (fun n hn => hleads2.uses_eq_zero t2.sound hc2 rfl hn) hloose2 (fun _ => by simp)
    (by simp) ?_).imp fun _ g' h' => ⟨h'.1, h'.2.1.trans (by rw [hjoint])⟩
  rw [hjoint]
  exact h.tied.deleteExit hj

/-- An exit becomes a begin, and its proxies their values. -/
theorem Trim.meets_removeLoopExit (h : Trim clean exact (fun _ => False) [] g)
    (hj : g.joint? loopExit = some ⟨.loopExit, first, second⟩) :
    Meets (removeLoopExit loopExit) g
      (fun _ g' => Trim clean exact (fun _ => False) [] g' ∧
        Sheds (· = loopExit) g.joint? g'.joint? ∧ g'.joint? loopExit = none) (fun _ => False) := by
  unfold removeLoopExit
  refine (meets_usersWhere h.sound.consistent (registered_of_joint? hj) _).bind ?_
  rintro proxies g ⟨rfl, hnodup, hmem⟩
  have hg := h.sound.consistent
  have hproxies (x : NodeId) : x ∈ proxies ↔ IsProxy g.joint? loopExit x := by
    rw [hmem]
    refine ⟨fun ⟨hu, _⟩ => h.sound.isProxy_of_mem_users (cls?_of_op? (of_joint? hj).2) hu,
      fun ⟨kind, first, hx⟩ => ?_⟩
    obtain ⟨n, hn, hj⟩ := exists_node?_of_joint? hx
    refine ⟨hg.mem_users_of_joint? hx (.inr (List.mem_singleton.2 rfl)), n, hn, ?_⟩
    exact (isProxyAt_iff (h.sound.fits x n hn)).2 ⟨kind, first, hj⟩
  have h0 : Trim clean exact (· = loopExit) [] g := { h with tied := h.tied.mono fun _ => False.elim }
  refine (h0.meets_foldAll (P := fun J => IsProxy J loopExit) hnodup hproxies
    (fun _ _ _ _ hd => hd.proxy_iff)
    (fun J x ⟨kind, first, hx⟩ => by simp [hx]) fun g x n h hx hn => h.meets_foldProxy hx hn).bind
    fun _ g1 h1 => ?_
  obtain ⟨⟨h1, hsheds⟩, hnone⟩ := h1
  have hj1 := hsheds.kept rfl not_false hj
  have husers : g1.users loopExit = [] := by
    refine List.eq_nil_iff_forall_not_mem.2 fun u hu => hnone u ?_
    exact h1.sound.isProxy_of_mem_users (cls?_of_op? (of_joint? hj1).2) hu
  refine h1.meets_addBegin.bind fun b g2 h2 => ?_
  obtain ⟨h2, hadds, hjoint, hloose, hleads⟩ := h2
  rw [← hjoint] at hj1
  refine (h2.meets_replaceExit hj1 ((hadds.users_eq_nil_iff _).2 ⟨husers, rfl⟩)
    (by rw [hadds.cls?, if_pos rfl]; rfl) hloose hleads).imp fun _ g' h' => ?_
  obtain ⟨h', hjoint'⟩ := h'
  refine ⟨h', ?_, by rw [hjoint', Function.update_self]⟩
  rw [hjoint', hjoint]
  exact (hsheds.mono fun _ => False.elim).trans (sheds_update_none _ _)

/-! ### Loops -/

/-- An exit of a loop. -/
def IsExit (J : NodeId → Option Joint) (loopBegin x : NodeId) : Prop :=
  ∃ second, J x = some ⟨.loopExit, [some loopBegin], second⟩

/-- All exits of a loop become begins. -/
theorem Trim.meets_removeExits {exits : List NodeId} (h : Trim clean exact (fun _ => False) [] g)
    (hnodup : exits.Nodup) (hmem : ∀ x, x ∈ exits ↔ IsExit g.joint? loopBegin x) :
    Meets (forIn exits PUnit.unit fun x _ => do
        removeLoopExit x
        pure (ForInStep.yield PUnit.unit)) g
      (fun _ g' => (Trim clean exact (fun _ => False) [] g' ∧
        Sheds (IsExit g.joint? loopBegin) g.joint? g'.joint?) ∧ ∀ x, ¬ IsExit g'.joint? loopBegin x)
      (fun _ => False) := by
  let exit (g : Graph) : NodeId → Prop := IsExit g.joint? loopBegin
  refine Meets.forIn_each exit exit (fun g' => Trim clean exact (fun _ => False) [] g' ∧
    Sheds (exit g) g.joint? g'.joint?) ⟨h, .refl _⟩ hnodup (fun x => (hmem x).1) (fun x => (hmem x).2)
    fun x g1 ⟨h1, hsheds⟩ ⟨second, hx⟩ => ?_
  refine (h1.meets_removeLoopExit hx).bind fun _ g2 ⟨h2, hsheds2, hnone⟩ => ?_
  refine ⟨rfl, ⟨h2, hsheds.trans (hsheds2.mono ?_)⟩, fun y hyx hy => hy.imp fun _ =>
    hsheds2.kept rfl hyx, fun y ⟨second, hy⟩ => ⟨?_, second, hsheds2.firm rfl hy⟩⟩
  · rintro y rfl
    exact ⟨second, hsheds.firm rfl hx⟩
  · rintro rfl
    rw [hnone] at hy
    cases hy

/-- A loop that nothing uses is passed by. -/
theorem Trim.meets_dropLoop {forwardEnd : NodeId} (h : Trim clean exact (fun _ => False) [] g)
    (hj : g.joint? loopBegin = some ⟨.loopBegin, [some forwardEnd], []⟩)
    (husers : g.users loopBegin = []) :
    Meets (do
        let next ← next? loopBegin
        setNext loopBegin none
        delete loopBegin
        replaceAtPredecessor forwardEnd next
        delete forwardEnd) g
      (fun _ g' => Trim clean exact (fun _ => False) [] g' ∧
        g'.joint? = Function.update g.joint? loopBegin none) (fun _ => False) := by
  have ha := (of_joint? hj).1
  have hc : g.cls? loopBegin = some .loopBegin := cls?_of_op? (of_joint? hj).2
  refine h.meets_cut hc ha rfl List.not_mem_nil fun next g1 hsome _ hr1 hleads1 t1 => ?_
  rw [List.append_nil] at t1
  have hc1 : g1.cls? loopBegin = some .loopBegin := by rw [hr1.cls?, hc]
  have husers1 := (hr1.users_eq_nil_iff _).2 husers
  refine (meets_delete_sound t1.sound (by rw [hr1.isAlive, ha]) husers1
    (t1.sound.predecessor?_eq_none hc1 rfl)).bind fun _ g2 hd => ?_
  obtain ⟨n, hd⟩ := hd
  have hsucc := hleads1.uses_eq_zero t1.sound hc1 rfl hd.node
  rw [← hr1.joints] at hj
  have hjn := (joint?_of_node? hd.node (of_joint? hj).1).symm.trans hj
  have hcls : n.cls = .loopBegin := congrArg Op.cls (Node.op_of_joint? hjn)
  -- the loop had one end, which now belongs to no merge
  have hslots : n.slotsAt .inputs 0 = [some forwardEnd] := (Node.first_of_joint? hjn).symm
  have honly (t : NodeId) (ht : g1.cls? t = some .forwardEnd) (hu : 0 < n.uses .inputs t) :
      t = forwardEnd := by
    obtain ⟨field, hmem⟩ := Node.exists_mem_slotsAt hu
    obtain ⟨spec, ct, hspec, hct, htakes⟩ := t1.sound.accepts hd.node hmem
    obtain rfl := Option.mem_unique ht hct
    obtain rfl := NodeClass.field_of_forwardEnd (c := n.cls) hspec htakes
    rw [hslots] at hmem
    exact Option.some.inj (List.mem_singleton.1 hmem)
  have hmem : some forwardEnd ∈ n.slotsAt .inputs 0 := by rw [hslots]; exact List.mem_singleton.2 rfl
  have hend : g1.cls? forwardEnd = some .forwardEnd := by
    obtain ⟨spec, ct, hspec, hct, htakes⟩ := t1.sound.accepts hd.node hmem
    rw [Node.layout, Op.layout, show n.op.cls = _ from hcls] at hspec
    obtain rfl := Option.some.inj hspec
    rw [hcls] at htakes
    obtain rfl : ct = .forwardEnd := by revert htakes; cases ct <;> decide
    exact hct
  have huses := uses_pos_of_slot hd.node hmem
  have hne : forwardEnd ≠ loopBegin := by
    rintro rfl
    rw [hc1] at hend
    cases hend
  have t2 : Trim clean exact (fun _ => False)
      (next.toList.map ((.loose, ·)) ++ [(.unlisted, forwardEnd)]) g2 := by
    have husers {x : NodeId} {j : Joint} (hx : g1.joint? x = some j) : some loopBegin ∉ j.first :=
      fun hmem => by simpa [husers1] using t1.sound.consistent.mem_users_of_joint? hx (.inl hmem)
    refine t1.deletes hd ?_ hsucc (fun t ht hu => ?_) fun q hq _ hqid => ?_
    · rw [hd.joint?]
      exact t1.tied.deleteLoop hj (fun x vs hx => husers hx.choose_spec (List.mem_singleton.2 rfl))
        (fun x index hx => husers hx (List.mem_singleton.2 rfl))
        fun x second hx => husers hx (List.mem_singleton.2 rfl)
    · rw [honly t ht hu]
      simp
    · simp only [unlinked, if_true] at hq
      rcases List.mem_append.1 hq with hq | hq
      · exact List.mem_append_left _ hq
      · obtain rfl := List.mem_singleton.1 hq
        exact absurd rfl hqid
  have hend2 : g2.cls? forwardEnd = some .forwardEnd := by rw [hd.cls?, hend]
  have hjoint2 : g2.joint? forwardEnd = none := by
    by_contra hsome
    obtain ⟨j, hj⟩ := Option.ne_none_iff_exists'.1 hsome
    obtain ⟨m, hm⟩ := exists_node?_of_isAlive (of_joint? hj).1
    rw [joint?_of_node? hm (of_joint? hj).1, Node.joint?,
      show m.cls = .forwardEnd from Option.mem_unique (cls?_of_node? hm) hend2] at hj
    cases hj
  have hupdate : Function.update g2.joint? forwardEnd none = g2.joint? := by
    rw [Function.update_eq_self_iff, hjoint2]
  refine (t2.meets_bypass ?_ hend2 rfl ?_ (fun m hm => ?_) (fun t ht => ?_) hsome ?_
    (by rw [hupdate]; exact t2.tied)).imp fun _ g' h' => ⟨h'.1, ?_⟩
  · rw [hd.isAlive, if_neg hne]
    exact t1.sound.consistent.isAlive_target huses
  · refine List.eq_nil_iff_forall_not_mem.2 fun u hu => ?_
    have hu' := t2.sound.consistent.uses_of_mem_users hu
    rw [hd.uses] at hu'
    split at hu'
    · cases hu'
    · exact ‹u ≠ loopBegin› (t1.sound.ends forwardEnd u loopBegin hend hu' huses)
  · refine t2.sound.uses_successors_eq_zero hm ?_
    rw [Node.layout, Op.layout,
      show m.op.cls = .forwardEnd from Option.mem_unique (cls?_of_node? hm) hend2]
    rfl
  · obtain ⟨hat, hct, hpred⟩ := (hr1.loose t).2 (.inl (by simp [unlinked, ht]))
    refine ⟨?_, by rwa [hd.cls?], by rw [hd.predecessor?, hpred]; split <;> rfl⟩
    rw [hd.isAlive, if_neg, hat]
    rintro rfl
    rw [hc1] at hct
    exact absurd hct (by decide)
  · rintro ⟨k, x⟩ hq
    rcases List.mem_append.1 hq with hq | hq
    · obtain ⟨t, ht, hq⟩ := List.mem_map.1 hq
      cases hq
      exact .inl ⟨rfl, by simpa using ht⟩
    · cases List.mem_singleton.1 hq
      exact .inr ⟨by rintro ⟨⟩, rfl⟩
  · rw [h'.2.1, hupdate, hd.joint?, hr1.joints]

/-- Taking out a loop to which nothing leads back. -/
theorem Trim.meets_removeLoopBegin {ends : List (Option NodeId)}
    (h : Trim clean exact (fun _ => False) [] g) (hj : g.joint? loopBegin = some ⟨.loopBegin, ends, []⟩)
    (hends : ∀ x index, ¬ IsLoopEnd g.joint? loopBegin x index) :
    Meets (removeLoopBegin loopBegin) g
      (fun _ g' => Trim clean exact (fun _ => False) [] g' ∧
        Sheds (fun x => x = loopBegin ∨ IsExit g.joint? loopBegin x) g.joint? g'.joint? ∧
        g'.joint? loopBegin = none) (fun _ => False) := by
  unfold removeLoopBegin
  refine (meets_phisAt h.sound.consistent h.sound.fits (registered_of_joint? hj)).bind ?_
  rintro phis g ⟨rfl, hnodup, hmem⟩
  refine (h.meets_foldAll (P := fun J x => ∃ values, IsPhi J loopBegin x values) hnodup hmem
    (fun _ _ _ _ hd => hd.phi_iff)
    (fun J x ⟨vs, kind, hx⟩ => by simp [hx]) fun g x n h ⟨vs, hx⟩ hn => h.meets_foldPhi hx hn).bind
    fun _ g1 h1 => ?_
  obtain ⟨⟨h1, hsheds1⟩, hphis⟩ := h1
  have hj1 := hsheds1.kept rfl not_false hj
  refine (meets_usersWhere h1.sound.consistent (registered_of_joint? hj1) _).bind ?_
  rintro exits g1 ⟨rfl, hnodup, hmem⟩
  have hc1 : g1.cls? loopBegin = some .loopBegin := cls?_of_op? (of_joint? hj1).2
  have hexits (x : NodeId) : x ∈ exits ↔ IsExit g1.joint? loopBegin x := by
    rw [hmem]
    refine ⟨fun ⟨hu, n, hn, hx⟩ => ?_, fun ⟨second, hx⟩ => ?_⟩
    · have hcls : g1.cls? x = some .loopExit := by simpa [cls?, hn] using hx
      rcases h1.sound.tied_of_mem_users hc1 hu with ⟨vs, kind, hx⟩ | ⟨index, hx⟩ | hx
      · rw [cls?_of_op? (of_joint? hx).2] at hcls
        cases hcls
      · rw [cls?_of_op? (of_joint? hx).2] at hcls
        cases hcls
      · exact hx
    · obtain ⟨n, hn, hj⟩ := exists_node?_of_joint? hx
      refine ⟨h1.sound.consistent.mem_users_of_joint? hx (.inl (List.mem_singleton.2 rfl)), n, hn, ?_⟩
      exact decide_eq_true (congrArg Op.cls (Node.op_of_joint? hj))
  refine (h1.meets_removeExits hnodup hexits).bind fun _ g2 h2 => ?_
  obtain ⟨⟨h2, hsheds2⟩, hnone⟩ := h2
  have hj2 : g2.joint? loopBegin = some ⟨.loopBegin, ends, []⟩ := by
    refine hsheds2.kept rfl (fun ⟨second, hx⟩ => ?_) hj1
    rw [hj1] at hx
    cases hx
  obtain ⟨forwardEnd, rfl⟩ := h2.tied.loops.entered loopBegin ends hj2
  have husers : g2.users loopBegin = [] := by
    refine List.eq_nil_iff_forall_not_mem.2 fun u hu => ?_
    rcases h2.sound.tied_of_mem_users (cls?_of_op? (of_joint? hj2).2) hu with ⟨vs, hx⟩ | ⟨index, hx⟩ | hx
    · exact hphis u (hsheds2.phi hx)
    · exact hends u index (hsheds1.firm rfl (hsheds2.firm rfl hx))
    · exact hnone u hx
  obtain ⟨m, hm, hjm⟩ := exists_node?_of_joint? hj2
  rw [meets_bind, meets_node_of hm]
  have hfound : (m.ends?.getD []).filterMap (fun x => x) = [forwardEnd] := by
    have hop : m.op = .loopBegin := Node.op_of_joint? hjm
    obtain ⟨ends, state, hinputs⟩ := (h2.sound.fits loopBegin m hm).inputs_of_merge
      (.inr (congrArg Op.cls hop))
    have hends : [some forwardEnd] = ends := by
      simpa [Node.slotsAt, Node.links, hinputs, Link.slots] using Node.first_of_joint? hjm
    simp [Node.ends?, hop, Node.inputList, hinputs, ← hends]
  simp only [id_eq]
  rw [hfound]
  refine (h2.meets_dropLoop hj2 husers).imp fun _ g' h' => ⟨h'.1, ?_, by rw [h'.2, Function.update_self]⟩
  rw [h'.2]
  refine ((hsheds1.mono fun _ => False.elim).trans (hsheds2.mono fun x ⟨second, hx⟩ => ?_)).trans
    ((sheds_update_none _ _).mono fun _ hx => .inl hx)
  exact .inr ⟨second, hsheds1.firm rfl hx⟩

/-! ### All loops, placeholders and frame states -/

/-- Every loop has an end that leads back. -/
def Closed (J : NodeId → Option Joint) : Prop :=
  ∀ loopBegin ends, J loopBegin = some ⟨.loopBegin, ends, []⟩ → ∃ x index, IsLoopEnd J loopBegin x index

/-- Loops to which nothing leads back are taken out. -/
theorem Trim.meets_removeLoops {loops : List NodeId} (h : Trim clean exact (fun _ => False) [] g)
    (hnodup : loops.Nodup)
    (hmem : ∀ x, x ∈ loops ↔ ∃ ends, g.joint? x = some ⟨.loopBegin, ends, []⟩) :
    Meets (forIn loops PUnit.unit fun loopBegin _ => do
        if (← loopEnds loopBegin).isEmpty then removeLoopBegin loopBegin
        pure (ForInStep.yield PUnit.unit)) g
      (fun _ g' => Trim clean exact (fun _ => False) [] g' ∧ Closed g'.joint?) (fun _ => False) := by
  -- what is left to look at are the loops without an end
  refine (Meets.forIn_each (fun g x => ∃ ends, g.joint? x = some ⟨.loopBegin, ends, []⟩)
    (fun g x => (∃ ends, g.joint? x = some ⟨.loopBegin, ends, []⟩) ∧ ∀ y index, ¬ IsLoopEnd g.joint? x y index)
    _ h hnodup (fun x => (hmem x).1) (fun x hx => (hmem x).2 hx.1) ?_).imp fun _ g' h' => ⟨h'.1,
      fun x ends hx => by simpa using not_and.1 (h'.2 x) ⟨ends, hx⟩⟩
  rintro x g1 h1 ⟨ends, hx⟩
  refine (meets_loopEnds h1.sound.consistent h1.sound.fits (registered_of_joint? hx)).bind ?_
  rintro back g1 ⟨rfl, -, hback⟩
  split
  · rename_i hempty
    rw [List.isEmpty_iff] at hempty
    have hno (y : NodeId) (index : Int32) : ¬ IsLoopEnd g1.joint? x y index := fun hy => by
      simpa [hempty] using (hback y).2 ⟨index, hy⟩
    refine (h1.meets_removeLoopBegin hx hno).bind fun _ g2 ⟨h2, hsheds, hnone⟩ => ?_
    have hkept {y : NodeId} {j : Joint} (hy : g1.joint? y = some j) (hj : j.firm)
        (hyx : y ≠ x) (hexit : j.op.cls ≠ .loopExit) : g2.joint? y = some j := by
      refine hsheds.kept hj ?_ hy
      rintro (rfl | ⟨second, hy'⟩)
      · exact hyx rfl
      · rw [hy] at hy'
        cases hy'
        exact hexit rfl
    refine ⟨rfl, h2, fun y hyx hy => hy.imp fun _ hy => hkept hy rfl hyx nofun, fun y ⟨⟨ends, hy⟩, hopen⟩ =>
      ⟨?_, ⟨ends, hsheds.firm rfl hy⟩, fun z index hz => hopen z index (hkept hz rfl ?_ nofun)⟩⟩
    · rintro rfl
      rw [hnone] at hy
      cases hy
    · rintro rfl
      rw [IsLoopEnd, hx] at hz
      cases hz
  · rename_i hempty
    refine ⟨rfl, h1, fun y _ hy => hy, fun y hy => ⟨?_, hy⟩⟩
    rintro rfl
    obtain ⟨z, hz⟩ := List.exists_mem_of_ne_nil back (by simpa using hempty)
    obtain ⟨index, hz⟩ := (hback z).1 hz
    exact hy.2 z index hz

/-- Splicing out a placeholder, which fails only if an exit belongs to it. -/
theorem Trim.meets_spliceOut (h : Trim clean exact (fun _ => False) [] g) (ha : g.isAlive id)
    (hc : g.cls? id = some .placeholder) :
    Meets (spliceOut id) g
      (fun _ g' => Trim clean exact (fun _ => False) [] g' ∧ g'.joint? = g.joint? ∧ g'.op? = g.op? ∧
        ∀ x, g'.isAlive x = if x = id then false else g.isAlive x)
      (fun e => clean = false ∧ e = .usedOnRemoval ⟨id, .placeholder⟩) := by
  obtain ⟨e, he, -⟩ := isAlive_iff.1 ha
  unfold spliceOut
  refine meets_bind.2 (meets_entry.2 ⟨fun e' he' => ?_, fun hnone => by rw [he] at hnone; cases hnone⟩)
  have hempty : e'.usages.isEmpty = (g.users id).isEmpty := by
    rw [(h.sound.consistent.packed id e' he').isEmpty, ← users_of_get? he']
  have hjoint : g.joint? id = none := by
    obtain ⟨n, hn, hcls⟩ := exists_node?_of_cls? hc
    rw [joint?_of_node? hn ha, Node.joint?, hcls]
  by_cases hused : g.users id = []
  · rw [hused] at hempty
    simp only [hempty, List.isEmpty_nil, if_true]
    refine h.meets_cut hc ha rfl List.not_mem_nil fun next g1 hsome _ hr1 hleads1 t1 => ?_
    rw [List.append_nil] at t1
    have hc1 : g1.cls? id = some .placeholder := by rw [hr1.cls?, hc]
    have hupdate : Function.update g1.joint? id none = g.joint? := by
      rw [hr1.joints, Function.update_eq_self_iff, hjoint]
    refine (t1.meets_bypass (by rw [hr1.isAlive, ha]) hc1 rfl ((hr1.users_eq_nil_iff id).2 hused)
      (fun n hn => hleads1.uses_eq_zero t1.sound hc1 rfl hn)
      (fun t ht => (hr1.loose t).2 (.inl (by simp [unlinked, ht]))) hsome (fun q hq => ?_)
      (by rw [hupdate]; exact h.tied)).mono (fun _ g' h' => ?_) fun _ => False.elim
    · rcases List.mem_append.1 hq with hq | hq
      · obtain ⟨t, ht, rfl⟩ := List.mem_map.1 hq
        exact .inl ⟨rfl, by simpa using ht⟩
      · rw [if_pos rfl] at hq
        rw [List.mem_singleton.1 hq]
        exact .inr ⟨by rintro ⟨⟩, rfl⟩
    · obtain ⟨h', hjoint', hop, halive⟩ := h'
      exact ⟨h', hjoint'.trans hupdate, hop.trans hr1.op?, fun x => by rw [halive, hr1.isAlive]⟩
  · have hfail : e'.usages.isEmpty = false := by
      rw [hempty]
      simpa using hused
    simp only [hfail, meets_bind, meets_label, meets_fail, Bool.false_eq_true, if_false]
    refine ⟨fun n hn => ⟨?_, ?_⟩, fun hnone => ?_⟩
    · by_contra hclean
      cases h.owes .held id (by simpa [watches] using hclean) ⟨hc, hused⟩
    · rw [Node.label, Option.mem_unique (cls?_of_node? hn) hc]
    · rw [node?_of_get? he] at hnone
      cases hnone

/-- What holds of a graph that is cleaned up. -/
structure Cleaned (clean exact : Bool) (g : Graph) : Prop extends Trim clean exact (fun _ => False) [] g where
  closed : Closed g.joint?
  vacated : ∀ x, g.isAlive x = true → g.cls? x ≠ some .placeholder

/-- All placeholders are spliced out. -/
theorem Trim.meets_splicePlaceholders {placeholders : List NodeId}
    (h : Trim clean exact (fun _ => False) [] g) (hclosed : Closed g.joint?)
    (hnodup : placeholders.Nodup)
    (hmem : ∀ x, x ∈ placeholders ↔ g.isAlive x ∧ g.cls? x = some .placeholder) :
    Meets (forIn placeholders PUnit.unit fun x _ => do
        spliceOut x
        pure (ForInStep.yield PUnit.unit)) g
      (fun _ g' => Cleaned clean exact g')
      (fun e => clean = false ∧ ∃ id, e = .usedOnRemoval ⟨id, .placeholder⟩) := by
  let vacant (g : Graph) (x : NodeId) : Prop := g.isAlive x = true ∧ g.cls? x = some .placeholder
  refine (Meets.forIn_each vacant vacant (fun g => Trim clean exact (fun _ => False) [] g ∧ Closed g.joint?)
    ⟨h, hclosed⟩ hnodup (fun x => (hmem x).1) (fun x => (hmem x).2) fun x g1 ⟨h1, hclosed⟩ ⟨ha, hc⟩ =>
      ?_).imp fun _ g' ⟨⟨h', hclosed⟩, hnone⟩ =>
        { h' with closed := hclosed, vacated := fun x ha hc => hnone x ⟨ha, hc⟩ }
  refine meets_bind.2 ((h1.meets_spliceOut ha hc).mono (fun _ g2 h2 => ?_) fun e he => ⟨he.1, x, he.2⟩)
  obtain ⟨h2, hjoint, hop, halive⟩ := h2
  refine ⟨rfl, ⟨h2, by rwa [hjoint]⟩, fun y hyx hy => ?_, fun y hy => ?_⟩
  · exact ⟨by rw [halive, if_neg hyx, hy.1], by rw [cls?_congr hop, hy.2]⟩
  · obtain ⟨ha, hc⟩ := hy
    rw [halive] at ha
    split at ha
    · cases ha
    · exact ⟨‹_›, ha, by rwa [cls?_congr hop] at hc⟩

/-- A frame state that nothing uses may go. -/
theorem Cleaned.deleteState (h : Cleaned clean exact g) (hd : Deletes g g' id n)
    (hc : n.cls = .frameState) : Cleaned clean exact g' := by
  have hcls := cls?_of_node? hd.node
  rw [hc] at hcls
  obtain ⟨first, second, hj⟩ := exists_joint? hd.alive (op?_of_node? hd.node)
    (.inr (.inr (.inl hc)))
  have hunused {x : NodeId} {j : Joint} (hx : g.joint? x = some j) : some id ∉ j.second := fun hmem => by
    simpa [hd.unused] using h.sound.consistent.mem_users_of_joint? hx (.inr hmem)
  have hlayout : n.layout.successors = [] := by
    rw [Node.layout, Op.layout, show n.op.cls = _ from hc]
    rfl
  have htied : Tied clean (fun _ => False) g'.joint? := by
    rw [hd.joint?]
    exact h.tied.deleteState hj hc fun x first second hx => hunused hx
  refine ⟨h.deletes hd htied (h.sound.uses_successors_eq_zero hd.node hlayout) (fun t ht hu => ?_) (by simp),
    fun b ends hb => ?_, fun x ha => ?_⟩
  · obtain ⟨spec, ct, hct, htakes⟩ := h.sound.takes hd.node hu
    obtain rfl := Option.mem_unique ht hct
    rw [hc] at htakes
    rcases NodeClass.takes_forwardEnd htakes with hne | hne <;> cases hne
  · have hsheds := sheds_update_none g.joint? id
    rw [hd.joint?] at hb ⊢
    obtain ⟨x, index, hx⟩ := h.closed b ends (hsheds.firm rfl hb)
    refine ⟨x, index, hsheds.kept rfl ?_ hx⟩
    rintro rfl
    rw [IsLoopEnd, hj, Option.some.injEq, Joint.mk.injEq] at hx
    rw [Node.cls, hx.1] at hc
    cases hc
  · rw [hd.isAlive] at ha
    rw [hd.cls?]
    split at ha
    · cases ha
    · exact h.vacated x ha

/-- Frame states that nothing uses are deleted. -/
theorem Cleaned.meets_deleteStates {states : List NodeId} (h : Cleaned clean exact g)
    (hnodup : states.Nodup)
    (hmem : ∀ x ∈ states, g.isAlive x ∧ g.cls? x = some .frameState) {fail : Fault → Prop} :
    Meets (forIn states PUnit.unit fun x _ => do
        let e ← entry x
        if e.usages.size = 0 && e.predecessor.isNone then delete x
        pure (ForInStep.yield PUnit.unit)) g
      (fun _ g' => Cleaned clean exact g') fail := by
  refine (Meets.forIn_each (fun g x => g.isAlive x ∧ g.cls? x = some .frameState) (fun _ _ => False) _ h
    hnodup hmem (fun _ => False.elim) fun x g1 h1 ⟨ha, hc⟩ => ?_).imp fun _ g' h' => h'.1
  obtain ⟨e, he, -⟩ := isAlive_iff.1 ha
  refine meets_bind.2 (meets_entry.2 ⟨fun e' he' => ?_, fun hnone => by rw [he] at hnone; cases hnone⟩)
  split
  · rename_i hunused
    simp only [Bool.and_eq_true, decide_eq_true_eq, Option.isNone_iff_eq_none] at hunused
    have husers : g1.users x = [] := by
      rw [users_of_get? he', ← List.length_eq_zero_iff, ← (h1.sound.consistent.packed x e' he').size]
      exact hunused.1
    refine meets_bind.2 ((meets_delete_sound h1.sound ha husers
      ((predecessor?_of_get? he').trans hunused.2)).mono (fun _ g2 hd => ?_) fun _ => False.elim)
    obtain ⟨n, hd⟩ := hd
    have hcls : n.cls = .frameState := Option.mem_unique (cls?_of_node? hd.node) hc
    refine ⟨rfl, h1.deleteState hd hcls, fun y hyx hy => ?_, fun _ => False.elim⟩
    rwa [hd.isAlive, hd.cls?, if_neg hyx]
  · exact ⟨rfl, h1, fun _ _ hy => hy, fun _ => False.elim⟩

/-- Cleaning up a graph. It fails only if an exit belongs to a placeholder. -/
theorem Trim.meets_cleanUp (h : Trim clean exact (fun _ => False) [] g) :
    Meets cleanUp g (fun _ g' => Cleaned clean exact g')
      (fun e => clean = false ∧ ∃ id, e = .usedOnRemoval ⟨id, .placeholder⟩) := by
  unfold cleanUp
  refine meets_read.2 (meets_bind.2 ((h.meets_removeLoops (h.sound.nodup_nodesOf _)
    fun x => ?_).mono (fun _ g1 h1 => ?_) fun _ => False.elim))
  · rw [h.sound.mem_nodesOf]
    refine ⟨fun hx => exists_joint?_of_loopBegin hx.1 hx.2, fun ⟨ends, hx⟩ => ?_⟩
    exact ⟨(of_joint? hx).1, cls?_of_op? (of_joint? hx).2⟩
  obtain ⟨h1, hclosed⟩ := h1
  refine meets_read.2 ((h1.meets_splicePlaceholders hclosed (h1.sound.nodup_nodesOf _)
    fun x => h1.sound.mem_nodesOf).bind fun _ g2 h2 => ?_)
  refine meets_read.2 ((h2.meets_deleteStates (h2.sound.nodup_nodesOf _)
    fun x hx => h2.sound.mem_nodesOf.1 hx).bind fun _ g3 h3 => h3)

/-- The graph of a method can be cleaned up once all its blocks are lifted. -/
theorem Finished.trim {q : Plan} (h : Finished q g) : Trim q.clean q.exact (fun _ => False) [] g where
  sound := h.growing.sound
  tied := h.woven.tied
  owes k x hk hx := by
    cases k with
    | loose | gap | unlisted => exact absurd hx (h.finished hk _ x rfl)
    | held => exact absurd hx (h.vacant hk x)
    | quiet => cases hk

end

end Lift

end SeaOfNodes
