import SeaOfNodes.Lift.Target
import SeaOfNodes.Proofs.Flow.Nesting
import SeaOfNodes.Proofs.Graph.EdgeSymmetry
import SeaOfNodes.Proofs.Lift.Invariant

/-!
# Leaving loops

An edge that leaves loops passes one exit for each of them. The exits are sorted by the number of loops
around their headers. Loops around one block are nested, so this puts the inner ones first.
-/

namespace SeaOfNodes

/-! ### Graphs that get more nodes -/

namespace Graph

variable {g g' g'' : Graph} {t : Option NodeId} {id x : NodeId} {n n' : Node} {d : Direction} {field : Nat}
  {old new : Option NodeId} {exits exits' : List NodeId}

/-- What was there is as it was, but for the way to `t`. The new exits of loops are `exits`. -/
structure Enlarges (g g' : Graph) (t : Option NodeId) (exits : List NodeId) : Prop where
  consistent : g'.Consistent
  node? : ∀ x n, g.node? x = some n → g'.node? x = some n
  isAlive : ∀ x, (g.node? x).isSome → g'.isAlive x = g.isAlive x
  predecessor? : ∀ x, (g.node? x).isSome → t ≠ some x → g'.predecessor? x = g.predecessor? x
  exit_iff : ∀ x, g'.cls? x = some .loopExit ↔ x ∈ exits ∨ g.cls? x = some .loopExit
  fresh : ∀ x ∈ exits, g.node? x = none

namespace Enlarges

theorem refl (hg : g.Consistent) : Enlarges g g t [] :=
  ⟨hg, fun _ _ h => h, fun _ _ => rfl, fun _ _ _ => rfl, by simp, nofun⟩

theorem mono (h : Enlarges g g' none exits) : Enlarges g g' t exits :=
  { h with predecessor? := fun x hx _ => h.predecessor? x hx nofun }

theorem registered (h : Enlarges g g' t exits) (hx : (g.node? x).isSome) : (g'.node? x).isSome := by
  obtain ⟨n, hn⟩ := Option.isSome_iff_exists.1 hx
  simp [h.node? x n hn]

theorem isAlive_of_isAlive (h : Enlarges g g' t exits) (hx : g.isAlive x) : g'.isAlive x := by
  rw [h.isAlive x (registered_of_isAlive hx), hx]

theorem trans (h : Enlarges g g' t exits) (h' : Enlarges g' g'' t exits') :
    Enlarges g g'' t (exits ++ exits') where
  consistent := h'.consistent
  node? x n hn := h'.node? x n (h.node? x n hn)
  isAlive x hx := (h'.isAlive x (h.registered hx)).trans (h.isAlive x hx)
  predecessor? x hx ht := (h'.predecessor? x (h.registered hx) ht).trans (h.predecessor? x hx ht)
  exit_iff x := by
    rw [h'.exit_iff, h.exit_iff, List.mem_append]
    tauto
  fresh x hx := by
    refine (List.mem_append.1 hx).elim (h.fresh x) fun hx => ?_
    by_contra hne
    have := h.registered (Option.isSome_iff_ne_none.2 hne)
    simp [h'.fresh x hx] at this

/-- An edge of a new node is written. -/
theorem rewire (h : Enlarges g g' t exits) (hx : g.node? x = none) (hr : Rewires g' g'' x d n n' old new)
    (he : n.Edit n' d field old new) (hc : g''.Consistent)
    (hpred : ∀ y, (g.node? y).isSome → t ≠ some y → g''.predecessor? y = g'.predecessor? y) :
    Enlarges g g'' t exits where
  consistent := hc
  node? y m hm := by
    rw [hr.node?, if_neg, h.node? y m hm]
    rintro rfl
    rw [hx] at hm
    cases hm
  isAlive y hy := (hr.isAlive y).trans (h.isAlive y hy)
  predecessor? y hy ht := (hpred y hy ht).trans (h.predecessor? y hy ht)
  exit_iff y := by rw [hr.cls? he, h.exit_iff]
  fresh := h.fresh

end Enlarges

theorem Adds.enlarges (h : Adds g g' id n) (hg : g.Consistent) (hs : ∀ y, n.uses .successors y = 0) :
    Enlarges g g' none (if n.cls = .loopExit then [id] else []) := by
  have hfresh : g.node? id = none := by rw [Graph.node?, h.get?_fresh]; rfl
  have hne {y : NodeId} (hy : (g.node? y).isSome) : y ≠ id := by
    rintro rfl
    simp [hfresh] at hy
  refine ⟨h.consistent hg, fun y m hm => ?_, fun y hy => ?_, fun y hy _ => ?_, fun y => ?_, fun y hy => ?_⟩
  · rw [h.node?, if_neg (hne (by simp [hm])), hm]
  · rw [h.isAlive, if_neg (hne hy)]
  · rw [h.predecessor?, hs, if_neg (lt_irrefl 0)]
  · rw [h.cls?]
    by_cases hy : y = id
    · subst hy
      simp [h.cls?_fresh]
    · rw [if_neg hy]
      split <;> simp [hy]
  · split at hy
    · rw [List.mem_singleton.1 hy, hfresh]
    · cases hy

/-- Adding a node for which nothing but live inputs is needed. -/
theorem meets_add_enlarges (hg : g.Consistent) (hv : n.op.isValueNumberable = false)
    (halive : ∀ t, 0 < n.uses .inputs t → g.isAlive t) (hs : ∀ y, n.uses .successors y = 0) :
    Meets (Graph.add n) g (fun id g' => g'.isAlive id ∧ g'.node? id = some n ∧
      g.node? id = none ∧ g'.predecessor? id = none ∧
      Enlarges g g' none (if n.cls = .loopExit then [id] else [])) fun _ => False := by
  unfold Graph.add
  rw [hv]
  refine (meets_addFresh hg.packed n).mono (fun id g' h => ?_) fun _ he =>
    not_refersToDeleted_or halive hs he
  have hfresh : g.get? id = none := h.get?_fresh
  refine ⟨h.isAlive_self, by rw [h.node?, if_pos rfl], by simp [Graph.node?, hfresh], ?_, h.enlarges hg hs⟩
  rw [h.predecessor?, hs, if_neg (lt_irrefl 0), Graph.predecessor?, hfresh]
  rfl

theorem meets_intern_enlarges (hg : g.Consistent) (hv : n.op.isValueNumberable)
    (hleaf : n.op.isLeaf = false) (halive : ∀ t, 0 < n.uses .inputs t → g.isAlive t)
    (hs : ∀ y, n.uses .successors y = 0) (hcls : n.cls ≠ .loopExit) :
    Meets (Graph.intern n) g (fun id g' => g'.isAlive id ∧ Enlarges g g' none []) fun _ => False := by
  refine (meets_intern hg.packed hv).mono (fun id g' h => ?_) fun _ he => ?_
  · refine ⟨h.isAlive hg, ?_⟩
    cases h with
    | found same found =>
      exact ⟨same.consistent hg, fun x m hm => by rw [same.node?, hm], fun x _ => same.isAlive x,
        fun x _ _ => same.predecessor? x, by simp [same.cls?], nofun⟩
    | added adds =>
      have := adds.enlarges hg hs
      rwa [if_neg hcls] at this
  · refine not_refersToDeleted_or halive hs (he.imp_right fun hno hc => hno ⟨hc, ?_⟩)
    refine ⟨by simp [hleaf], fun t ht => registered_of_isAlive (halive t ht), fun t _ u hu => ?_⟩
    exact registered_of_isAlive (hg.isAlive_user hu)

end Graph

open Graph

theorem Node.mem_slots_of_uses {op : Op} {inputs : List Link} {t : NodeId}
    (h : 0 < (ofInputs op inputs).uses .inputs t) : some t ∈ Links.slots inputs :=
  List.count_pos_iff.1 h

variable {g : Graph}

theorem Frame.meets_insertProxies_enlarges {f : Frame} {exit : NodeId} (hg : g.Consistent)
    (hx : g.isAlive exit) (hf : ∀ v ∈ nodesIn f.slots, g.isAlive v) (b : NodeId)
    (header : Frame) : Meets (f.insertProxies exit b header) g (fun f' g' => Enlarges g g' none [] ∧
      ∀ v ∈ nodesIn f'.slots, g'.isAlive v) fun _ => False := by
  refine (meets_mapSlots (fun s done rest => Enlarges g s none [] ∧
    (∀ v ∈ nodesIn done, s.isAlive v = true) ∧ ∀ v ∈ nodesIn rest, g.isAlive v = true)
    ⟨.refl hg, nofun, hf⟩ fun s slot done rest h => ?_).imp fun f' g' h => ⟨h.1.1, h.1.2.1⟩
  obtain ⟨h, hdone, hrest⟩ := h
  have hrest' (v : NodeId) (hv : v ∈ nodesIn rest) : g.isAlive v := by
    obtain ⟨u, hu, hnode⟩ := mem_nodesIn.1 hv
    exact hrest v (mem_nodesIn.2 ⟨u, List.mem_cons_of_mem _ hu, hnode⟩)
  have next {s' : Graph} (slot' : Option Slot) (h' : Enlarges s s' none [])
      (hslot : ∀ v, slot' = some v → s'.isAlive v.node) : Enlarges g s' none [] ∧
        (∀ v ∈ nodesIn (done ++ [slot']), s'.isAlive v = true) ∧ ∀ v ∈ nodesIn rest, g.isAlive v = true := by
    refine ⟨h.trans h', fun v hv => ?_, hrest'⟩
    rw [nodesIn_append] at hv
    rcases List.mem_append.1 hv with hv | hv
    · exact h'.isAlive_of_isAlive (hdone v hv)
    · obtain ⟨u, hu, rfl⟩ := mem_nodesIn.1 hv
      exact hslot u (List.mem_singleton.1 hu).symm
  cases slot with
  | none => exact next none (.refl h.consistent) nofun
  | some value =>
    have hv := h.isAlive_of_isAlive (hrest value.node (mem_nodesIn.2 ⟨value, by simp, rfl⟩))
    have hbefore : Meets (isFromBefore header b value.node) s (fun _ s' => s' = s) fun _ => False := by
      obtain ⟨n, hn⟩ := exists_node?_of_isAlive hv
      unfold isFromBefore isPhiAt
      split
      · rw [meets_bind, meets_bind, meets_node]
        exact ⟨fun _ _ => rfl, by simp [hn]⟩
      · rfl
    refine hbefore.bind ?_
    rintro fromBefore s rfl
    split
    · exact next (some value) (.refl h.consistent) (by rintro _ ⟨⟩; exact hv)
    · refine (meets_intern_enlarges (n := .proxy value.kind value.node exit) h.consistent rfl rfl
        (fun t ht => ?_) (fun _ => rfl) nofun).bind fun proxy s' h' =>
          next _ h'.2 (by rintro _ ⟨⟩; exact h'.1)
      have : t = value.node ∨ t = exit := by
        simpa [Links.slots, Link.slots] using Node.mem_slots_of_uses ht
      rcases this with rfl | rfl
      · exact hv
      · exact h.isAlive_of_isAlive hx

namespace Lift

variable {s : State} {f : Frame} {t : NodeId} {arrivals : List (BlockId × Arrival)} {headers : List BlockId}
  {exits : List NodeId} {x : NodeId}

theorem meets_addExit {header : BlockId} {b : NodeId} {entry : Frame} (hg : s.graph.Consistent)
    (ha : s.arrivals.lookup header = some ⟨b, some entry⟩) (hb : s.graph.isAlive b)
    (hf : ∀ v ∈ nodesIn f.slots, s.graph.isAlive v) (bci : Int) :
    Meets (addExit bci header f) s (fun r s' => s' = { s with graph := s'.graph } ∧
      Enlarges s.graph s'.graph none [r.1] ∧ s'.graph.isAlive r.1 ∧
      s'.graph.predecessor? r.1 = none ∧ (∃ state, s'.graph.node? r.1 =
        some ⟨.loopExit, [.one (some b), .one (some state)], [.one none]⟩) ∧
      ∀ v ∈ nodesIn r.2.slots, s'.graph.isAlive v) fun _ => False := by
  unfold addExit arrival?
  rw [meets_bind, meets_bind, meets_get, meets_pure, ha]
  refine meets_bind.2 (meets_onGraph.2 ((meets_add_enlarges hg rfl (fun t ht => ?_) fun _ => rfl).mono
    (fun exit g1 h1 => ?_) fun _ h => h))
  · obtain rfl : t = b := by simpa [Links.slots, Link.slots] using Node.mem_slots_of_uses ht
    exact hb
  obtain ⟨hxa, hxn, hxf, hxp, he1⟩ := h1
  refine meets_bind.2 (meets_onGraph.2 ((Frame.meets_insertProxies_enlarges he1.consistent hxa
    (fun v hv => he1.isAlive_of_isAlive (hf v hv)) b entry).mono (fun f2 g2 h2 => ?_) fun _ h => h))
  obtain ⟨he2, hf2⟩ := h2
  unfold setState Frame.materialize
  refine meets_bind.2 (meets_onGraph.2 (meets_bind.2 ((meets_add_enlarges he2.consistent rfl
    (fun t ht => ?_) fun _ => rfl).mono (fun state g3 h3 => ?_) fun _ h => h)))
  · obtain ⟨slot, hslot, rfl⟩ : ∃ slot, some slot ∈ f2.slots ∧ slot.node = t := by
      simpa [Links.slots, Link.slots, Frame.slots, or_and_right, exists_or] using Node.mem_slots_of_uses ht
    exact hf2 _ (mem_nodesIn.2 ⟨slot, hslot, rfl⟩)
  obtain ⟨hsa, -, -, -, he3⟩ := h3
  have he := (he1.trans he2).trans he3
  have hnode := he3.node? _ _ (he2.node? _ _ hxn)
  have hxa3 := he3.isAlive_of_isAlive (he2.isAlive_of_isAlive hxa)
  have hreg1 : (g1.node? exit).isSome := by simp [hxn]
  have hfield : (Node.loopExit b).layout.fieldIndex? .inputs "state_after" = some 1 := rfl
  have hedit : (Node.loopExit b).Edit _ .inputs 1 none (some state) := Node.edit_one rfl (some state)
  refine (he3.consistent.meets_setField hnode hfield (by decide) rfl (by rintro _ ⟨⟩; exact hsa) (by rintro ⟨⟩)).bind ?_
  rintro _ g4 ⟨rfl, hr⟩
  have hpred (y : NodeId) : g4.predecessor? y = g3.predecessor? y := by simpa using hr.predecessor? y
  refine ⟨rfl, he.rewire hxf hr hedit (hr.consistent hedit he3.consistent (fun _ => hxa3)
    (by rintro _ ⟨⟩; exact hsa)) fun y _ _ => hpred y, ?_, ?_, ⟨state, ?_⟩, fun v hv => ?_⟩
  · rw [hr.isAlive, hxa3]
  · rw [hpred, he3.predecessor? _ (he2.registered hreg1) (by rintro ⟨⟩),
      he2.predecessor? _ hreg1 (by rintro ⟨⟩), hxp]
  · rw [hr.node?, if_pos rfl]
    rfl
  · rw [hr.isAlive, he3.isAlive_of_isAlive (hf2 v hv)]

/-- The exits of the loops of some headers, each leading to the next and the last one to `t`. -/
inductive ExitsTo (arrivals : List (BlockId × Arrival)) (g : Graph) (t : NodeId) :
    NodeId → List BlockId → List NodeId → Prop
  | nil : ExitsTo arrivals g t t [] []
  | cons {header : BlockId} {a : Arrival} {x : NodeId} {headers : List BlockId} {exits : List NodeId}
    (state next : NodeId) (arrival : arrivals.lookup header = some a) (alive : g.isAlive x = true)
    (node : g.node? x = some ⟨.loopExit, [.one (some a.first), .one (some state)], [.one (some next)]⟩)
    (rest : ExitsTo arrivals g t next headers exits) : ExitsTo arrivals g t x (header :: headers) (x :: exits)

theorem ExitsTo.eq_or_mem (h : ExitsTo arrivals g t x headers exits) :
    x = t ∨ x ∈ exits := by
  cases h with
  | nil => exact .inl rfl
  | cons => exact .inr List.mem_cons_self

theorem ExitsTo.length_eq (h : ExitsTo arrivals g t x headers exits) :
    exits.length = headers.length := by
  induction h with
  | nil => rfl
  | cons _ _ _ _ _ _ ih => simp [ih]

theorem ExitsTo.congr {g' : Graph} (h : ExitsTo arrivals g t x headers exits)
    (hsame : ∀ y ∈ exits, g'.node? y = g.node? y ∧ g'.isAlive y = g.isAlive y) :
    ExitsTo arrivals g' t x headers exits := by
  induction h with
  | nil => exact .nil
  | cons state next arrival alive node _ ih =>
    obtain ⟨hnode, halive⟩ := hsame _ List.mem_cons_self
    exact .cons state next arrival (halive.trans alive) (hnode.trans node)
      (ih fun y hy => hsame y (List.mem_cons_of_mem _ hy))

/-- Exits in front of a node that nothing leads to. -/
theorem meets_addExits (headers : List BlockId) (hg : s.graph.Consistent) (ht : s.graph.isAlive t)
    (hp : s.graph.predecessor? t = none) (harrivals : ∀ header ∈ headers, ∃ b entry,
      s.arrivals.lookup header = some ⟨b, some entry⟩ ∧ s.graph.isAlive b)
    (hf : ∀ v ∈ nodesIn f.slots, s.graph.isAlive v) (bci : Int) :
    Meets (addExits bci t headers f) s (fun r s' => s' = { s with graph := s'.graph } ∧
      s'.graph.isAlive r.1 ∧ s'.graph.predecessor? r.1 = none ∧ ∃ exits, exits.Nodup ∧
        Enlarges s.graph s'.graph (some t) exits ∧ ExitsTo s.arrivals s'.graph t r.1 headers exits)
      fun _ => False := by
  induction headers generalizing s f with
  | nil => exact ⟨rfl, ht, hp, [], .nil, .refl hg, .nil⟩
  | cons header headers ih =>
    unfold addExits
    obtain ⟨b, entry, ha, hb⟩ := harrivals header List.mem_cons_self
    refine (meets_addExit hg ha hb hf bci).bind ?_
    rintro ⟨exit, f1⟩ s1 ⟨hs1, he1, hxa, hxp, ⟨state, hxn⟩, hf1⟩
    have hreg : (s1.graph.node? exit).isSome := by simp [hxn]
    have hxt : exit ≠ t := by
      rintro rfl
      have := registered_of_isAlive ht
      simp [he1.fresh exit] at this
    refine (ih he1.consistent (he1.isAlive_of_isAlive ht)
      (by rw [he1.predecessor? t (registered_of_isAlive ht) nofun, hp]) (fun h hh => ?_) hf1).bind ?_
    · obtain ⟨b, entry, ha, hb⟩ := harrivals h (List.mem_cons_of_mem _ hh)
      exact ⟨b, entry, by rw [hs1]; exact ha, he1.isAlive_of_isAlive hb⟩
    rintro ⟨next, f2⟩ s2 ⟨hs2, hna, hnp, exits, hnodup, he2, hexits⟩
    have hxa2 := he2.isAlive_of_isAlive hxa
    have hnode := he2.node? exit _ hxn
    have hnot : exit ∉ exits := fun hmem => by simp [he2.fresh exit hmem] at hreg
    -- the next one is the target or another new exit
    have hnext {y : NodeId} (hy : (s1.graph.node? y).isSome) (hyt : y ≠ t) : next ≠ y := by
      rintro rfl
      refine hexits.eq_or_mem.elim hyt fun hmem => ?_
      simp [he2.fresh next hmem] at hy
    unfold setNext setSuccessor
    have hfield : (⟨.loopExit, [.one (some b), .one (some state)], [.one none]⟩ : Node).layout.fieldIndex?
        .successors "next" = some 0 := rfl
    have hedit : (⟨.loopExit, [.one (some b), .one (some state)], [.one none]⟩ : Node).Edit _ .successors 0
        none (some next) := Node.edit_one rfl (some next)
    refine meets_bind.2 (meets_onGraph.2 ((he2.consistent.meets_setField hnode hfield (by decide) rfl
      (by rintro _ ⟨⟩; exact hna) (by rintro - _ ⟨⟩; exact hnp)).bind ?_))
    rintro _ g3 ⟨rfl, hr⟩
    have hpred {y : NodeId} (hy : next ≠ y) : g3.predecessor? y = s2.graph.predecessor? y := by
      rw [hr.predecessor?, if_neg (by simp), if_neg (by simpa using hy), if_neg nofun]
    refine ⟨by rw [hs2, hs1], (hr.isAlive exit).trans hxa2, ?_, exit :: exits, List.nodup_cons.2 ⟨hnot, hnodup⟩,
      (he1.mono.trans he2).rewire (he1.fresh exit (by simp)) hr hedit (hr.consistent hedit he2.consistent
        (fun _ => hxa2) (by rintro _ ⟨⟩; exact hna)) fun y hy hyt => hpred (hnext (he1.registered hy)
          fun heq => hyt (heq ▸ rfl)), .cons state next ha ((hr.isAlive exit).trans hxa2) ?_ ?_⟩
    · rw [hpred (hnext hreg hxt), he2.predecessor? exit hreg (by simpa using hxt.symm), hxp]
    · rw [hr.node?, if_pos rfl]
      rfl
    · have harr : s1.arrivals = s.arrivals := by rw [hs1]
      refine (harr ▸ hexits).congr fun y hy => ⟨?_, hr.isAlive y⟩
      rw [hr.node?, if_neg]
      rintro rfl
      exact hnot hy

/-! ### The exits of an edge -/

/-- The loops that an edge leaves. -/
def loopsLeft (map : BlockMap) (source id : BlockId) : List Nat :=
  (map.loopsAt source).filter (· ∉ map.loopsAt id)

/-- An edge from the current block can be led through exits to `t`. The block is one of `map`, to which
others may have been added; `t` and the values in the frame are there, and the loops that the edge leaves
were entered. -/
structure CanLeave (s : State) (map : BlockMap) (source id : BlockId) (t : NodeId) (f : Frame) : Prop where
  current : s.current = some source
  mem : source ∈ map.order
  headers : s.map.headers = map.headers
  blocks : ∀ b ∈ map.order, s.map.block b = map.block b
  consistent : s.graph.Consistent
  target : s.graph.isAlive t = true
  free : s.graph.predecessor? t = none
  slots : ∀ v ∈ nodesIn f.slots, s.graph.isAlive v = true
  entered : ∀ l ∈ loopsLeft s.map source id, ∀ header, map.header? l = some header →
    ∃ b entry, s.arrivals.lookup header = some ⟨b, some entry⟩ ∧ s.graph.isAlive b = true

namespace CanLeave

variable {m : Method} {options : Options} {map : BlockMap} {d : Flow.Discovery}
  {first source id header : BlockId} {blocks completed : Blocks} {o : Flow.Ordering}
  (h : CanLeave s map source id t f)
include h

theorem header? (l : Nat) : s.map.header? l = map.header? l := by
  rw [BlockMap.header?, h.headers, BlockMap.header?]

theorem mem_loopsAt {l : Nat} (hl : l ∈ s.map.loopsAt source) : l ∈ map.loopsAt source := by
  rwa [BlockMap.loopsAt, h.blocks source h.mem] at hl

variable (hs : BlockMap.Staged m options d first blocks o completed map)
include hs

/-- The headers of the loops that an edge leaves. -/
theorem heads (hheader : header ∈ exitedHeaders s.map source id) :
    map.Heads (map.block header).loop header ∧ (map.block header).loop ∈ loopsLeft s.map source id := by
  obtain ⟨l, hl, hlh⟩ := List.mem_filterMap.1 (List.mem_mergeSort.1 hheader)
  obtain ⟨hin, hout⟩ := LoopMask.mem_toList_andNot.1 hl
  obtain ⟨c, hc⟩ := hs.exists_heads h.mem (h.mem_loopsAt hin)
  obtain rfl : header = c := Option.mem_unique hlh ((h.header? l).trans hc.header)
  rw [hc.loop]
  exact ⟨hc, List.mem_filter.2 ⟨hin, decide_eq_true hout⟩⟩

/-- Each loop that is left has one header. -/
theorem perm_loopsLeft : ((exitedHeaders s.map source id).map fun header => (map.block header).loop).Perm
    (loopsLeft s.map source id) := by
  have hnodup (mask : LoopMask) : (LoopMask.toList mask).Nodup := List.nodup_range.filter _
  refine ((List.mergeSort_perm ..).map _).trans ?_
  rw [List.map_filterMap, List.filterMap_congr (g := some), List.filterMap_some]
  · refine (List.perm_ext_iff_of_nodup (hnodup _) ((hnodup _).filter _)).2 fun l => ?_
    rw [LoopMask.mem_toList_andNot, List.mem_filter, decide_eq_true_eq]
  · intro l hl
    obtain ⟨c, hc⟩ := hs.exists_heads h.mem (h.mem_loopsAt (LoopMask.mem_toList_andNot.1 hl).1)
    rw [h.header?, hc.header, Option.map_some, hc.loop]

/-- The headers are sorted by depth. Of two of the loops the one with the deeper header lies within the
other. -/
theorem pairwise_nested : (exitedHeaders s.map source id).Pairwise fun inner outer =>
    map.Nested (map.block inner).loop (map.block outer).loop := by
  have hsorted : (exitedHeaders s.map source id).Pairwise fun a b =>
      decide ((s.map.loopsAt b).length ≤ (s.map.loopsAt a).length) :=
    List.pairwise_mergeSort (fun a b c hab hbc => by simp at hab hbc ⊢; omega) (fun a b => by simp; omega) _
  have hne : (exitedHeaders s.map source id).Pairwise fun a b => (map.block a).loop ≠ (map.block b).loop :=
    List.pairwise_map.1 ((h.perm_loopsLeft hs).nodup_iff.2 ((List.nodup_range.filter _).filter _))
  refine (hsorted.and hne).imp_of_mem fun {a b} ha hb ⟨hle, hne⟩ => ?_
  obtain ⟨hha, hsa⟩ := h.heads hs ha
  obtain ⟨hhb, hsb⟩ := h.heads hs hb
  have hin {l : Nat} (hl : l ∈ loopsLeft s.map source id) : l ∈ map.loopsAt source :=
    h.mem_loopsAt (List.mem_filter.1 hl).1
  refine (hs.nested_or_nested h.mem (hin hsa) (hin hsb) hne).resolve_right fun hn => ?_
  obtain ⟨c, c', hc, hc', hlt⟩ := hn.deeper
  obtain rfl := Option.mem_unique hc hhb.header
  obtain rfl := Option.mem_unique hc' hha.header
  rw [decide_eq_true_eq, BlockMap.loopsAt, BlockMap.loopsAt, h.blocks _ hha.mem, h.blocks _ hhb.mem] at hle
  exact absurd hlt (not_lt.2 hle)

end CanLeave

/-- A loop within another one; one edge leaves both. -/
def nestedLoops : Method :=
  .ofCode #[0x1a, 0x99, 0, 14, 0x1a, 0x99, 0, 10, 0x1a, 0x9a, 0xff, 0xfb, 0xa7, 0xff, 0xf4, 0xb1] [] []

/-- Behind the entry of both loops, with an empty frame. -/
def withinLoops (map : BlockMap) (g : Graph) : State where
  method := nestedLoops
  options := .standard
  map := map
  graph := g
  frame := ⟨"", [], [], false⟩
  current := some ⟨2⟩
  arrivals := [(⟨0⟩, ⟨⟨0⟩, some ⟨"", [], [], false⟩⟩), (⟨2⟩, ⟨⟨1⟩, some ⟨"", [], [], false⟩⟩)]

end Lift

end SeaOfNodes
