import SeaOfNodes.Proofs.Graph.Operations

/-!
# The value of a node

Given what the operations mean over some values, a node has the value of its operation on the values of
its inputs. The inputs of a node that computes are there before the node and are never written again, so
a graph that grows keeps its values. A node that is shared has the value that a new one would have.
-/

namespace SeaOfNodes

/-- What the operations mean over some values. -/
structure Interpretation (α : Type) where
  parameter : Int32 → Kind → α
  constant : Kind → Int64 → α
  binary : ArithOp → Kind → α → α → α
  negate : Kind → α → α
  convert : Kind → Kind → α → α
  compare : Kind → Bool → α → α → α
  deriving Inhabited

variable {α : Type} {I : Interpretation α} {vs : List α} {v : α} {op : Op}

/-- The value of an operation on operands; none if it does not compute. -/
def Interpretation.apply (I : Interpretation α) : Op → List α → Option α
  | .parameter index kind, [] => some (I.parameter index kind)
  | .constant kind bits, [] => some (I.constant kind bits)
  | .binary op kind, [x, y] => some (I.binary op kind x y)
  | .negate kind, [x] => some (I.negate kind x)
  | .convert source target, [x] => some (I.convert source target x)
  | .normalizeCompare kind unorderedIsLess, [x, y] => some (I.compare kind unorderedIsLess x y)
  | _, _ => none

/-- Operations whose operands are not written once the node is registered. -/
def Op.isFrozen : Op → Bool
  | .parameter .. | .constant .. | .binary .. | .negate _ | .convert .. | .normalizeCompare ..
  | .methodReturn => true
  | _ => false

/-- What stands in the graph of code that computes and returns: the entry of the method, the heads of
blocks, states, and nodes with frozen operands. -/
def Op.isLinear (op : Op) : Bool :=
  op.isFrozen || op.cls = .start || op.cls = .placeholder || op.cls = .frameState

theorem Interpretation.isFrozen_of_apply (h : I.apply op vs = some v) :
    op.isFrozen := by
  unfold Interpretation.apply at h
  split at h <;> first | rfl | cases h

theorem Interpretation.isValueNumberable_of_apply
    (h : I.apply op vs = some v) : op.isValueNumberable ∧ op ≠ .methodReturn := by
  unfold Interpretation.apply at h
  split at h <;> first | exact ⟨rfl, nofun⟩ | cases h

theorem Interpretation.eq_nil_of_apply (h : I.apply op vs = some v) (hleaf : op.isLeaf) : vs = [] := by
  unfold Interpretation.apply at h
  split at h <;> first | rfl | exact Bool.noConfusion hleaf | cases h

namespace Graph

/-- The value of a node along at most `fuel` edges. -/
def eval (g : Graph) (I : Interpretation α) : Nat → NodeId → Option α
  | 0, _ => none
  | fuel + 1, id => do
    let n ← g.node? id
    let operands ← (n.slots .inputs).mapM fun input => input.bind (g.eval I fuel)
    I.apply n.op operands

/-- The value of a node. No way through a graph without cycles is longer than its number of nodes. -/
def value (g : Graph) (I : Interpretation α) (id : NodeId) : Option α := g.eval I g.bound id

variable {g g' g'' : Graph} {id x t : NodeId} {n n' : Node} {v : α} {vs : List α} {k k' : Nat}
  {d : Direction} {field : Nat} {old new : Option NodeId} {r : Option NodeId}

theorem mapM_eq_some_iff {β : Type} {f : β → Option α} {l : List β} :
    l.mapM f = some vs ↔ List.Forall₂ (fun x v => f x = some v) l vs := by
  induction l generalizing vs with
  | nil => simp [eq_comm]
  | cons x l ih =>
    simp only [List.mapM_cons, Option.bind_eq_bind, Option.bind_eq_some_iff, Option.pure_def,
      Option.some.injEq, List.forall₂_cons_left_iff, ih]
    constructor
    · rintro ⟨v, hv, vs, hvs, rfl⟩
      exact ⟨v, vs, hv, hvs, rfl⟩
    · rintro ⟨v, vs, hv, hvs, rfl⟩
      exact ⟨v, hv, vs, hvs, rfl⟩

/-- The operands have the given values. -/
def Operands (value : NodeId → Option α) (inputs : List (Option NodeId)) (vs : List α) : Prop :=
  List.Forall₂ (fun input v => input.bind value = some v) inputs vs

theorem eval_succ : g.eval I (k + 1) id = some v ↔
    ∃ n vs, g.node? id = some n ∧ Operands (g.eval I k) (n.slots .inputs) vs ∧ I.apply n.op vs = some v := by
  rw [eval]
  simp only [Option.bind_eq_bind, Option.bind_eq_some_iff, mapM_eq_some_iff, Operands]
  constructor
  · rintro ⟨n, hn, vs, hvs, hv⟩
    exact ⟨n, vs, hn, hvs, hv⟩
  · rintro ⟨n, vs, hn, hvs, hv⟩
    exact ⟨n, hn, vs, hvs, hv⟩

theorem Operands.imp {f f' : NodeId → Option α} {inputs : List (Option NodeId)}
    (h : Operands f inputs vs) (hf : ∀ t, some t ∈ inputs → ∀ v, f t = some v → f' t = some v) :
    Operands f' inputs vs := by
  induction h with
  | nil => exact .nil
  | @cons input v inputs vs hv _ ih =>
    refine .cons ?_ (ih fun t ht => hf t (List.mem_cons_of_mem _ ht))
    obtain ⟨t, rfl, hv⟩ := Option.bind_eq_some_iff.1 hv
    exact hf t List.mem_cons_self v hv

theorem eval_mono (h : g.eval I k id = some v) (hk : k ≤ k') : g.eval I k' id = some v := by
  induction k generalizing k' id v with
  | zero => cases h
  | succ k ih =>
    obtain ⟨k', rfl⟩ : ∃ j, k' = j + 1 := ⟨k' - 1, by omega⟩
    obtain ⟨n, vs, hn, hvs, hv⟩ := eval_succ.1 h
    exact eval_succ.2 ⟨n, vs, hn, hvs.imp fun t _ v ht => ih ht (by omega), hv⟩

theorem index_lt_of_eval (h : g.eval I k id = some v) : id.index < g.bound := by
  cases k with
  | zero => cases h
  | succ k =>
    obtain ⟨n, -, hn, -⟩ := eval_succ.1 h
    obtain ⟨e, he, -⟩ := get?_of_node? hn
    exact isSome_get?_iff.1 (by simp [he])

/-- The node has a value, found along nodes registered before it. -/
def Denotes (g : Graph) (I : Interpretation α) (id : NodeId) (v : α) : Prop :=
  g.eval I (id.index + 1) id = some v

/-- The inputs have the given values. -/
def Supplies (g : Graph) (I : Interpretation α) (inputs : List (Option NodeId)) (vs : List α) : Prop :=
  List.Forall₂ (fun input v => ∃ t, input = some t ∧ g.Denotes I t v) inputs vs

theorem supplies_nil : g.Supplies I [] [] := .nil

theorem supplies_one (hx : g.Denotes I x v) : g.Supplies I [some x] [v] :=
  .cons ⟨x, rfl, hx⟩ .nil

theorem supplies_two {y : NodeId} {v' : α} (hx : g.Denotes I x v) (hy : g.Denotes I y v') :
    g.Supplies I [some x, some y] [v, v'] :=
  .cons ⟨x, rfl, hx⟩ (.cons ⟨y, rfl, hy⟩ .nil)

theorem Denotes.value (h : g.Denotes I id v) : g.value I id = some v :=
  eval_mono h (index_lt_of_eval h)

/-! ### Growing -/

/-- The nodes stay, and those that compute keep their operands. -/
structure Retains (g g' : Graph) : Prop where
  node : ∀ x n, g.node? x = some n → ∃ n', g'.node? x = some n' ∧ n'.op = n.op ∧
    (n.op.isFrozen = true → n'.slots .inputs = n.slots .inputs)
  alive : ∀ x op, g.op? x = some op → op.isFrozen = true → g.isAlive x = true → g'.isAlive x = true

namespace Retains

theorem refl (g : Graph) : Retains g g := ⟨fun _ n hn => ⟨n, hn, rfl, fun _ => rfl⟩, fun _ _ _ _ => id⟩

theorem op? (h : Retains g g') (hx : g.op? x = some op) : g'.op? x = some op := by
  obtain ⟨n, hn, rfl⟩ := Option.map_eq_some_iff.1 hx
  obtain ⟨n', hn', hop, -⟩ := h.node x n hn
  rw [op?_of_node? hn', hop]

theorem trans (h : Retains g g') (h' : Retains g' g'') : Retains g g'' := by
  refine ⟨fun x n hn => ?_, fun x op hop hf ha => h'.alive x op (h.op? hop) hf (h.alive x op hop hf ha)⟩
  obtain ⟨n', hn', hop, hin⟩ := h.node x n hn
  obtain ⟨n'', hn'', hop', hin'⟩ := h'.node x n' hn'
  exact ⟨n'', hn'', hop'.trans hop, fun hf => (hin' (hop ▸ hf)).trans (hin hf)⟩

theorem eval (h : Retains g g') (hv : g.eval I k id = some v) : g'.eval I k id = some v := by
  induction k generalizing id v with
  | zero => cases hv
  | succ k ih =>
    obtain ⟨n, vs, hn, hvs, hv⟩ := eval_succ.1 hv
    obtain ⟨n', hn', hop, hin⟩ := h.node id n hn
    refine eval_succ.2 ⟨n', vs, hn', ?_, hop ▸ hv⟩
    rw [hin (Interpretation.isFrozen_of_apply hv)]
    exact hvs.imp fun t _ v ht => ih ht

theorem denotes (h : Retains g g') (hv : g.Denotes I id v) : g'.Denotes I id v := h.eval hv

end Retains

theorem retains_of_node? (hnode : ∀ x, (g.node? x).isSome → g'.node? x = g.node? x)
    (halive : ∀ x, g.isAlive x → g'.isAlive x) : Retains g g' :=
  ⟨fun x n hn => ⟨n, by rw [hnode x (by simp [hn]), hn], rfl, fun _ => rfl⟩, fun x _ _ _ => halive x⟩

theorem Forgets.retains (h : Forgets g g') : Retains g g' :=
  retains_of_node? (fun x _ => h.node? x) fun x hx => (h.isAlive x).trans hx

theorem Adds.retains (h : Adds g g' id n) : Retains g g' := by
  have hfresh : g.node? id = none := by
    rw [Graph.node?, get?_eq_none_of_bound_le (Nat.le_of_eq h.fresh.symm)]
    rfl
  refine retains_of_node? (fun x hx => ?_) fun x hx => ?_
  · rw [h.node?, if_neg]
    rintro rfl
    simp [hfresh] at hx
  · rw [h.isAlive]
    split
    · rfl
    · exact hx

theorem Rewires.retains (h : Rewires g g' id d n n' old new) (he : n.Edit n' d field old new)
    (hd : d = .successors ∨ n.op.isFrozen = false) : Retains g g' := by
  refine ⟨fun x m hm => ?_, fun x _ _ _ hx => (h.isAlive x).trans hx⟩
  rw [h.node?]
  split
  · subst_vars
    obtain rfl : n = m := Option.mem_unique h.node hm
    refine ⟨n', rfl, he.op, fun hf => ?_⟩
    rcases hd with rfl | hd
    · simp only [Node.slots, he.other .inputs (by decide)]
    · simp [hd] at hf
  · exact ⟨m, hm, rfl, fun _ => rfl⟩

theorem Deletes.retains (h : Deletes g g' id n) (hn : n.op.isFrozen = false) : Retains g g' := by
  refine ⟨fun x m hm => ?_, fun x op hop hf hx => ?_⟩
  · rw [h.node?]
    split
    · subst_vars
      obtain rfl : n = m := Option.mem_unique h.node hm
      exact ⟨_, rfl, by simp [Node.clear], by simp [hn]⟩
    · exact ⟨m, hm, rfl, fun _ => rfl⟩
  · rw [h.isAlive, if_neg]
    · exact hx
    · rintro rfl
      rw [op?_of_node? h.node, Option.some.injEq] at hop
      rw [hop, hf] at hn
      cases hn

/-! ### Graphs that only compute -/

/-- The graph computes without branching, and has no return but `r`. -/
structure Linear (r : Option NodeId) (g : Graph) : Prop where
  packed : g.Packed
  listed : ∀ c, ∀ x ∈ g.idsOf c, g.cls? x = some c
  ops : ∀ x op, g.op? x = some op → op.isLinear = true
  /-- Operands are registered before the nodes that use them. -/
  before : ∀ x n, g.node? x = some n → n.op.isFrozen = true → ∀ t, some t ∈ n.slots .inputs →
    t.index < x.index
  leaf : ∀ x n, g.node? x = some n → n.op.isLeaf = true → n.op.isFrozen = true → n.slots .inputs = []
  returns : ∀ x, g.op? x = some .methodReturn → r = some x

/-- The graph still only computes, and retains its nodes. -/
structure Persists (r : Option NodeId) (g g' : Graph) : Prop where
  linear : g'.Linear r
  retains : Retains g g'

theorem Linear.persists (hg : g.Linear r) : Persists r g g := ⟨hg, .refl g⟩

theorem Persists.trans (h : Persists r g g') (h' : Persists r g' g'') : Persists r g g'' :=
  ⟨h'.linear, h.retains.trans h'.retains⟩

/-- A step that registers nothing. -/
theorem Retains.persists (h : Retains g g') (hg : g.Linear r) (hpacked : g'.Packed)
    (hids : ∀ c, g'.idsOf c = g.idsOf c) (hback : ∀ x, (g'.node? x).isSome = (g.node? x).isSome) :
    Persists r g g' := by
  have hnode (x : NodeId) (n' : Node) (hn' : g'.node? x = some n') : ∃ n, g.node? x = some n ∧ n'.op = n.op ∧
      (n.op.isFrozen → n'.slots .inputs = n.slots .inputs) := by
    obtain ⟨n, hn⟩ := Option.isSome_iff_exists.1 (hback x ▸ Option.isSome_of_mem hn')
    obtain ⟨n'', hn'', hop, hin⟩ := h.node x n hn
    obtain rfl : n'' = n' := Option.mem_unique hn'' hn'
    exact ⟨n, hn, hop, hin⟩
  have hop (x : NodeId) (op : Op) (hx : g'.op? x = some op) : g.op? x = some op := by
    obtain ⟨n', hn', rfl⟩ := Option.map_eq_some_iff.1 hx
    obtain ⟨n, hn, hop, -⟩ := hnode x n' hn'
    rw [op?_of_node? hn, hop]
  refine ⟨⟨hpacked, fun c x hx => ?_, fun x op hx => hg.ops x op (hop x op hx), fun x n' hn' hf t ht => ?_,
    fun x n' hn' hleaf hf => ?_, fun x hx => hg.returns x (hop x _ hx)⟩, h⟩
  · rw [hids] at hx
    obtain ⟨op, hop, rfl⟩ := Option.map_eq_some_iff.1 ((cls?_eq_map_op? g x).symm.trans (hg.listed c x hx))
    exact cls?_of_op? (h.op? hop)
  · obtain ⟨n, hn, hop, hin⟩ := hnode x n' hn'
    rw [hop] at hf
    rw [hin hf] at ht
    exact hg.before x n hn hf t ht
  · obtain ⟨n, hn, hop, hin⟩ := hnode x n' hn'
    rw [hop] at hf hleaf
    rw [hin hf]
    exact hg.leaf x n hn hleaf hf

theorem Forgets.persists (h : Forgets g g') (hg : g.Linear r) : Persists r g g' :=
  h.retains.persists hg (h.packed hg.packed) h.idsOf fun x => by rw [h.node?]

theorem Rewires.persists (h : Rewires g g' id d n n' old new) (he : n.Edit n' d field old new)
    (hd : d = .successors ∨ n.op.isFrozen = false) (hg : g.Linear r) : Persists r g g' :=
  (h.retains he hd).persists hg h.packed h.keeps.idsOf fun x => by rw [h.node?, isSome_ite_node? h.node]

theorem Deletes.persists (h : Deletes g g' id n) (hn : n.op.isFrozen = false) (hg : g.Linear r) :
    Persists r g g' :=
  (h.retains hn).persists hg h.packed h.keeps.idsOf fun x => by rw [h.node?, isSome_ite_node? h.node]

/-- A new node of a graph that only computes; a return only if there is none yet. -/
theorem Adds.linear (h : Adds g g' id n) (hg : g.Linear r) (hop : n.op.isLinear)
    (hleaf : n.op.isLeaf → n.op.isFrozen → n.slots .inputs = [])
    (hr : n.op = .methodReturn → r = none) :
    g'.Linear (if n.op = .methodReturn then some id else r) := by
  refine ⟨h.packed, fun c x hx => ?_, fun x op hx => ?_, fun x m hm hf t ht => ?_, fun x m hm hl hf => ?_,
    fun x hx => ?_⟩
  · obtain ⟨kept, hkept, hids⟩ := h.idsOf
    rw [h.cls?]
    rw [hids] at hx
    have hcls (hc : x ∈ g.idsOf c) : (if x = id then some n.cls else g.cls? x) = some c := by
      have hc := hg.listed c x hc
      rw [if_neg, hc]
      rintro rfl
      rw [h.cls?_fresh] at hc
      cases hc
    split at hx
    · rename_i hc
      rcases List.mem_append.1 hx with hx | hx
      · refine hcls ?_
        rw [hc]
        rcases hkept with rfl | rfl
        · exact hx
        · exact (List.mem_filter.1 hx).1
      · rw [List.mem_singleton.1 hx, if_pos rfl, hc]
    · exact hcls hx
  · rw [h.op?] at hx
    split at hx
    · exact Option.some.inj hx ▸ hop
    · exact hg.ops x op hx
  · rw [h.node?] at hm
    split at hm
    · obtain rfl := Option.some.inj hm
      subst_vars
      have ha := h.alive .inputs t (List.count_pos_iff.2 ht)
      rw [h.fresh]
      exact index_lt_of_isAlive ha
    · exact hg.before x m hm hf t ht
  · rw [h.node?] at hm
    split at hm
    · obtain rfl := Option.some.inj hm
      exact hleaf hl hf
    · exact hg.leaf x m hm hl hf
  · rw [h.op?] at hx
    split at hx
    · rw [if_pos (Option.some.inj hx)]
      subst_vars
      rfl
    · have hx := hg.returns x hx
      rw [if_neg, hx]
      intro hreturn
      rw [hr hreturn] at hx
      cases hx

/-! ### Sharing -/

/-- A node that is found or newly added has the value of its operation. -/
theorem Shares.denotes (h : Shares g g' id n) (hg : g.Linear r)
    (hvs : g.Supplies I (n.slots .inputs) vs)
    (hv : I.apply n.op vs = some v) : g'.Denotes I id v := by
  have hoperands {m : Nat} {g1 : Graph} (hg1 : Retains g g1)
      (hbefore : ∀ t v, some t ∈ n.slots .inputs → g.Denotes I t v → t.index < m) :
      Operands (g1.eval I m) (n.slots .inputs) vs := by
    refine List.forall₂_iff_get.2 ⟨hvs.length_eq, fun i hi hi' => ?_⟩
    obtain ⟨t, ht, hden⟩ := (List.forall₂_iff_get.1 hvs).2 i hi hi'
    rw [ht]
    exact eval_mono (hg1.eval hden) (hbefore t _ (ht ▸ List.get_mem ..) hden)
  cases h with
  | added h =>
    refine eval_succ.2 ⟨n, vs, by rw [h.node?, if_pos rfl], hoperands h.retains fun t v _ ht => ?_, hv⟩
    rw [h.fresh]
    exact index_lt_of_eval ht
  | found same found =>
    obtain ⟨m, hm, hop, hfound⟩ := found
    have hfrozen : m.op.isFrozen := hop ▸ Interpretation.isFrozen_of_apply hv
    have hslots : m.slots .inputs = n.slots .inputs := by
      rcases hfound with ⟨hleaf, -⟩ | ⟨hsame, -⟩
      · have hvs := hvs.length_eq
        rw [Interpretation.eq_nil_of_apply hv hleaf] at hvs
        rw [hg.leaf id m hm (hop ▸ hleaf) hfrozen, List.eq_nil_of_length_eq_zero hvs]
      · simp only [Node.sameStructure, Node.sameSlots, Bool.and_eq_true, beq_iff_eq] at hsame
        exact hsame.1.2
    refine eval_succ.2 ⟨m, vs, by rw [same.node?, hm], ?_, hop ▸ hv⟩
    rw [hslots]
    exact hoperands same.retains fun t v ht _ => hg.before id m hm hfrozen t (hslots ▸ ht)

/-- Asking for a node of an operation that computes. -/
theorem Linear.meets_intern (hg : g.Linear r) (hvs : g.Supplies I (n.slots .inputs) vs)
    (hv : I.apply n.op vs = some v) :
    Ensures (intern n) g (fun id g' => g'.Denotes I id v ∧ Persists r g g') := by
  obtain ⟨hnumbered, hreturn⟩ := Interpretation.isValueNumberable_of_apply hv
  refine (Graph.meets_intern hg.packed hnumbered).ensures fun id g' h => ?_
  have hid := h.denotes hg hvs hv
  cases h with
  | found same _ => exact ⟨hid, same.persists hg⟩
  | added h =>
    have hfrozen := Interpretation.isFrozen_of_apply hv
    have hlinear := h.linear hg (by simp [Op.isLinear, hfrozen])
      (fun hleaf _ => List.eq_nil_of_length_eq_zero
        (by rw [hvs.length_eq, Interpretation.eq_nil_of_apply hv hleaf]; rfl))
      fun hr => absurd hr hreturn
    rw [if_neg hreturn] at hlinear
    exact ⟨hid, hlinear, h.retains⟩

end Graph

end SeaOfNodes
