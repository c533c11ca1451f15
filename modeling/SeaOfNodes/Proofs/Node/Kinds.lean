import SeaOfNodes.Method
import SeaOfNodes.Proofs.Node.Links

/-!
# The kinds of operands

An operation says what kinds its operands have on the stack: arithmetic takes its own kind, memory
takes objects and indices, a return takes what its method returns. Two things are not written in the
operation: the kind of the operands of a comparison, which is one and the same, and the kinds of the
arguments of a call, which are those of a method that the pool knows.
-/

namespace SeaOfNodes

/-- The method that a graph is made of. -/
class Source where
  method : Method

/-- The operator takes a distance as its second operand. -/
def ArithOp.isShift : ArithOp → Bool
  | .shl | .shr | .ushr => true
  | _ => false

/-- The kind that the operands in a field are to have, in a method with the given result. -/
def Op.operandKind? (result : Kind) : Op → (field : Nat) → Option Kind
  | .phi kind, 1 | .proxy kind, 0 | .negate kind, 0 | .binary _ kind, 0 => some kind
  | .binary op kind, 1 => some (if op.isShift then .int else kind)
  | .normalizeCompare kind _, 0 | .normalizeCompare kind _, 1 => some kind
  | .convert source _, 0 => some source.onStack
  | .loadIndexed _, 0 | .storeIndexed _, 0 | .arrayLength, 0 => some .object
  | .loadIndexed _, 1 | .storeIndexed _, 1 | .switch .., 0 => some .int
  | .loadField .., 0 | .storeField .., 0 => some .object
  | .storeIndexed kind, 2 | .storeField _ kind _, 1 => some kind.onStack
  | .checkCast _, 0 | .instanceOf _, 0 | .isNull, 0 | .unwind, 0 => some .object
  | .methodReturn, 0 => some result.onStack
  | _, _ => none

/-- A node has a value of a kind on the stack. -/
def OfKind (op? : NodeId → Option Op) (t : NodeId) (kind : Kind) : Prop :=
  ∃ op, op? t = some op ∧ op.valueKind.onStack = kind

/-- A method of the pool is called `target` and takes arguments of the given kinds: the receiver, if
the call has one, and the parameters. -/
def Method.Calls (m : Method) (target : String) (result : Kind) (kinds : List Kind) : Prop :=
  ∃ (index : Nat) (callee : MethodRef) (signature : Signature) (receiver : Bool),
    m.pool.method index = .ok callee ∧ callee.signature = .ok signature ∧
      target = callee.qualifiedName ∧ result = signature.result ∧
      kinds = ((if receiver then [Kind.object] else []) ++ signature.parameters).map Kind.onStack

namespace Node

variable {m : Method} {op? op?' : NodeId → Option Op} {n n' : Node} {x y t : NodeId} {d : Direction}
  {field : Nat} {old new : Option NodeId} {kind : Kind}

/-- The operands of a node of a method are of the kinds that the node takes. -/
structure Typed (m : Method) (op? : NodeId → Option Op) (n : Node) : Prop where
  operands : ∀ field kind, n.op.operandKind? m.result field = some kind →
    ∀ t, some t ∈ n.slotsAt .inputs field → OfKind op? t kind
  compare : n.cls = .compare → ∃ kind, ∀ field t, some t ∈ n.slotsAt .inputs field → OfKind op? t kind
  invoke : ∀ target result, n.op = .invoke target result → ∃ kinds, m.Calls target result kinds ∧
    ∀ (index : Nat) t, (n.slotsAt .inputs 0)[index]? = some (some t) →
      ∃ kind, kinds[index]? = some kind ∧ OfKind op? t kind

theorem Typed.mono (h : n.Typed m op?) (hop : ∀ t op, op? t = some op → op?' t = some op) :
    n.Typed m op?' := by
  have hkind {t : NodeId} {kind : Kind} : OfKind op? t kind → OfKind op?' t kind :=
    fun ⟨op, ho, hk⟩ => ⟨op, hop t op ho, hk⟩
  refine ⟨fun field kind hf t ht => hkind (h.operands field kind hf t ht), fun hc => ?_,
    fun target result hi => ?_⟩
  · obtain ⟨kind, hall⟩ := h.compare hc
    exact ⟨kind, fun field t ht => hkind (hall field t ht)⟩
  · obtain ⟨kinds, hcalls, hall⟩ := h.invoke target result hi
    refine ⟨kinds, hcalls, fun index t ht => ?_⟩
    obtain ⟨kind, hk, ho⟩ := hall index t ht
    exact ⟨kind, hk, hkind ho⟩

/-! ### Writing operands -/

/-- A node may be written into a field: in exchange for one of the same kind, into a field that holds
no operand, or as one more value of a phi. -/
inductive Suits (m : Method) (op? : NodeId → Option Op) (n : Node) (field : Nat) (old : Option NodeId)
    (t : NodeId) : Prop
  | exchange (o : NodeId) (old_eq : old = some o) (kind : ∀ kind, OfKind op? o kind → OfKind op? t kind)
  | link (operand : n.op.operandKind? m.result field = none) (compare : n.cls ≠ .compare)
    (invoke : n.cls = .invoke → field ≠ 0)
  | value (kind : Kind) (op_eq : n.op = .phi kind) (kind_eq : OfKind op? t kind)

/-- Where a node stood before, or what was written there. -/
theorem Edit.getElem?_slotsAt (h : n.Edit n' .inputs field old new) (hnew : new ≠ none) {j i : Nat}
    (hx : (n'.slotsAt .inputs j)[i]? = some (some t)) :
    (n.slotsAt .inputs j)[i]? = some (some t) ∨ j = field ∧ new = some t ∧
      ((n.slotsAt .inputs j)[i]? = none ∨ (n.slotsAt .inputs j)[i]? = some old) := by
  by_cases hj : j = field
  · subst hj
    rcases h.swaps.place i with hsame | ⟨heq, hold⟩ | hnone
    · exact .inl (hsame ▸ hx)
    · exact .inr ⟨rfl, Option.mem_unique heq hx, hold⟩
    · exact absurd hnone hnew
  · rw [h.slotsAt_elsewhere hj] at hx
    exact .inl hx

/-- Writing a node that suits its field keeps the operands of a node typed. -/
theorem Edit.typed (h : n.Edit n' d field old new) (ht : n.Typed m op?)
    (hnew : d = .inputs → ∀ t, new = some t → Suits m op? n field old t)
    (hnone : d = .inputs → new = none → n.cls ≠ .invoke) : n'.Typed m op? := by
  cases d with
  | successors =>
    have hslots (j : Nat) := h.slotsAt_other .inputs (by decide) j
    refine ⟨fun j kind hj t => ?_, fun hc => ?_, fun target result hi => ?_⟩
    · rw [hslots]
      exact ht.operands j kind (h.op ▸ hj) t
    · simp only [hslots]
      exact ht.compare (h.cls ▸ hc)
    · simp only [hslots]
      exact ht.invoke target result (h.op ▸ hi)
  | inputs =>
    replace hnew := hnew rfl
    replace hnone := hnone rfl
    refine ⟨fun j kind hj t hmem => ?_, fun hc => ?_, fun target result hi => ?_⟩
    · rw [h.op] at hj
      rcases h.mem_slotsAt hmem with ⟨rfl, rfl⟩ | hmem
      · cases hnew t rfl with
        | exchange o old_eq hk => exact hk kind (ht.operands j kind hj o (h.swaps.old_mem o old_eq))
        | link operand => rw [operand] at hj; cases hj
        | value kind' op_eq hk =>
          obtain rfl : kind' = kind := by
            rw [op_eq] at hj
            unfold Op.operandKind? at hj
            split at hj <;> simp_all
          exact hk
      · exact ht.operands j kind hj t hmem
    · rw [h.cls] at hc
      obtain ⟨kind, hall⟩ := ht.compare hc
      refine ⟨kind, fun j t hmem => ?_⟩
      rcases h.mem_slotsAt hmem with ⟨rfl, rfl⟩ | hmem
      · cases hnew t rfl with
        | exchange o old_eq hk => exact hk kind (hall j o (h.swaps.old_mem o old_eq))
        | link _ hne => exact absurd hc hne
        | value kind' op_eq => rw [Node.cls, op_eq] at hc; cases hc
      · exact hall j t hmem
    · rw [h.op] at hi
      have hinvoke : n.cls = .invoke := congrArg Op.cls hi
      obtain ⟨kinds, hcalls, hall⟩ := ht.invoke target result hi
      refine ⟨kinds, hcalls, fun index t hget => ?_⟩
      rcases h.getElem?_slotsAt (fun he => hnone he hinvoke) hget with hget | ⟨rfl, rfl, hold⟩
      · exact hall index t hget
      · cases hnew t rfl with
        | exchange o old_eq hk =>
          subst old_eq
          -- a node of the list is exchanged, so that the list gets no longer
          have hlen : (n'.slotsAt .inputs 0).length = (n.slotsAt .inputs 0).length := by
            simpa using h.swaps.length
          have hlt := (List.getElem?_eq_some_iff.1 hget).1
          rcases hold with hnil | hold
          · rw [List.getElem?_eq_none_iff] at hnil
            omega
          · obtain ⟨kind, hk', ho⟩ := hall index o hold
            exact ⟨kind, hk', hk kind ho⟩
        | link _ _ hne => exact absurd rfl (hne hinvoke)
        | value kind' op_eq => rw [hi] at op_eq; cases op_eq

/-! ### New nodes -/

theorem typed_of_operands (hc : n.cls ≠ .compare) (hi : n.cls ≠ .invoke)
    (h : ∀ field kind, n.op.operandKind? m.result field = some kind →
      ∀ t, some t ∈ n.slotsAt .inputs field → OfKind op? t kind) : n.Typed m op? :=
  ⟨h, fun h => absurd h hc, fun _ _ h => absurd (congrArg Op.cls h) hi⟩

/-- A node without operands. -/
theorem typed_plain (hc : n.cls ≠ .compare) (hi : n.cls ≠ .invoke)
    (h : ∀ field, n.op.operandKind? m.result field = none) : n.Typed m op? :=
  typed_of_operands hc hi fun field kind hk => by rw [h] at hk; cases hk

/-- A node whose fields hold one operand each, or none. -/
theorem typed_ones {op : Op} (operands : List (Option NodeId)) (hc : op.cls ≠ .compare)
    (hi : op.cls ≠ .invoke)
    (h : ∀ p ∈ operands.zipIdx, ∀ t kind, p.1 = some t → op.operandKind? m.result p.2 = some kind →
      OfKind op? t kind) : (ofInputs op (operands.map .one)).Typed m op? := by
  refine typed_of_operands hc hi fun field kind hk t ht => ?_
  have hget : operands[field]? = some (some t) := by
    rw [slotsAt] at ht
    simp only [links, ofInputs, List.getElem?_map, Option.map_map] at ht
    cases hop : operands[field]? with
    | none => simp [hop] at ht
    | some x =>
      rw [hop] at ht
      rw [List.mem_singleton.1 ht]
  exact h (some t, field) (List.mem_zipIdx_iff_getElem?.2 hget) t kind rfl hk

theorem typed_compare {condition : Condition} (hx : OfKind op? x kind) (hy : OfKind op? y kind) :
    (Node.compare condition x y).Typed m op? := by
  refine ⟨fun field k hk => by simp [Node.compare, ofInputs, Op.operandKind?] at hk, fun _ => ⟨kind, ?_⟩,
    nofun⟩
  intro field t ht
  match field with
  | 0 =>
    obtain rfl : t = x := Option.some.inj (List.mem_singleton.1 ht)
    exact hx
  | 1 =>
    obtain rfl : t = y := Option.some.inj (List.mem_singleton.1 ht)
    exact hy
  | _ + 2 => cases ht

theorem typed_invoke {target : String} {kinds : List Kind} {arguments : List NodeId}
    (hcalls : m.Calls target kind kinds) (h : List.Forall₂ (OfKind op?) arguments kinds) :
    (Node.invoke target arguments kind).Typed m op? := by
  refine ⟨fun field k hk => by simp [Node.invoke, ofInputs, Op.operandKind?] at hk, nofun, ?_⟩
  rintro _ _ ⟨⟩
  refine ⟨kinds, hcalls, fun index t ht => ?_⟩
  replace ht : (arguments.map some)[index]? = some (some t) := ht
  rw [List.getElem?_map, Option.map_eq_some_iff] at ht
  obtain ⟨_, ht, ⟨⟩⟩ := ht
  obtain ⟨hlt, rfl⟩ := List.getElem?_eq_some_iff.1 ht
  have hlt' : index < kinds.length := h.length_eq ▸ hlt
  exact ⟨kinds[index], List.getElem?_eq_getElem hlt', List.forall₂_iff_get.1 h |>.2 index hlt hlt'⟩

end Node

end SeaOfNodes
