import SeaOfNodes.Proofs.Graph.Operations
import SeaOfNodes.Proofs.Node.Shape

/-!
# The joints of a graph

Merges, loops and what hangs on them are tied together by inputs: phis to their merges, loop ends and
loop exits to their loops, proxies to exits, and exits to the frame states after them. `joint?` shows
of each live node what it has to do with that, and nothing of any other node. A change of the graph
that writes other edges, or makes other nodes, leaves the joints as they are.
-/

namespace SeaOfNodes

/-- A node that belongs to a merge or a loop, with the slots of its two fields. -/
structure Joint where
  op : Op
  first : List (Option NodeId)
  second : List (Option NodeId)

namespace Node

variable {n n' : Node} {d : Direction} {field : Nat} {old new : Option NodeId}
  {cls? : NodeId → Option NodeClass} {j : Joint}

/-- What a node has to do with merges and loops. The state after a merge does not matter. -/
def joint? (n : Node) : Option Joint :=
  match n.cls with
  | .phi | .proxy | .loopEnd | .loopExit | .frameState =>
    some ⟨n.op, n.slotsAt .inputs 0, n.slotsAt .inputs 1⟩
  | .merge | .loopBegin => some ⟨n.op, n.slotsAt .inputs 0, []⟩
  | _ => none

theorem op_of_joint? (h : n.joint? = some j) : n.op = j.op := by
  unfold joint? at h
  split at h <;> cases h <;> rfl

theorem first_of_joint? (h : n.joint? = some j) : j.first = n.slotsAt .inputs 0 := by
  unfold joint? at h
  split at h <;> cases h <;> rfl

theorem second_of_joint? (h : n.joint? = some j) :
    j.second = n.slotsAt .inputs 1 ∨ j.second = [] := by
  unfold joint? at h
  split at h <;> cases h <;> simp

theorem joint?_of_phi {kind : Kind} (hop : n.op = .phi kind) :
    n.joint? = some ⟨.phi kind, n.slotsAt .inputs 0, n.slotsAt .inputs 1⟩ := by
  rw [joint?, show n.cls = .phi from congrArg Op.cls hop, hop]

theorem joint?_congr (hop : n'.op = n.op)
    (hslots : ∀ j, n'.slotsAt .inputs j = n.slotsAt .inputs j) : n'.joint? = n.joint? := by
  have hcls : n'.cls = n.cls := congrArg Op.cls hop
  unfold joint?
  simp only [hop, hcls, hslots]

theorem Edit.joint?_of_successors (h : n.Edit n' .successors field old new) :
    n'.joint? = n.joint? :=
  joint?_congr h.op fun j => h.slotsAt_other .inputs (by decide) j

/-- The state after a node matters for loop exits only. -/
theorem Edit.joint?_of_state_after (h : n.Edit n' .inputs field old new)
    (hfield : n.layout.fieldIndex? .inputs "state_after" = some field) (hne : n.cls ≠ .loopExit) :
    n'.joint? = n.joint? := by
  have hcls : n'.cls = n.cls := congrArg Op.cls h.op
  have hslots (hzero : field ≠ 0) := h.slotsAt_elsewhere (Ne.symm hzero)
  have key : ∀ c : NodeClass, c.layout.fieldIndex? .inputs "state_after" = some field →
      c ≠ .loopExit → c = .merge ∧ field ≠ 0 ∨ c = .loopBegin ∧ field ≠ 0 ∨
        (match c with
          | .phi | .proxy | .loopEnd | .loopExit | .frameState | .merge | .loopBegin => false
          | _ => true) = true := by
    intro c hf hne
    cases c <;> first | exact .inr (.inr rfl) | cases hf <;> simp at hne ⊢
  unfold joint?
  rw [h.op, hcls]
  rcases key n.cls hfield hne with ⟨hc, hz⟩ | ⟨hc, hz⟩ | hc
  · rw [hc, hslots hz]
  · rw [hc, hslots hz]
  · split <;> simp_all

/-- Of the nodes that can be shared only proxies are joints. -/
theorem joint?_of_isValueNumberable (hv : n.op.isValueNumberable) (hc : n.cls ≠ .proxy) :
    n.joint? = none := by
  have hv : n.cls.has .valueNumberable := hv
  rw [joint?]
  revert hv hc
  cases n.cls <;> first | exact fun _ _ => rfl | exact fun h => absurd rfl h | exact nofun

/-- The links of a node have the shapes of its fields. -/
theorem Fits.isList_inputs (hf : n.Fits cls?) {c : NodeClass} (hc : n.cls = c) :
    n.inputs.map Link.isList = c.layout.inputs.map (·.shape == .list) := by
  rw [← hc]
  exact hf.shaped .inputs

/-- Links of known shapes. -/
theorem links_of_isList {links : List Link} :
    (links.map Link.isList = [false] → ∃ x, links = [.one x]) ∧
    (links.map Link.isList = [false, false] → ∃ x y, links = [.one x, .one y]) ∧
    (links.map Link.isList = [false, true] → ∃ x ys, links = [.one x, .many ys]) ∧
    (links.map Link.isList = [true, false] → ∃ xs y, links = [.many xs, .one y]) := by
  match links with
  | [] | [.one _] | [.many _] | [.one _, .one _] | [.one _, .many _] | [.many _, .one _]
  | [.many _, .many _] | _ :: _ :: _ :: _ => simp [Link.isList]

theorem op_of_phi (hc : n.cls = .phi) : ∃ kind, n.op = .phi kind := by
  cases hop : n.op <;> simp [cls, hop, Op.cls] at hc ⊢

theorem op_of_proxy (hc : n.cls = .proxy) : ∃ kind, n.op = .proxy kind := by
  cases hop : n.op <;> simp [cls, hop, Op.cls] at hc ⊢

theorem op_of_loopEnd (hc : n.cls = .loopEnd) : ∃ index, n.op = .loopEnd index := by
  cases hop : n.op <;> simp [cls, hop, Op.cls] at hc ⊢

theorem op_of_loopExit (hc : n.cls = .loopExit) : n.op = .loopExit := by
  cases hop : n.op <;> simp [cls, hop, Op.cls] at hc ⊢

theorem Fits.inputs_of_phi (hf : n.Fits cls?) (hc : n.cls = .phi) :
    ∃ merge values, n.inputs = [.one merge, .many values] :=
  links_of_isList.2.2.1 (hf.isList_inputs hc)

theorem Fits.inputs_of_loopEnd (hf : n.Fits cls?) (hc : n.cls = .loopEnd) :
    ∃ loopBegin, n.inputs = [.one loopBegin] :=
  links_of_isList.1 (hf.isList_inputs hc)

theorem Fits.inputs_of_merge (hf : n.Fits cls?) (hc : n.cls = .merge ∨ n.cls = .loopBegin) :
    ∃ ends state, n.inputs = [.many ends, .one state] := by
  rcases hc with hc | hc <;> exact links_of_isList.2.2.2 (hf.isList_inputs hc)

theorem Fits.inputs_of_proxy (hf : n.Fits cls?) (hc : n.cls = .proxy) :
    ∃ value point, n.inputs = [.one value, .one point] :=
  links_of_isList.2.1 (hf.isList_inputs hc)

/-- Nodes that can be shared and have the same slots are the same joint, if they are one. -/
theorem joint?_eq_of_slots (hf' : n'.Fits cls?) (hf : n.Fits cls?) (hop : n'.op = n.op)
    (hv : n.op.isValueNumberable) (hs : n.cls = .proxy → n'.slots .inputs = n.slots .inputs) :
    n'.joint? = n.joint? := by
  have hcls : n'.cls = n.cls := congrArg Op.cls hop
  by_cases hc : n.cls = .proxy
  · obtain ⟨a, b, hn'⟩ := hf'.inputs_of_proxy (hcls.trans hc)
    obtain ⟨a', b', hn⟩ := hf.inputs_of_proxy hc
    have hslots : Links.slots n'.inputs = Links.slots n.inputs := hs hc
    rw [hn', hn] at hslots
    obtain ⟨rfl, rfl⟩ : a = a' ∧ b = b' := by simpa [Links.slots, Link.slots] using hslots
    refine joint?_congr hop fun j => ?_
    simp only [slotsAt, links, hn', hn]
  · rw [joint?_of_isValueNumberable hv hc,
      joint?_of_isValueNumberable (by rw [hop]; exact hv) (by rw [hcls]; exact hc)]

end Node

namespace Graph

variable {g g' : Graph} {id x t : NodeId} {n n' : Node} {d : Direction} {field : Nat}
  {old new : Option NodeId}

/-- What a live node has to do with merges and loops. -/
def joint? (g : Graph) (x : NodeId) : Option Joint :=
  if g.isAlive x then (g.node? x).bind Node.joint? else none

theorem joint?_of_node? (hn : g.node? id = some n) (ha : g.isAlive id) :
    g.joint? id = n.joint? := by
  rw [joint?, if_pos ha, hn]
  rfl

theorem Forgets.joint? (h : Forgets g g') : g'.joint? = g.joint? := by
  funext x
  rw [Graph.joint?, h.node?, h.isAlive, Graph.joint?]

theorem Adds.joint? (h : Adds g g' id n) : g'.joint? = Function.update g.joint? id n.joint? := by
  funext x
  rw [Graph.joint?, h.node?, h.isAlive, Function.update_apply, Graph.joint?]
  split <;> rfl

theorem Rewires.joint? (h : Rewires g g' id d n n' old new) (ha : g.isAlive id) :
    g'.joint? = Function.update g.joint? id n'.joint? := by
  funext x
  rw [Graph.joint?, h.node?, h.isAlive, Function.update_apply, Graph.joint?]
  by_cases hx : x = id
  · rw [if_pos hx, if_pos hx, hx, if_pos ha]
    rfl
  · rw [if_neg hx, if_neg hx]

/-- Writing an edge that is no joint leaves the joints as they are. -/
theorem Rewires.joint?_eq (h : Rewires g g' id d n n' old new) (hj : n'.joint? = n.joint?) :
    g'.joint? = g.joint? := by
  funext x
  rw [Graph.joint?, h.node?, h.isAlive, Graph.joint?]
  split
  · split
    · subst_vars
      rw [h.node]
      exact hj
    · rfl
  · rfl

theorem Deletes.joint? (h : Deletes g g' id n) : g'.joint? = Function.update g.joint? id none := by
  funext x
  rw [Graph.joint?, h.node?, h.isAlive, Function.update_apply, Graph.joint?]
  split <;> rfl

end Graph

end SeaOfNodes
