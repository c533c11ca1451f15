import SeaOfNodes.Proofs.Graph.Evolution
import SeaOfNodes.Proofs.Node.Shape

/-!
# Sharing nodes without inputs

A node without inputs is shared through what is remembered for its operation. Entries of deleted
nodes stay until they are looked up, and nodes of the same operation can be added past the memory.
None of that splits or merges what is asked for: over a whole run, asking for the same operation
gives the same node as long as that node is alive, and asking for another one gives another node.
-/

namespace SeaOfNodes.Graph

variable {g g' : Graph} {id : NodeId} {n : Node}

/-! ### Runs -/

/-- A step of a run: a call, or one of the operations that keep single books. -/
inductive Step
  | call (c : Call)
  | updateUsages (user : NodeId) (old new : Option NodeId)
  | updatePredecessor (user : NodeId) (old new : Option NodeId)
  | setStart (id : NodeId)
  | trackEvents
  | drainEvents

/-- What a step does. -/
def Step.run : Step → GraphM Unit
  | .call c => c.run
  | .updateUsages user old new => Graph.updateUsages user old new
  | .updatePredecessor user old new => Graph.updatePredecessor user old new
  | .setStart id => modify fun g => g.setStart id
  | .trackEvents => modify Graph.trackEvents
  | .drainEvents => modify Graph.drainEvents

/-- A step after another. -/
def Step.runAll : List Step → GraphM Unit
  | [] => pure ()
  | s :: rest => do
    s.run
    runAll rest

/-- Graphs that steps and copying lead to. -/
inductive Reachable : Graph → Prop
  | empty (name : String) : Reachable (empty name)
  | step {g g' : Graph} (s : Step) (hg : Reachable g) (hrun : s.run g = .ok ((), g')) : Reachable g'
  | copy {g g' : Graph} {map : Renaming} (hg : Reachable g)
      (hcopy : g.copyWithMap = .ok (g', map)) : Reachable g'

instance evolving_call (c : Call) : Evolving c.run := by
  cases c <;> dsimp only [Call.run, setInput, setSuccessor, setStateAfter, addForwardEnd, addPhiInput] <;>
    infer_instance

theorem evolves_of_entries (hg : g.Tidy) (hentries : g'.entries = g.entries) (hk : Keeps g g') :
    Evolves g g' := by
  have hget : g'.get? = g.get? := by
    funext x
    rw [get?, hentries, get?]
  refine .of_keeps hg (fun x e he => hg.packed x e (by rwa [hget] at he)) ?_ (fun x => ?_) hk
  · funext x
    rw [op?, node?, hget, op?, node?]
  · rw [isAlive, hget, isAlive]

theorem evolving_step (s : Step) : Evolving s.run := by
  -- changes that no view shows
  have books {f : Graph → Graph} (hentries : ∀ g, (f g).entries = g.entries)
      (hk : ∀ g, Keeps g (f g)) : Evolving (modify f : GraphM PUnit) :=
    .modify fun g hg => evolves_of_entries hg (hentries g) (hk g)
  cases s with
  | call c => exact evolving_call c
  | updateUsages user old new => exact inferInstanceAs (Evolving (Graph.updateUsages user old new))
  | updatePredecessor user old new => exact inferInstanceAs (Evolving (Graph.updatePredecessor user old new))
  | setStart id | trackEvents | drainEvents =>
    exact books (fun _ => rfl) fun _ => ⟨⟨rfl, rfl, fun _ => rfl, rfl⟩, rfl⟩

theorem evolving_runAll (steps : List Step) : Evolving (Step.runAll steps) := by
  induction steps with
  | nil => exact .pure ()
  | cons s rest ih => exact (evolving_step s).seq fun _ => ih

theorem tidy_of_copyWithMap {map : Renaming} (h : g.copyWithMap = .ok (g', map)) : g'.Tidy := by
  have hends : Ends g.copyWithMap (fun r => r.1.Tidy) (fun _ => True) := by
    unfold copyWithMap
    rw [ends_bind]
    cases g.snapshot g.nodes .empty with
    | error e => trivial
    | ok nodes =>
      have hcopy := evolving_iff.1 (evolving_duplicateNodes nodes .empty .oneToOne false) _
        (tidy_empty g.name)
      refine ends_bind.2 (Ends.mono hcopy (fun r hr => ?_) fun _ => id)
      have hstart : Evolves r.2 { r.2 with start := g.start.bind r.1.get? } :=
        evolves_of_entries hr.tidy rfl ⟨⟨rfl, rfl, fun _ => rfl, rfl⟩, rfl⟩
      exact hstart.tidy
  exact hends.of_ok h

theorem Reachable.tidy (h : Reachable g) : g.Tidy := by
  induction h with
  | empty name => exact tidy_empty name
  | step s _ hrun ih => exact ((evolving_iff.1 (evolving_step s) _ ih).of_ok hrun).tidy
  | copy _ hcopy _ => exact tidy_of_copyWithMap hcopy

/-! ### Asking twice -/

/-- Asking for an operation without inputs never fails. -/
theorem exists_intern_leaf (hg : g.Tidy) {op : Op} (hv : op.isValueNumberable)
    (hleaf : op.isLeaf) :
    ∃ id g', intern (.ofInputs op []) g = .ok (id, g') ∧ Evolves g g' ∧ g'.isAlive id ∧
      g'.leaves.lookup op = some id ∧
      ∀ x, g.leaves.lookup op = some x → g.isAlive x → id = x ∧ g' = g := by
  refine ((meets_intern_leaf (n := .ofInputs op []) hg hv hleaf).mono (fun _ _ => id) ?_).exists_ok
  rintro _ ⟨d, t, ht⟩
  have hnil : op.layout.inputs = [] := List.isEmpty_iff.1 hleaf
  have hshaped : (Node.ofInputs op []).Shaped := Node.shaped_ofInputs (by rw [hnil]; rfl)
  cases d with
  | inputs => simp [Node.uses, Node.slots, Node.links, Node.ofInputs, Links.slots] at ht
  | successors => simp [hshaped.uses_successors_eq_zero hv] at ht

/-- Sharing of nodes without inputs over a whole run. Whatever has been done before, asking for an
operation gives a live node of it. Whatever is done between two requests, the second gives another
node if it asks for another operation; if it asks for the same one and the first node is still
alive, it gives that node and changes nothing. -/
theorem leaf_sharing (hg : Reachable g) {k₁ k₂ : Op}
    (h₁ : k₁.isValueNumberable = true ∧ k₁.isLeaf = true)
    (h₂ : k₂.isValueNumberable = true ∧ k₂.isLeaf = true) :
    ∃ id₁ g₁, intern (.ofInputs k₁ []) g = .ok (id₁, g₁) ∧
      g₁.isAlive id₁ = true ∧ g₁.op? id₁ = some k₁ ∧
      ∀ steps g₂, Step.runAll steps g₁ = .ok ((), g₂) →
        ∃ id₂ g₃, intern (.ofInputs k₂ []) g₂ = .ok (id₂, g₃) ∧
          g₃.isAlive id₂ = true ∧ g₃.op? id₂ = some k₂ ∧
          (k₁ ≠ k₂ → id₁ ≠ id₂) ∧
          (k₁ = k₂ → g₂.isAlive id₁ = true → id₂ = id₁ ∧ g₃ = g₂) := by
  obtain ⟨id₁, g₁, hrun₁, hev₁, halive₁, hleaf₁, -⟩ := exists_intern_leaf hg.tidy h₁.1 h₁.2
  have hop₁ : g₁.op? id₁ = some k₁ := hev₁.tidy.op?_of_lookup hleaf₁
  refine ⟨id₁, g₁, hrun₁, halive₁, hop₁, fun steps g₂ hsteps => ?_⟩
  have hev₂ : Evolves g₁ g₂ := (evolving_iff.1 (evolving_runAll steps) g₁ hev₁.tidy).of_ok hsteps
  obtain ⟨id₂, g₃, hrun₂, hev₃, halive₂, hleaf₂, hsame⟩ :=
    exists_intern_leaf hev₂.tidy h₂.1 h₂.2
  have hop₂ : g₃.op? id₂ = some k₂ := hev₃.tidy.op?_of_lookup hleaf₂
  refine ⟨id₂, g₃, hrun₂, halive₂, hop₂, ?_, ?_⟩
  · rintro hne rfl
    -- the first node still has the first operation
    have hop : g₃.op? id₁ = some k₁ := hev₃.ops.ops id₁ k₁ (hev₂.ops.ops id₁ k₁ hop₁)
    exact hne (Option.some.inj (hop.symm.trans hop₂))
  · rintro rfl halive
    exact hsame id₁ (hev₂.leaf k₁ id₁ hleaf₁ halive) halive

/-- An equal constant is added past the memory and the shared one is asked for again. -/
theorem leaf_sharing_past : ∃ g₁ g₂, intern (.int 3) (empty "") = .ok (⟨0⟩, g₁) ∧
    Step.runAll [.call (.addFresh (.int 3)), .call (.intern (.int 4)), .call (.delete ⟨2⟩)] g₁ =
      .ok ((), g₂) ∧
    intern (.int 3) g₂ = .ok (⟨0⟩, g₂) := by
  obtain ⟨g₁, g₂, hrun₁, hrun₂, halive⟩ : ∃ g₁ g₂, intern (.int 3) (empty "") = .ok (⟨0⟩, g₁) ∧
      Step.runAll [.call (.addFresh (.int 3)), .call (.intern (.int 4)), .call (.delete ⟨2⟩)] g₁ =
        .ok ((), g₂) ∧ g₂.isAlive ⟨0⟩ = true := ⟨_, _, rfl, rfl, rfl⟩
  have hleaf : (Op.constant .int 3).isValueNumberable = true ∧ (Op.constant .int 3).isLeaf = true := by
    decide
  obtain ⟨id₁, _, hrun, -, -, hrest⟩ := leaf_sharing (.empty "") hleaf hleaf
  obtain ⟨rfl, rfl⟩ : (⟨0⟩, g₁) = (id₁, _) := Except.ok.inj (hrun₁.symm.trans hrun)
  obtain ⟨id₂, g₃, hrun₃, -, -, -, hsame⟩ := hrest _ g₂ hrun₂
  obtain ⟨rfl, rfl⟩ := hsame rfl halive
  exact ⟨_, g₃, hrun₁, hrun₂, hrun₃⟩

/-- The inputs of a node are dropped, and only their lost usages are recorded. -/
theorem clearInputs_unrecorded : ∃ g g', Step.runAll [.call (.intern (.parameter 0 .int)),
      .call (.intern (.negate .int ⟨0⟩)), .trackEvents] (empty "") = .ok ((), g) ∧
    (Call.clearInputs ⟨1⟩).run g = .ok ((), g') ∧ g'.isAlive ⟨1⟩ = true ∧
    g.uses .inputs ⟨1⟩ ⟨0⟩ = 1 ∧ g'.uses .inputs ⟨1⟩ ⟨0⟩ = 0 ∧ g'.recordedEvents = [.zeroUsages ⟨0⟩] :=
  ⟨_, _, rfl, rfl, rfl, rfl, rfl, rfl⟩

end SeaOfNodes.Graph
