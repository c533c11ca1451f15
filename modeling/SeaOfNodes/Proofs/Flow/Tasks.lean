import SeaOfNodes.Proofs.Flow.Likeness

/-!
# Inlining without fuel

`Runs` is the fuel-free account of inlining: one task after the other is performed, and each may leave
further tasks to be done next. It tells the state in which inlining ends also when it bails out, which the
walk itself does not. `Performs` says that a part of the walk comes to what such a run comes to.
-/

namespace SeaOfNodes.Flow.Inlining

variable {blockAt : Array (Option BlockId)} {s s' s1 : Inlining} {id : BlockId} {n : Nat}

/-- Something that inlining has to do. -/
inductive Task
  /-- Deal with a block, unless that was done before. -/
  | visit (id : BlockId)
  /-- Lead one successor of a block to its copy. -/
  | retarget (id : BlockId) (place : Nat)
  /-- Go on to the successors of a block. -/
  | follow (id : BlockId)

/-- Perform a task. The result is what has to be done next. -/
def Task.perform (blockAt : Array (Option BlockId)) : Task → InlineM (List Task)
  | .visit id => do
    if (← get).visited.contains id.index then return []
    return (← enter blockAt id).map (.retarget id) ++ [.follow id]
  | .retarget id place => do
    Inlining.retarget id place
    return []
  | .follow id => return (← block id).successors.map .visit

/-- The tasks are performed one after the other until nothing is left to do, or until one bails out. A task
bails out before it makes a copy, so that no copy is missing from the state before it. -/
inductive Runs (blockAt : Array (Option BlockId)) :
    List Task → Inlining → Inlining → Except Bailout Unit → Prop
  | done {s : Inlining} : Runs blockAt [] s s (.ok ())
  | bail {task : Task} {tasks : List Task} {s : Inlining} {e : Bailout}
    (h : task.perform blockAt s = .error e) : Runs blockAt (task :: tasks) s s (.error e)
  | step {task : Task} {tasks next : List Task} {s s1 s' : Inlining} {r : Except Bailout Unit}
    (h : task.perform blockAt s = .ok (next, s1)) (hruns : Runs blockAt (next ++ tasks) s1 s' r) :
    Runs blockAt (task :: tasks) s s' r

theorem Runs.append {tasks tasks' : List Task} {r r' : Except Bailout Unit} (h : Runs blockAt tasks s s1 r)
    (hok : r = .ok () → Runs blockAt tasks' s1 s' r')
    (herror : ∀ e, r = .error e → s' = s1 ∧ r' = .error e) : Runs blockAt (tasks ++ tasks') s s' r' := by
  induction h with
  | done => exact hok rfl
  | bail h =>
    obtain ⟨rfl, rfl⟩ := herror _ rfl
    exact .bail h
  | step h _ ih =>
    refine .step h ?_
    have := ih hok herror
    rwa [List.append_assoc] at this

/-! ### Copies -/

/-- The blocks from the `n`-th on are in subroutines. -/
structure Cloned (n : Nat) (s : Inlining) : Prop where
  size : n ≤ s.blocks.size
  scope : ∀ x : BlockId, n ≤ x.index → x.index < s.blocks.size → (s.blocks.block x).scope ≠ .empty

theorem Cloned.modify (h : Cloned n s) {f : Block → Block} (hf : ∀ b, (f b).scope = b.scope) :
    Cloned n { s with blocks := s.blocks.modify id f } := by
  have hsize : Arena.size (s.blocks.modify id f) = s.blocks.size := Blocks.size_modify
  refine ⟨hsize.symm ▸ h.size, fun x hx hlt => ?_⟩
  have hscope : (Blocks.block (s.blocks.modify id f) x).scope = (s.blocks.block x).scope := by
    rw [Blocks.block_modify]
    split
    · exact hf _
    · rfl
  rw [hscope]
  exact h.scope x hx (hsize ▸ hlt)

theorem Cloned.copied {y x : BlockId} {τ : Scope} (h : Cloned n s) (hne : τ ≠ .empty)
    (hc : Copied s y τ x s') : Cloned n s' := by
  cases hc with
  | known _ => exact h
  | made _ =>
    refine ⟨h.size.trans (by simp), fun z hz hlt => ?_⟩
    rcases lt_or_eq_next hlt with hlt | rfl
    · rw [block_push_of_lt hlt]
      exact h.scope z hz hlt
    · rwa [block_push_next]

theorem Cloned.meets_perform (h : Cloned n s) (task : Task) :
    Ensures (task.perform blockAt) s (fun _ s' => Cloned n s') := by
  cases task with
  | visit id =>
    refine meets_read.2 ?_
    split
    · exact meets_pure.2 h
    · refine (meets_enter ⟨h.size, h.scope⟩ fun s h _ => ?_).bind fun _ _ h => meets_pure.2 h
      refine (meets_addContinuation blockAt id _).ensures ?_
      rintro _ _ ⟨-, target, -, rfl⟩
      exact h.modify fun _ => rfl
  | retarget id place =>
    refine Meets.bind ((meets_retarget id place).ensures fun _ _ h => h) fun _ s' hr => meets_pure.2 ?_
    cases hr with
    | missing _ | outside _ _ => exact h
    | inside _ _ hne hcopied => exact (h.copied hne hcopied).modify fun _ => rfl
  | follow id => exact meets_observe.2 (meets_pure.2 h)

/-- All that is copied is copied into subroutines. -/
theorem Runs.cloned {tasks : List Task} {r : Except Bailout Unit} (h : Runs blockAt tasks s s' r)
    (hs : Cloned n s) : Cloned n s' := by
  induction h with
  | done | bail _ => exact hs
  | @step task _ _ _ _ _ _ h _ ih =>
    have hnext : Meets (task.perform blockAt) _ _ _ := hs.meets_perform task
    rw [Meets, h] at hnext
    exact ih hnext

/-! ### Parts of the walk -/

/-- The action comes to what a run of the tasks comes to, with the result `a` unless it bails out. -/
def Performs {α : Type} (blockAt : Array (Option BlockId)) (tasks : List Task) (act : InlineM α) (a : α)
    (s : Inlining) (post : Inlining → Prop) : Prop :=
  ∃ s' r, Runs blockAt tasks s s' r ∧ act s = r.map (fun _ => (a, s')) ∧ (r = .ok () → post s')

/-- Successors of a block are redirected one after the other. -/
abbrev retargetAll (id : BlockId) (places : List Nat) : InlineM PUnit :=
  forIn places PUnit.unit fun place _ => do
    retarget id place
    pure (.yield PUnit.unit)

namespace Performs

variable {α β : Type} {tasks tasks' : List Task} {act : InlineM α} {a : α} {b : β}
  {post post' : Inlining → Prop}

theorem pure (h : post s) : Performs blockAt [] (Pure.pure a) a s post :=
  ⟨s, .ok (), .done, rfl, fun _ => h⟩

theorem bind {f : α → InlineM β} (h : Performs blockAt tasks act a s post)
    (hf : ∀ s1, post s1 → Performs blockAt tasks' (f a) b s1 post') :
    Performs blockAt (tasks ++ tasks') (act >>= f) b s post' := by
  obtain ⟨s1, r, hruns, hact, hpost⟩ := h
  cases r with
  | error e =>
    refine ⟨s1, .error e, hruns.append nofun fun e' he => ⟨rfl, he⟩, ?_, nofun⟩
    show act s >>= _ = _
    rw [hact]
    rfl
  | ok =>
    obtain ⟨s', r', hruns', hact', hpost'⟩ := hf s1 (hpost rfl)
    refine ⟨s', r', hruns.append (fun _ => hruns') nofun, ?_, hpost'⟩
    show act s >>= _ = _
    rw [hact]
    exact hact'

theorem bind_pure (h : Performs blockAt tasks act a s post) (hpost : ∀ s', post s' → post' s') :
    Performs blockAt tasks (act >>= fun _ => Pure.pure b) b s post' := by
  rw [← List.append_nil tasks]
  exact h.bind fun s1 h1 => .pure (hpost s1 h1)

theorem get_bind {f : Inlining → InlineM α} (h : Performs blockAt tasks (f s) a s post) :
    Performs blockAt tasks (get >>= f) a s post := h

theorem and_meets (h : Performs blockAt tasks act a s post)
    (hact : Ensures act s (fun _ s' => post' s')) : Performs blockAt tasks act a s post' := by
  obtain ⟨s', r, hruns, heq, -⟩ := h
  refine ⟨s', r, hruns, heq, ?_⟩
  rintro rfl
  rw [Ensures, Meets, heq] at hact
  exact hact

/-- A loop performs one task for each element. -/
theorem forIn {γ : Type} {task : γ → Task} {f : γ → PUnit → InlineM (ForInStep PUnit)} {l : List γ}
    (inv : List γ → Inlining → Prop) (h : inv l s)
    (step : ∀ x l s, inv (x :: l) s → Performs blockAt [task x] (f x ⟨⟩) (.yield ⟨⟩) s (inv l)) :
    Performs blockAt (l.map task) (ForIn.forIn l PUnit.unit f) ⟨⟩ s (inv []) := by
  induction l generalizing s with
  | nil => exact .pure h
  | cons x l ih =>
    rw [List.forIn_cons]
    exact (step x l s h).bind fun s1 h1 => ih h1

theorem seen (hseen : s.visited.contains id.index) (h : post s) :
    Performs blockAt [.visit id] (Pure.pure a) a s post := by
  have hperform : (Task.visit id).perform blockAt s = .ok ([], s) := by
    show (if s.visited.contains id.index = true then _ else _ : InlineM (List Task)) s = _
    rw [if_pos hseen]
    rfl
  exact ⟨s, .ok (), .step hperform .done, rfl, fun _ => h⟩

theorem visit {f : List Nat → InlineM α} (hnot : ¬s.visited.contains id.index)
    (h : ∀ places s1, enter blockAt id s = .ok (places, s1) →
      Performs blockAt (places.map (.retarget id) ++ [.follow id]) (f places) a s1 post) :
    Performs blockAt [.visit id] (enter blockAt id >>= f) a s post := by
  have hperform : (Task.visit id).perform blockAt s = enter blockAt id s >>= fun (places, s1) =>
      Except.ok (places.map (.retarget id) ++ [.follow id], s1) := by
    show (if s.visited.contains id.index = true then _ else _ : InlineM (List Task)) s = _
    rw [if_neg hnot]
    rfl
  cases henter : enter blockAt id s with
  | error e =>
    rw [henter] at hperform
    refine ⟨s, .error e, .bail hperform, ?_, nofun⟩
    show enter blockAt id s >>= _ = _
    rw [henter]
    rfl
  | ok entered =>
    rw [henter] at hperform
    obtain ⟨s', r, hruns, hact, hpost⟩ := h _ _ henter
    refine ⟨s', r, .step hperform (by rwa [List.append_nil]), ?_, hpost⟩
    show enter blockAt id s >>= _ = _
    rw [henter]
    exact hact

theorem follow {f : Block → InlineM α} (h : Performs blockAt ((s.blocks.block id).successors.map .visit)
    (f (s.blocks.block id)) a s post) : Performs blockAt [.follow id] (block id >>= f) a s post := by
  obtain ⟨s', r, hruns, hact, hpost⟩ := h
  exact ⟨s', r, .step rfl (by rwa [List.append_nil]), hact, hpost⟩

theorem retargets (places : List Nat) :
    Performs blockAt (places.map (.retarget id)) (retargetAll id places) ⟨⟩ s fun _ => True := by
  refine .forIn (fun _ _ => True) trivial fun place _ s _ => ?_
  cases hr : Inlining.retarget id place s with
  | error e =>
    have hact {γ : Type} (f : PUnit → InlineM γ) : (Inlining.retarget id place >>= f) s = .error e := by
      show Inlining.retarget id place s >>= _ = _
      rw [hr]
      rfl
    exact ⟨s, .error e, .bail (hact _), hact _, nofun⟩
  | ok result =>
    have hact {γ : Type} (f : PUnit → InlineM γ) : (Inlining.retarget id place >>= f) s = f ⟨⟩ result.2 := by
      show Inlining.retarget id place s >>= _ = _
      rw [hr]
      rfl
    have hperform : (Task.retarget id place).perform blockAt s = .ok ([], result.2) := hact _
    exact ⟨result.2, .ok (), .step hperform .done, hact _, fun _ => trivial⟩

end Performs

end SeaOfNodes.Flow.Inlining
