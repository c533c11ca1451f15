import Mathlib.Tactic

/-!
# What steps do

A step reads and changes a state, and may fail. `Meets` says of one step from one state what holds
of its result and the new state, and what holds of the failure if it fails. A step made of smaller
ones is taken apart by one rule per construct; a loop has an invariant over what is left of its list.
-/

namespace SeaOfNodes

variable {σ ε α β : Type} {fail fail' : ε → Prop} {r : Except ε α}
  {body : α → PUnit → StateT σ (Except ε) (ForInStep PUnit)} {l : List α} {s : σ}
  {act : StateT σ (Except ε) α} {e : ε} {a : α}

/-- An outcome is a result with `post`, or a failure with `fail`. -/
def Ends (r : Except ε α) (post : α → Prop) (fail : ε → Prop) : Prop :=
  match r with
  | .ok a => post a
  | .error e => fail e

/-- A step from `s` ends in a result and a state with `post`, or in a failure with `fail`. -/
def Meets (act : StateT σ (Except ε) α) (s : σ) (post : α → σ → Prop) (fail : ε → Prop) : Prop :=
  Ends (act s) (fun r => post r.1 r.2) fail

/-- If a step from `s` ends in a result, then in one with `post`. -/
abbrev Ensures (act : StateT σ (Except ε) α) (s : σ) (post : α → σ → Prop) : Prop :=
  Meets act s post fun _ => True

/-! ### Outcomes -/

@[simp] theorem ends_ok {post : α → Prop} :
    Ends (.ok a) post fail ↔ post a := Iff.rfl

@[simp] theorem ends_error {post : α → Prop} :
    Ends (.error e) post fail ↔ fail e := Iff.rfl

theorem Ends.mono {post post' : α → Prop}
    (h : Ends r post fail) (hpost : ∀ a, post a → post' a) (hfail : ∀ e, fail e → fail' e) :
    Ends r post' fail' := by
  cases r with
  | ok a => exact hpost a h
  | error e => exact hfail e h

theorem ends_bind {k : α → Except ε β} {post : β → Prop} :
    Ends (r >>= k) post fail ↔ Ends r (fun a => Ends (k a) post fail) fail := by
  cases r <;> rfl

theorem Ends.of_ok {post : α → Prop} (h : Ends r post fail) (ha : r = .ok a) : post a := by
  subst ha; exact h

theorem Ends.of_error {post : α → Prop} (h : Ends r post fail) (he : r = .error e) : fail e := by
  subst he; exact h

/-- A result that can be tested, from the test. -/
theorem exists_ok_of_any {p : α → Bool} (h : r.toOption.any p) :
    ∃ a, r = .ok a ∧ p a := by
  cases r with
  | ok a => exact ⟨a, rfl, h⟩
  | error e => cases h

/-- The outcome is the given failure. -/
def failsWith [DecidableEq ε] (r : Except ε α) (e : ε) : Bool :=
  match r with
  | .ok _ => false
  | .error e' => decide (e' = e)

theorem eq_error_of_failsWith [DecidableEq ε] (h : failsWith r e) :
    r = .error e := by
  cases r with
  | ok a => cases h
  | error e' => rw [of_decide_eq_true h]

/-! ### Single steps -/

section

variable {s : σ} {post : α → σ → Prop} {fail : ε → Prop} {act : StateT σ (Except ε) α}
  {k : α → StateT σ (Except ε) β} {post' : α → σ → Prop} {f : σ → σ}

@[simp] theorem meets_pure :
    Meets (pure a : StateT σ (Except ε) α) s post fail ↔ post a s := Iff.rfl

@[simp] theorem meets_get {post : σ → σ → Prop} :
    Meets (get : StateT σ (Except ε) σ) s post fail ↔ post s s := Iff.rfl

@[simp] theorem meets_set {s' : σ} {post : PUnit → σ → Prop} :
    Meets (set s' : StateT σ (Except ε) PUnit) s post fail ↔ post ⟨⟩ s' := Iff.rfl

@[simp] theorem meets_modify {post : PUnit → σ → Prop} :
    Meets (modify f : StateT σ (Except ε) PUnit) s post fail ↔ post ⟨⟩ (f s) := Iff.rfl

@[simp] theorem meets_modifyGet {f : σ → α × σ} :
    Meets (modifyGet f : StateT σ (Except ε) α) s post fail ↔ post (f s).1 (f s).2 := Iff.rfl

@[simp] theorem meets_throw :
    Meets (throw e : StateT σ (Except ε) α) s post fail ↔ fail e := Iff.rfl

@[simp] theorem meets_lift :
    Meets (liftM r : StateT σ (Except ε) α) s post fail ↔ Ends r (post · s) fail := by
  cases r <;> rfl

@[simp] theorem meets_bind {post : β → σ → Prop} :
    Meets (act >>= k) s post fail ↔
      Meets act s (fun a s' => Meets (k a) s' post fail) fail := by
  show Ends (act s >>= fun r => k r.1 r.2) _ _ ↔ _
  rw [ends_bind]
  rfl

/-- The state is read. -/
theorem meets_read {k : σ → StateT σ (Except ε) β} {post : β → σ → Prop} :
    Meets (get >>= k) s post fail ↔ Meets (k s) s post fail := Iff.rfl

/-- Something is read off the state. -/
theorem meets_observe {f : σ → α} {post : β → σ → Prop} :
    Meets ((get >>= fun s => pure (f s)) >>= k) s post fail ↔ Meets (k (f s)) s post fail := Iff.rfl

/-- The state is changed. -/
theorem meets_change {k : PUnit → StateT σ (Except ε) β} {post : β → σ → Prop} :
    Meets (modify f >>= k) s post fail ↔ Meets (k ⟨⟩) (f s) post fail := Iff.rfl

theorem meets_map {f : α → β} {post : β → σ → Prop} :
    Meets (f <$> act) s post fail ↔ Meets act s (fun a s' => post (f a) s') fail := by
  rw [← bind_pure_comp, meets_bind]
  rfl

section

variable (h : Meets act s post fail) (hpost : ∀ a s', post a s' → post' a s')

include h hpost

theorem Meets.mono (hfail : ∀ e, fail e → fail' e) : Meets act s post' fail' :=
  Ends.mono h (fun _ => hpost _ _) hfail

theorem Meets.imp :
    Meets act s post' fail :=
  h.mono hpost fun _ => id

theorem Meets.ensures : Ensures act s post' :=
  h.mono hpost fun _ _ => trivial

end

/-- A step that meets its part lets the rest of a sequence go on. -/
theorem Meets.bind {post' : β → σ → Prop} (h : Meets act s post fail)
    (hk : ∀ a s', post a s' → Meets (k a) s' post' fail) : Meets (act >>= k) s post' fail :=
  meets_bind.2 (h.imp hk)

/-- A step that cannot fail ends in a result. -/
theorem Meets.exists_ok (h : Meets act s post fun _ => False) :
    ∃ a s', act s = .ok (a, s') ∧ post a s' := by
  unfold Meets at h
  cases hr : act s with
  | ok r => exact ⟨r.1, r.2, rfl, h.of_ok hr⟩
  | error e => exact (h.of_error hr).elim

/-- A sequence that succeeds does so step by step. -/
theorem exists_ok_of_bind {s : σ} {r : β × σ}
    (h : (act >>= k) s = .ok r) : ∃ a s', act s = .ok (a, s') ∧ k a s' = .ok r := by
  change (act s >>= fun r => k r.1 r.2) = .ok r at h
  cases hact : act s with
  | error e => rw [hact] at h; cases h
  | ok p =>
    rw [hact] at h
    exact ⟨p.1, p.2, rfl, h⟩

theorem meets_any (act : StateT σ (Except ε) α) (s : σ) :
    Ensures act s (fun _ _ => True) := by
  unfold Ensures Meets
  cases act s <;> trivial

theorem Meets.and (h : Meets act s post fail) (h' : Meets act s post' fail') :
    Meets act s (fun a s' => post a s' ∧ post' a s') (fun e => fail e ∧ fail' e) := by
  unfold Meets at *
  cases hr : act s <;> rw [hr] at h h' <;> exact ⟨h, h'⟩

end

/-! ### Lists of steps -/

/-- A loop over a list keeps an invariant on what is left of the list. -/
theorem Meets.forIn (inv : List α → σ → Prop) (hs : inv l s) (step : ∀ x rest s, inv (x :: rest) s →
      Meets (body x ⟨⟩) s (fun r s' => r = .yield ⟨⟩ ∧ inv rest s') fail) :
    Meets (forIn l PUnit.unit body) s (fun _ s' => inv [] s') fail := by
  induction l generalizing s with
  | nil => exact hs
  | cons x rest ih =>
    rw [List.forIn_cons]
    refine (step x rest s hs).bind fun r s' h => ?_
    obtain ⟨rfl, h⟩ := h
    exact ih h

/-- A loop over the numbers below `n` keeps an invariant on the number that is next. -/
theorem Meets.forIn_range {n : Nat}
    {body : Nat → PUnit → StateT σ (Except ε) (ForInStep PUnit)} (inv : Nat → σ → Prop) (hs : inv 0 s)
    (step : ∀ i < n, ∀ s, inv i s → Meets (body i ⟨⟩) s (fun r s' => r = .yield ⟨⟩ ∧ inv (i + 1) s') fail) :
    Meets (ForIn.forIn (List.range n) PUnit.unit body) s (fun _ s' => inv n s') fail := by
  refine (Meets.forIn (fun left s => ∃ i, i + left.length = n ∧ left = List.range' i left.length ∧ inv i s)
    ⟨0, by simp, by simp [List.range_eq_range'], hs⟩ fun x rest s hx => ?_).imp fun _ s' hx => ?_
  · obtain ⟨i, hi, hleft, hinv⟩ := hx
    rw [List.length_cons, List.range'_succ] at hleft
    obtain ⟨rfl, hrest⟩ := List.cons.inj hleft
    rw [List.length_cons] at hi
    exact (step x (by omega) s hinv).imp fun r s' h => ⟨h.1, x + 1, by omega, hrest, h.2⟩
  · obtain ⟨i, hi, -, hinv⟩ := hx
    exact (show i = n from hi) ▸ hinv

/-- A loop over a list keeps an invariant on what it has passed. -/
theorem Meets.forIn_passed (inv : List α → σ → Prop) (hs : inv [] s)
    (step : ∀ x done rest s, l = done ++ x :: rest → inv done s →
      Meets (body x ⟨⟩) s (fun r s' => r = .yield ⟨⟩ ∧ inv (done ++ [x]) s') fail) :
    Meets (ForIn.forIn l PUnit.unit body) s (fun _ s' => inv l s') fail := by
  refine (Meets.forIn (fun rest s => ∃ done, l = done ++ rest ∧ inv done s) ⟨[], rfl, hs⟩
    fun x rest s ⟨done, hl, hinv⟩ => (step x done rest s hl hinv).imp fun r s' h =>
      ⟨h.1, done ++ [x], by simp [hl], h.2⟩).imp fun _ s' ⟨done, hl, hinv⟩ => ?_
  rwa [hl, List.append_nil]

/-- A loop over elements of which `P` holds, among them all of which `O` does. A turn keeps `P` of the
other elements and ends `O` of its own, so that in the end `O` holds of none. -/
theorem Meets.forIn_each (P O : σ → α → Prop) (inv : σ → Prop) (hs : inv s) (hnodup : l.Nodup)
    (hP : ∀ x ∈ l, P s x) (hO : ∀ x, O s x → x ∈ l)
    (step : ∀ x s, inv s → P s x → Meets (body x ⟨⟩) s (fun r s' => r = .yield ⟨⟩ ∧ inv s' ∧
      (∀ y, y ≠ x → P s y → P s' y) ∧ ∀ y, O s' y → y ≠ x ∧ O s y) fail) :
    Meets (ForIn.forIn l PUnit.unit body) s (fun _ s' => inv s' ∧ ∀ x, ¬ O s' x) fail := by
  refine (Meets.forIn (fun rest s => inv s ∧ rest.Nodup ∧ (∀ x ∈ rest, P s x) ∧ ∀ x, O s x → x ∈ rest)
    ⟨hs, hnodup, hP, hO⟩ fun x rest s ⟨hs, hnodup, hP, hO⟩ => ?_).imp fun _ s' h =>
      ⟨h.1, fun x hx => List.not_mem_nil (h.2.2.2 x hx)⟩
  obtain ⟨hx, hnodup⟩ := List.nodup_cons.1 hnodup
  refine (step x s hs (hP x List.mem_cons_self)).imp fun r s' ⟨hr, hs', hP', hO'⟩ =>
    ⟨hr, hs', hnodup, fun y hy => hP' y ?_ (hP y (List.mem_cons_of_mem _ hy)), fun y hy => ?_⟩
  · rintro rfl
    exact hx hy
  · exact (List.mem_cons.1 (hO y (hO' y hy).2)).resolve_left (hO' y hy).1

/-- What holds of an element once its turn is over holds of all elements after the loop. -/
theorem Meets.forIn_all {P : α → Prop}
    (h : ∀ x ∈ l, ∀ s, Ensures (body x ⟨⟩) s (fun r _ => r = .yield ⟨⟩ ∧ P x)) :
    Ensures (ForIn.forIn l PUnit.unit body) s (fun _ _ => ∀ x ∈ l, P x) :=
  Meets.forIn_passed (fun done _ => ∀ x ∈ done, P x) nofun fun x done rest s hl hdone =>
    (h x (by simp [hl]) s).imp fun r _ hr =>
      ⟨hr.1, List.forall_mem_append.2 ⟨hdone, List.forall_mem_singleton.2 hr.2⟩⟩

/-- Collecting the results of a step over a list keeps an invariant on the results so far. -/
theorem Meets.mapM {act : α → StateT σ (Except ε) β} (inv : List α → List β → σ → Prop) (hs : inv l [] s)
    (step : ∀ x rest done s, inv (x :: rest) done s →
      Meets (act x) s (fun b s' => inv rest (done ++ [b]) s') fail) :
    Meets (l.mapM act) s (fun r s' => inv [] r s') fail := by
  suffices ∀ (l : List α) (done : List β) (s : σ), inv l done s →
      Meets (l.mapM act) s (fun r s' => inv [] (done ++ r) s') fail by
    simpa using this l [] s hs
  intro l
  induction l with
  | nil => intro done s h; simpa using h
  | cons x rest ih =>
    intro done s h
    rw [List.mapM_cons]
    refine (step x rest done s h).bind fun b s' hb => ?_
    refine (ih _ s' hb).bind fun bs s'' hbs => ?_
    simpa using hbs

/-- Folding a step over a list keeps an invariant on what is left and on the value so far. -/
theorem Meets.foldlM {b : β}
    {act : β → α → StateT σ (Except ε) β} (inv : List α → β → σ → Prop) (hs : inv l b s)
    (step : ∀ x rest b s, inv (x :: rest) b s →
      Meets (act b x) s (fun b' s' => inv rest b' s') fail) :
    Meets (l.foldlM act b) s (fun b' s' => inv [] b' s') fail := by
  induction l generalizing b s with
  | nil => exact hs
  | cons x rest ih =>
    rw [List.foldlM_cons]
    exact (step x rest b s hs).bind fun b' s' h => ih h

/-- Selecting from a list by a test that only looks is selecting by what the test says. -/
theorem Meets.filterM {test : α → StateT σ (Except ε) Bool}
    (p : α → Bool) (h : ∀ x ∈ l, Meets (test x) s (fun b s' => b = p x ∧ s' = s) fail) :
    Meets (l.filterM test) s (fun r s' => r = l.filter p ∧ s' = s) fail := by
  have aux : ∀ (l acc : List α), (∀ x ∈ l, Meets (test x) s (fun b s' => b = p x ∧ s' = s) fail) →
      Meets (l.filterAuxM test acc) s (fun r s' => r = (l.filter p).reverse ++ acc ∧ s' = s) fail := by
    intro l
    induction l with
    | nil => intro acc _; exact ⟨rfl, rfl⟩
    | cons x rest ih =>
      intro acc h
      rw [List.filterAuxM]
      refine (h x (by simp)).bind fun b s' hb => ?_
      obtain ⟨rfl, rfl⟩ := hb
      have hrest := ih (if p x then x :: acc else acc) fun y hy => h y (by simp [hy])
      cases hx : p x <;> simp [hx] at hrest ⊢ <;> exact hrest
  exact (aux l [] h).bind fun r s' hr => ⟨by simp [hr.1], hr.2⟩

/-- Selecting and converting by a step that only looks. -/
theorem Meets.filterMapM {act : α → StateT σ (Except ε) (Option β)} (f : α → Option β)
    (h : ∀ x ∈ l, Meets (act x) s (fun b s' => b = f x ∧ s' = s) fail) :
    Meets (l.filterMapM act) s (fun r s' => r = l.filterMap f ∧ s' = s) fail := by
  induction l with
  | nil => exact ⟨rfl, rfl⟩
  | cons x rest ih =>
    rw [List.filterMapM_cons]
    refine (h x (by simp)).bind fun b s' hb => ?_
    obtain ⟨rfl, rfl⟩ := hb
    have hrest := ih fun y hy => h y (by simp [hy])
    cases hx : f x with
    | none => simpa [hx] using hrest
    | some b => exact hrest.bind fun r s'' hr => ⟨by simp [hx, hr.1], hr.2⟩

/-! ### What steps carry over -/

/-- Wherever the step succeeds, the new state is related to the old one. -/
class Carries (R : σ → σ → Prop) (act : StateT σ (Except ε) α) : Prop where
  ensures : ∀ s, Ensures act s (fun _ s' => R s s')

/-- The step changes nothing. -/
class Observes (act : StateT σ (Except ε) α) : Prop where
  ensures : ∀ s, Ensures act s (fun _ s' => s' = s)

theorem carried (R : σ → σ → Prop) [h : Carries R act] (s : σ) :
    Ensures act s (fun _ s' => R s s') := h.ensures s

/-- What is carried over from the states that meet a condition. -/
theorem carries_iff {P : σ → Prop} {R : σ → σ → Prop} :
    Carries (fun s s' => P s → R s s') act ↔ ∀ s, P s → Ensures act s (fun _ s' => R s s') := by
  refine ⟨fun h s hs => (h.ensures s).imp fun _ _ h => h hs, fun h => ⟨fun s => ?_⟩⟩
  by_cases hs : P s
  · exact (h s hs).imp fun _ _ h _ => h
  · unfold Ensures Meets
    cases act s with
    | ok r => exact fun h => absurd h hs
    | error e => trivial

namespace Carries

variable {R : σ → σ → Prop} {act act' : StateT σ (Except ε) α} {k : α → StateT σ (Except ε) β}

instance throw (e : ε) : Carries R (throw e : StateT σ (Except ε) α) := ⟨fun _ => trivial⟩

theorem modify {f : σ → σ} (h : ∀ s, R s (f s)) :
    Carries R (modify f : StateT σ (Except ε) PUnit) := ⟨h⟩

instance discard [Carries R act] : Carries R (Functor.discard act) :=
  ⟨fun s => meets_map.2 (carried R s)⟩

instance ite {p : Prop} [Decidable p] [Carries R act] [Carries R act'] :
    Carries R (if p then act else act') := by
  split <;> infer_instance

variable [IsPreorder σ R]

instance pure (a : α) : Carries R (Pure.pure a : StateT σ (Except ε) α) := ⟨fun s => Std.Refl.refl s⟩

theorem seq (h : Carries R act) (hk : ∀ a, Carries R (k a)) : Carries R (act >>= k) :=
  ⟨fun s => (h.ensures s).bind fun a s1 h1 => ((hk a).ensures s1).imp fun _ s2 h2 =>
    IsTrans.trans s s1 s2 h1 h2⟩

/-- The rest of a step may be looked at for each result of its beginning. -/
theorem before [h : Carries R act] (hk : ∀ a, Carries R (k a)) : Carries R (act >>= k) := h.seq hk

instance bind [Carries R act] [hk : ∀ a, Carries R (k a)] : Carries R (act >>= k) := before hk

instance forIn {l : List α} {b : β} {body : α → β → StateT σ (Except ε) (ForInStep β)}
    [h : ∀ x b, Carries R (body x b)] : Carries R (forIn l b body) := by
  induction l generalizing b with
  | nil => exact pure b
  | cons x rest ih =>
    rw [List.forIn_cons]
    refine before fun r => ?_
    cases r with
    | done b => exact pure b
    | yield b => exact ih

instance foldlM {l : List α} {b : β} {act : β → α → StateT σ (Except ε) β}
    [∀ b x, Carries R (act b x)] : Carries R (l.foldlM act b) := by
  induction l generalizing b with
  | nil => exact pure b
  | cons x rest ih =>
    rw [List.foldlM_cons]
    exact before fun b => ih

end Carries

instance (priority := low) Observes.carries {R : σ → σ → Prop} [IsPreorder σ R]
    {act : StateT σ (Except ε) α} [h : Observes act] : Carries R act :=
  ⟨fun s => (h.ensures s).imp fun _ s' e => by
    obtain rfl : s' = s := e
    exact Std.Refl.refl s'⟩

instance : Observes (get : StateT σ (Except ε) σ) := ⟨fun _ => rfl⟩

instance (a : α) : Observes (pure a : StateT σ (Except ε) α) := ⟨fun _ => rfl⟩

instance (r : Except ε α) : Observes (liftM r : StateT σ (Except ε) α) := ⟨fun s => by
  refine meets_lift.2 ?_
  cases r <;> trivial⟩

end SeaOfNodes
