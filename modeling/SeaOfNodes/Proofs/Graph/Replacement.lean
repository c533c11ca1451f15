import SeaOfNodes.Proofs.Graph.EdgeSymmetry
import SeaOfNodes.Proofs.Node.Rename

/-!
# Replacing a node

A node is replaced at its users by one exchange per entry of its usage list, and at its predecessor by
the exchange of the one slot that leads to it. Between two nodes that are alive the first never fails.
The second fails only if both nodes have a predecessor, for then one of them would get two. Replacing
a node everywhere and deleting it drops its successors first, so that it does not count as a
predecessor, neither of the other node nor of itself.
-/

namespace SeaOfNodes.Graph

variable {g g' : Graph} {id other : NodeId} {new : Option NodeId}

/-! ### At the users -/

/-- Replacing a node at all of its users is one exchange after another; what each exchange keeps is
kept, and nothing uses the node in the end. -/
theorem meets_replaceAtUsages {other : Option NodeId} (P : Graph → Prop) (hP : P g)
    (hid : (g.node? id).isSome) (hne : other ≠ some id) (hcons : ∀ s, P s → s.Consistent)
    (halive : ∀ s, P s → ∀ v, other = some v → s.isAlive v)
    (step : ∀ s s' user n n' field, P s → user ∈ g.users id →
      n.replaceFirst .inputs id other = some n' → n.Edit n' .inputs field (some id) other →
      Rewires s s' user .inputs n n' (some id) other → P s') :
    Meets (replaceAtUsages id other) g (fun _ g' => P g' ∧ g'.users id = []) (fun _ => False) := by
  unfold replaceAtUsages
  rw [if_neg hne]
  unfold replaceAtUsagesWhere
  refine meets_bind.2 (meets_entry.2 ⟨fun e he => ?_, fun hnone => ?_⟩)
  swap
  · simp [node?, hnone] at hid
  have husers := users_of_get? he
  -- the users that are left are those that still have the node as an input
  refine (Meets.forIn (fun rest s => P s ∧ (∀ u ∈ rest, u ∈ g.users id) ∧
      ∀ u, s.listed id u = rest.count u)
    ⟨hP, fun u hu => by rwa [husers], fun u => by rw [listed, husers]⟩ fun user rest s hs => ?_).bind
    fun _ s hs => ⟨hs.1, users_eq_nil_iff.2 fun u => by rw [hs.2.2]; rfl⟩
  obtain ⟨hs, hmem, hlisted⟩ := hs
  have hpos : 0 < s.listed id user := by rw [hlisted]; simp
  have huses : 0 < s.uses .inputs user id := by rwa [← (hcons s hs).listed]
  simp only [pure_bind, if_true]
  unfold replaceAtUser
  simp only [bind_assoc]
  refine meets_bind.2 ((meets_replaceFirstInput (hcons s hs).packed user id other).mono
    (fun b s' h => ?_) fun e he => ?_)
  · obtain ⟨-, n, hn, ⟨-, -, hz⟩ | ⟨rfl, n', hr, h⟩⟩ := h
    · rw [uses_of_node? hn, hz] at huses
      cases huses
    · obtain ⟨field, hedit⟩ := Node.edit_of_replaceFirst hr
      refine ⟨rfl, step s s' user n n' field hs (hmem user (by simp)) hr hedit h,
        fun u hu => hmem u (by simp [hu]), fun u => ?_⟩
      have hcount := h.listed id u
      rw [hlisted, occurs_of_ne hne] at hcount
      by_cases hu : u = user
      · subst hu
        simp at hcount
        omega
      · simpa [hu, Ne.symm hu, List.count_cons] using hcount
  · obtain ⟨n, hn, -⟩ := exists_node?_of_uses huses
    exact he ⟨halive s hs, by simp [hn], fun _ => hpos⟩

/-- Every input slot that held `id` holds `new`, and no other slot and no predecessor changes. -/
structure Exchanges (g g' : Graph) (id : NodeId) (new : Option NodeId) : Prop where
  keeps : Keeps g g'
  node? : ∀ x, g'.node? x = (g.node? x).map (·.exchange .inputs id new)
  isAlive : ∀ x, g'.isAlive x = g.isAlive x
  predecessor? : ∀ x, g'.predecessor? x = g.predecessor? x
  unused : g'.users id = []
  consistent : g'.Consistent

theorem meets_exchange (hg : g.Consistent) (hid : (g.node? id).isSome)
    (hne : new ≠ some id) (hnew : ∀ v, new = some v → g.isAlive v) :
    Meets (replaceAtUsages id new) g (fun _ g' => Exchanges g g' id new) (fun _ => False) := by
  -- nodes that are not done yet are the same once they are
  refine (meets_replaceAtUsages (fun s => s.Consistent ∧ Keeps g s ∧
      (∀ x, s.isAlive x = g.isAlive x) ∧ (∀ x, s.predecessor? x = g.predecessor? x) ∧
      ∀ x, (s.node? x).map (·.exchange .inputs id new) = (g.node? x).map (·.exchange .inputs id new))
    ⟨hg, .refl g, fun _ => rfl, fun _ => rfl, fun _ => rfl⟩ hid hne (fun _ hs => hs.1)
    (fun s hs v hv => (hs.2.2.1 v).trans (hnew v hv)) ?_).imp fun _ g' h => ?_
  · rintro s s' user n n' field ⟨hs, hkeeps, halive, hpred, hnode⟩ huser hreplace hedit hr
    refine ⟨hr.consistent hedit hs (fun _ => (halive user).trans (hg.isAlive_user huser))
        fun t ht => (halive t).trans (hnew t ht),
      hkeeps.trans hr.keeps, fun x => (hr.isAlive x).trans (halive x),
      fun x => ((hr.predecessor? x).trans (by simp)).trans (hpred x), fun x => ?_⟩
    rw [← hnode, hr.node?]
    split
    · subst_vars
      rw [hr.node, Option.map_some, Option.map_some, Node.exchange_of_replaceFirst hne hreplace]
    · rfl
  · obtain ⟨⟨hc, hkeeps, halive, hpred, hnode⟩, hunused⟩ := h
    refine ⟨hkeeps, fun x => ?_, halive, hpred, hunused, hc⟩
    rw [← hnode]
    cases hx : g'.node? x with
    | none => rfl
    | some n =>
      have huses : n.uses .inputs id = 0 := by
        rw [← uses_of_node? hx, ← hc.listed, users_eq_nil_iff.1 hunused]
      rw [Option.map_some, Node.exchange_eq_self huses]

/-! ### At the predecessor -/

/-- A node with a predecessor is replaced in the one slot that leads to it. -/
theorem meets_replaceAtPredecessor (hg : g.Consistent) (hid : (g.node? id).isSome) :
    Meets (replaceAtPredecessor id new) g
      (fun _ g' => g.predecessor? id = none ∧ g' = g ∨ ∃ p n n', g.predecessor? id = some p ∧
        n.replaceFirst .successors id new = some n' ∧ Rewires g g' p .successors n n' (some id) new)
      (fun _ => ∃ p, g.predecessor? id = some p ∧ ¬ g.CanRewire p .successors (some id) new) := by
  unfold replaceAtPredecessor
  refine meets_bind.2 (meets_entry.2 ⟨fun e he => ?_, fun hnone => by simp [node?, hnone] at hid⟩)
  have hpred := predecessor?_of_get? he
  cases hp : e.predecessor with
  | none => exact .inl ⟨hpred.trans hp, rfl⟩
  | some p =>
    rw [hp] at hpred
    have huses : g.uses .successors p id = 1 := hg.successor p id hpred
    refine meets_bind.2 ((meets_replaceFirstSuccessor hg.packed p id new).mono
      (fun b g' h => ?_) fun _ hfail => ⟨p, hpred, fun hc => hfail ⟨?_, fun _ => hc⟩⟩)
    · obtain ⟨n, hn, ⟨-, -, hzero⟩ | ⟨rfl, n', hreplace, hr⟩⟩ := h
      · rw [uses_of_node? hn, hzero] at huses
        cases huses
      · exact .inr ⟨p, n, n', hpred, hreplace, hr⟩
    · exact registered_of_isAlive (hg.isAlive_of_uses (huses ▸ Nat.one_pos))

/-- The slot that led to `id` leads to `other`. -/
structure Diverts (g g' : Graph) (id other : NodeId) : Prop where
  node? : ∀ x, g'.node? x = (g.node? x).map (·.exchange .successors id (some other))
  isAlive : ∀ x, g'.isAlive x = g.isAlive x
  users : ∀ x u, g'.listed x u = g.listed x u
  predecessor? : ∀ x, g'.predecessor? x =
    if x = id then none
    else if x = other then (g.predecessor? id).or (g.predecessor? other) else g.predecessor? x
  consistent : g'.Consistent

theorem meets_divert (hg : g.Consistent) (hid : g.isAlive id) (hother : g.isAlive other)
    (hne : id ≠ other) :
    Meets (replaceAtPredecessor id (some other)) g
      (fun _ g' => Diverts g g' id other ∧ (g.predecessor? id = none ∨ g.predecessor? other = none))
      (fun _ => g.predecessor? id ≠ none ∧ g.predecessor? other ≠ none) := by
  -- a node that does not lead to `id` has nothing to exchange
  have hsame {x : NodeId} (h : g.predecessor? id ≠ some x) :
      (g.node? x).map (·.exchange .successors id (some other)) = g.node? x := by
    cases hx : g.node? x with
    | none => rfl
    | some n =>
      rw [Option.map_some, Node.exchange_eq_self]
      rw [← uses_of_node? hx, hg.uses_successors, if_neg h]
  refine (meets_replaceAtPredecessor hg (registered_of_isAlive hid)).mono (fun _ g' h => ?_) ?_
  · obtain ⟨hnone, rfl⟩ | ⟨p, n, n', hp, hreplace, hr⟩ := h
    · refine ⟨⟨fun x => (hsame (by simp [hnone])).symm, fun _ => rfl, fun _ _ => rfl, fun x => ?_, hg⟩,
        .inl hnone⟩
      split_ifs <;> simp_all
    · have hold : some id ≠ some other := by simpa using hne
      obtain ⟨field, hedit⟩ := Node.edit_of_replaceFirst hreplace
      have hnone := hr.new_pred rfl hold other rfl
      have hpa : g.isAlive p :=
        hg.isAlive_of_uses (by rw [uses_of_node? hr.node]; exact hedit.uses_old_pos)
      refine ⟨⟨fun x => ?_, hr.isAlive, fun x u => by simpa using hr.listed x u, fun x => ?_,
        hr.consistent hedit hg (fun _ => hpa) (by rintro _ ⟨⟩; exact hother)⟩, .inr hnone⟩
      · rw [hr.node?]
        split
        · subst_vars
          -- the slot was the only one, and so nothing is left to exchange
          have hzero : n'.uses .successors id = 0 := by
            have hcount := hedit.uses_add id
            rw [← uses_of_node? hr.node, hg.successor _ id hp, occurs_of_ne hold.symm] at hcount
            simpa using hcount
          rw [hr.node, Option.map_some, ← Node.exchange_of_replaceFirst hold.symm hreplace,
            Node.exchange_eq_self hzero]
        · rw [hsame]
          rw [hp]
          simpa using Ne.symm ‹_›
      · rw [hr.predecessor?, hp, hnone, if_neg (by simpa using hne)]
        by_cases hx : x = id
        · simp [hx, hne.symm]
        · simp [hx, Ne.symm hx, eq_comm]
  · rintro _ ⟨p, hp, hfail⟩
    refine ⟨by simp [hp], fun hnone => hfail (.inr ⟨?_, ?_⟩)⟩
    · rintro _ ⟨⟩
      exact hp
    · rintro _ ⟨⟩
      exact ⟨registered_of_isAlive hother, hnone⟩

/-! ### Everywhere -/

/-- The node `other` stands for `id`, which is deleted. -/
structure Supersedes (g g' : Graph) (id other : NodeId) : Prop where
  isAlive : ∀ x, g'.isAlive x = if x = id then false else g.isAlive x
  /-- Every slot that led to `id` leads to `other`, and no other slot changes. -/
  node? : ∀ x, x ≠ id → g'.node? x =
    (g.node? x).map fun n => (n.exchange .inputs id (some other)).exchange .successors id (some other)
  /-- What followed `id` is left without a predecessor, and `other` gets that of `id`. -/
  predecessor? : ∀ x, x ≠ id → g'.predecessor? x =
    if x = other then
      ((g.predecessor? id).filter (· ≠ id)).or ((g.predecessor? other).filter (· ≠ id))
    else (g.predecessor? x).filter (· ≠ id)
  consistent : g'.Consistent

theorem meets_supersede (hg : g.Consistent) (hid : g.isAlive id) (hother : g.isAlive other)
    (hne : id ≠ other) :
    Meets (replaceAndDelete id other) g
      (fun _ g' => Supersedes g g' id other ∧ ((g.predecessor? id).filter (· ≠ id) = none ∨
        (g.predecessor? other).filter (· ≠ id) = none))
      (fun _ => (g.predecessor? id).filter (· ≠ id) ≠ none ∧
        (g.predecessor? other).filter (· ≠ id) ≠ none) := by
  unfold replaceAndDelete
  refine meets_bind.2 ((meets_clearSuccessors hg.packed id).mono (fun _ g1 h1 => ?_) fun _ hfail =>
    absurd ⟨registered_of_isAlive hid, fun t ht => hg.registered_target ht⟩ hfail)
  obtain ⟨n, h1⟩ := h1
  have hpred := h1.predecessor?_eq hg
  have hnew : some other ≠ some id := by simpa using hne.symm
  refine meets_bind.2 ((meets_exchange (h1.consistent hg)
    (registered_of_isAlive (by rw [h1.isAlive, hid])) hnew
    (by rintro _ ⟨⟩; rw [h1.isAlive, hother])).mono (fun _ g2 h2 => ?_) fun _ h => h.elim)
  rw [← hpred, ← hpred, ← h2.predecessor?, ← h2.predecessor?]
  have hid2 : g2.isAlive id := by rw [h2.isAlive, h1.isAlive, hid]
  refine meets_bind.2 ((meets_divert h2.consistent hid2 (by rw [h2.isAlive, h1.isAlive, hother])
    hne).mono (fun _ g3 h3 => ?_) fun _ h => h)
  obtain ⟨h3, hfree⟩ := h3
  have hid3 : g3.predecessor? id = none := by simp [h3.predecessor?]
  -- the node leads nowhere by now
  have hbare (x : NodeId) : g3.predecessor? x ≠ some id := by
    simp only [h3.predecessor?, h2.predecessor?, hpred]
    split_ifs <;> simp [Option.or_eq_some_iff, Option.filter_eq_some_iff]
  refine (meets_delete h3.consistent.packed id).mono (fun _ g4 h4 => ?_) fun _ hfail => absurd ?_ hfail
  · obtain ⟨m, h4⟩ := h4
    have hm (x : NodeId) : m.uses .successors x = 0 := by
      rw [← uses_of_node? h4.node, h3.consistent.uses_successors, if_neg (hbare x)]
    refine ⟨⟨fun x => ?_, fun x hx => ?_, fun x hx => ?_, h4.consistent h3.consistent⟩, hfree⟩
    · rw [h4.isAlive, h3.isAlive, h2.isAlive, h1.isAlive]
    · rw [h4.node?, if_neg hx, h3.node?, h2.node?, h1.node?, if_neg hx, Option.map_map]
      rfl
    · rw [h4.predecessor?, hm, if_neg (lt_irrefl 0), h3.predecessor?, if_neg hx]
      simp only [h2.predecessor?, hpred]
  · exact {
      alive := by rw [h3.isAlive, hid2]
      unused := users_eq_nil_iff.2 fun u => by rw [h3.users, users_eq_nil_iff.1 h2.unused]
      unpreceded := hid3
      registered := fun d t ht => h3.consistent.registered_target ht }

/-- Between two nodes that are alive, replacing one by the other at its users succeeds and exchanges
the slots that held it; replacing it everywhere fails exactly if both have a predecessor but the node
itself, and otherwise the other node stands for it. -/
theorem replacement_effect (hg : g.Consistent) (hid : g.isAlive id = true)
    (hother : g.isAlive other = true) (hne : id ≠ other) :
    (∃ g', replaceAtUsages id (some other) g = .ok ((), g') ∧ Exchanges g g' id (some other)) ∧
    ((∃ cause, replaceAndDelete id other g = .error cause) ↔
      (∃ p, g.predecessor? id = some p ∧ p ≠ id) ∧ ∃ q, g.predecessor? other = some q ∧ q ≠ id) ∧
    ∀ g', replaceAndDelete id other g = .ok ((), g') → Supersedes g g' id other := by
  have hiff (x : NodeId) : (g.predecessor? x).filter (· ≠ id) ≠ none ↔
      ∃ p, g.predecessor? x = some p ∧ p ≠ id := by
    simp [Option.filter_eq_none_iff]
  have hmeets := meets_supersede hg hid hother hne
  refine ⟨?_, ?_, fun g' hrun => (hmeets.of_ok hrun).1⟩
  · have hnew : some other ≠ some id := by simpa using hne.symm
    obtain ⟨_, g', hrun, h⟩ := (meets_exchange hg (registered_of_isAlive hid) hnew
      (by rintro _ ⟨⟩; exact hother)).exists_ok
    exact ⟨g', hrun, h⟩
  · rw [← hiff, ← hiff]
    refine ⟨fun ⟨cause, hrun⟩ => hmeets.of_error hrun, fun hboth => ?_⟩
    cases hrun : replaceAndDelete id other g with
    | error cause => exact ⟨cause, rfl⟩
    | ok r => exact absurd (hmeets.of_ok hrun).2 (by simpa using hboth)

/-- The middle one of three nodes in a row is replaced by the last one, which it leads to. -/
theorem replacement_effect_successor :
    ∃ g g', Call.runAll [.add (.begin none), .add (.begin (some ⟨0⟩)), .add (.begin (some ⟨1⟩))]
        (empty "") = .ok ((), g) ∧
      replaceAndDelete ⟨1⟩ ⟨0⟩ g = .ok ((), g') ∧ g'.predecessor? ⟨0⟩ = some ⟨2⟩ ∧
      Supersedes g g' ⟨1⟩ ⟨0⟩ := by
  have hrun : Call.runAll [.add (.begin none), .add (.begin (some ⟨0⟩)), .add (.begin (some ⟨1⟩))]
      (empty "") = .ok ((), _) := rfl
  refine ⟨_, _, hrun, rfl, rfl, ?_⟩
  exact (replacement_effect (Call.consistent_of_runAll (by simp [Call.WiresDeleted]) hrun) rfl rfl
    (by decide)).2.2 _ rfl

end SeaOfNodes.Graph
