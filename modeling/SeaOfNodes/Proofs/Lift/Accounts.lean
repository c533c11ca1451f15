import SeaOfNodes.Proofs.Graph.Building

/-!
# Accounts of unfinished control flow

While a method is lifted, the unfinished nodes of its graph are known: some are in the lifter's hands,
and others wait where a block is entered or control goes on. The accounts list them without
repetition. If they are exact, there are no others; if not, a node listed as lacking a successor may
have got one.
-/

namespace SeaOfNodes

open Graph

/-- Notes that do not hold in a finished control flow. -/
def Note.isDebt : Note → Bool
  | .loose | .gap | .unlisted => true
  | .held | .quiet => false

/-- The notes that are owed hold. If the accounts are exact, there are no debts beside them. -/
structure Accounts (exact : Bool) (g : Graph) (owed : List (Note × NodeId)) : Prop where
  nodup : owed.Nodup
  registered : ∀ q ∈ owed, (g.node? q.2).isSome
  holds : ∀ k x, (k, x) ∈ owed → (k = .gap → exact = true) → g.Notes k x
  all : exact = true → ∀ k x, k.isDebt = true → g.Notes k x → (k, x) ∈ owed

namespace Accounts

variable {exact : Bool} {g g' : Graph} {owed owed' made rest : List (Note × NodeId)}
  {id : NodeId} {c : NodeClass} {old : Option NodeId} {q : Note × NodeId}

theorem perm (h : Accounts exact g owed) (hp : owed.Perm owed') : Accounts exact g owed' where
  nodup := hp.nodup_iff.1 h.nodup
  registered q hq := h.registered q (hp.mem_iff.2 hq)
  holds k x hx := h.holds k x (hp.mem_iff.2 hx)
  all he k x hk hx := hp.mem_iff.1 (h.all he k x hk hx)

/-- What a move of the graph does to the accounts: some notes are paid, and new nodes bring new
ones. -/
theorem exchange (paid new : List (Note × NodeId)) {lost : List (Note × NodeId)}
    (h : Accounts exact g (paid ++ rest)) (hm : Moves g g' made lost)
    (hlost : ∀ q ∈ lost, (q.1 = .gap → exact) → q ∈ paid)
    (hpaid : exact → ∀ q ∈ paid, q.1.isDebt → q ∈ lost)
    (hnew : ∀ q ∈ new, q ∈ made ∧ g.node? q.2 = none) (hnodup : new.Nodup)
    (hmade : exact → ∀ q ∈ made, q.1.isDebt → q ∈ new) :
    Accounts exact g' (new ++ rest) := by
  obtain ⟨-, hrest, hdisjoint⟩ := List.nodup_append.1 h.nodup
  have hkeeps (q : Note × NodeId) (hq : (g.node? q.2).isSome) : (g'.node? q.2).isSome := by
    obtain ⟨n, hn⟩ := Option.isSome_iff_exists.1 hq
    exact registered_of_cls? (hm.keepsOps _ _ (cls?_of_node? hn))
  refine ⟨?_, fun q hq => ?_, fun k x hx hk => ?_, fun he k x hk hx => ?_⟩
  · refine List.nodup_append.2 ⟨hnodup, hrest, fun q hq r hr hqr => ?_⟩
    have := h.registered r (List.mem_append_right _ hr)
    rw [← hqr, (hnew q hq).2] at this
    cases this
  · rcases List.mem_append.1 hq with hq | hq
    · exact ((hm.notes _ _).2 (.inl (hnew q hq).1)).registered
    · exact hkeeps q (h.registered q (List.mem_append_right _ hq))
  · rw [hm.notes]
    rcases List.mem_append.1 hx with hx | hx
    · exact .inl (hnew _ hx).1
    · exact .inr ⟨h.holds k x (List.mem_append_right _ hx) hk,
        fun hl => hdisjoint _ (hlost _ hl hk) _ hx rfl⟩
  · rcases (hm.notes k x).1 hx with hx | ⟨hx, hl⟩
    · exact List.mem_append_left _ (hmade he _ hx hk)
    · refine List.mem_append_right _ ((List.mem_append.1 (h.all he k x hk hx)).resolve_left fun hp => ?_)
      exact hl (hpaid he _ hp hk)

/-- A change without notes. -/
theorem keep (h : Accounts exact g owed) (hm : Moves g g' [] []) : Accounts exact g' owed :=
  exchange [] [] h hm nofun nofun nofun .nil nofun

theorem snd_of_mem_notesOf (h : q ∈ notesOf c id) : q.2 = id := by
  simp only [notesOf, List.mem_append] at h
  rcases h with ((h | h) | h) | h <;> split at h <;> simp_all

theorem nodup_notesOf (c : NodeClass) (id : NodeId) : (notesOf c id).Nodup := by
  unfold notesOf
  split <;> split <;> split <;> split <;> simp

/-- A new node brings its notes. -/
theorem add (held : List (Note × NodeId)) (h : Accounts exact g owed)
    (hm : Moves g g' (notesOf c id ++ held) []) (hid : g.node? id = none)
    (hheld : ∀ q ∈ held, q.1.isDebt = false) : Accounts exact g' (notesOf c id ++ owed) := by
  refine exchange [] _ h hm nofun nofun (fun q hq => ?_) (nodup_notesOf c id)
    fun _ q hq hk => ?_
  · exact ⟨List.mem_append_left _ hq, by rw [snd_of_mem_notesOf hq, hid]⟩
  · refine (List.mem_append.1 hq).resolve_right fun hq => ?_
    simp [hheld q hq] at hk

/-- Notes are settled. -/
theorem settle (lost : List (Note × NodeId)) (h : Accounts exact g (lost ++ rest)) (hm : Moves g g' [] lost) :
    Accounts exact g' rest :=
  exchange lost [] h hm (fun _ hq _ => hq) (fun _ _ hq _ => hq) nofun .nil nofun

/-- Control goes on from one node to another. -/
theorem link {x t : NodeId} (h : Accounts exact g ((.gap, x) :: (.loose, t) :: rest))
    (hm : Moves g g' (old.toList.map ((.loose, ·))) [(.gap, x), (.loose, t)])
    (hold : g.Notes .gap x → old = none) : Accounts exact g' rest := by
  refine exchange [(.gap, x), (.loose, t)] [] h hm (fun _ hq _ => hq)
    (fun _ _ hq _ => hq) nofun .nil fun he q hq _ => ?_
  rw [hold (h.holds .gap x (by simp) fun _ => he)] at hq
  cases hq

/-- A note that is no debt may be forgotten, and any note if the accounts need not be exact. -/
theorem drop (h : Accounts exact g (q :: rest))
    (hq : exact → q.1.isDebt = false) : Accounts exact g rest := by
  refine exchange [q] [] h (.refl g) nofun (fun he r hr hk => ?_) nofun .nil nofun
  obtain rfl : r = q := by simpa using hr
  simp [hq he] at hk

/-- The debt of a node from which control is to go on, where the accounts must know of it. -/
def gapIf (exact : Bool) (x : NodeId) : List (Note × NodeId) := if exact then [(.gap, x)] else []

/-- Control goes on from a node that inexact accounts need not list. -/
theorem link_gapIf {x t : NodeId} (h : Accounts exact g ((.loose, t) :: (gapIf exact x ++ rest)))
    (hm : Moves g g' (old.toList.map ((.loose, ·))) [(.gap, x), (.loose, t)])
    (hold : g.Notes .gap x → old = none) : Accounts exact g' rest := by
  cases exact with
  | true => exact (h.perm (.swap ..)).link hm hold
  | false =>
    refine exchange [(.loose, t)] [] h hm (fun q hq hk => ?_) nofun nofun .nil nofun
    rcases List.mem_cons.1 hq with rfl | hq
    · exact absurd (hk rfl) (by decide)
    · exact hq

end Accounts

end SeaOfNodes
