import Mathlib.Tactic
import SeaOfNodes.Arena

/-!
# Lists without repetition

Sorting a list and dropping entries equal to the one before leaves each entry once, as dropping entries
equal to any before does.
-/

namespace SeaOfNodes

variable {α : Type} [DecidableEq α]

theorem eraseRepsBy_loop (a : α) (l acc : List α) :
    List.eraseRepsBy.loop (· == ·) a l acc = acc.reverse ++ (a :: l).eraseReps := by
  induction l generalizing a acc with
  | nil => simp [List.eraseReps, List.eraseRepsBy, List.eraseRepsBy.loop]
  | cons b rest ih =>
    rw [List.eraseReps, List.eraseRepsBy, List.eraseRepsBy.loop, List.eraseRepsBy.loop]
    cases hab : a == b with
    | true | false => simp [ih]

theorem eraseReps_cons_cons (a b : α) (l : List α) :
    (a :: b :: l).eraseReps = if a = b then (a :: l).eraseReps else a :: (b :: l).eraseReps := by
  rw [List.eraseReps, List.eraseRepsBy, List.eraseRepsBy.loop]
  by_cases hab : a = b
  · simp [hab, eraseRepsBy_loop]
  · have : (a == b) = false := by simpa using hab
    simp [hab, this, eraseRepsBy_loop]

@[simp] theorem mem_eraseReps {x : α} {l : List α} : x ∈ l.eraseReps ↔ x ∈ l := by
  match l with
  | [] => rfl
  | [a] => simp [List.eraseReps, List.eraseRepsBy, List.eraseRepsBy.loop]
  | a :: b :: rest =>
    rw [eraseReps_cons_cons]
    split
    · rw [mem_eraseReps]
      simp_all
    · rw [List.mem_cons, mem_eraseReps, ← List.mem_cons]
termination_by l.length

theorem nodup_eraseReps {r : α → α → Prop} [Std.Antisymm r] {l : List α} (h : l.Pairwise r) :
    l.eraseReps.Nodup := by
  match l with
  | [] => exact .nil
  | [a] => simp [List.eraseReps, List.eraseRepsBy, List.eraseRepsBy.loop]
  | a :: b :: rest =>
    rw [eraseReps_cons_cons]
    split
    · exact nodup_eraseReps (r := r) (h.sublist (by simp))
    · rename_i hab
      refine List.nodup_cons.2 ⟨fun hm => ?_, nodup_eraseReps (r := r) h.of_cons⟩
      rw [mem_eraseReps, List.mem_cons] at hm
      obtain rfl | hm := hm
      · exact hab rfl
      · exact hab (Std.Antisymm.antisymm _ _ (List.rel_of_pairwise_cons h (by simp))
          (List.rel_of_pairwise_cons h.of_cons hm))
termination_by l.length

theorem nodup_eraseDups (l : List α) : l.eraseDups.Nodup := by
  match l with
  | [] => exact .nil
  | a :: rest =>
    rw [List.eraseDups_cons, List.nodup_cons, List.mem_eraseDups]
    exact ⟨by simp, nodup_eraseDups _⟩
termination_by l.length
decreasing_by exact Nat.lt_succ_of_le (List.length_filter_le ..)

variable {τ : Type}

/-- Handles sorted by age, each once. -/
theorem nodup_eraseReps_mergeSort (l : List (Handle τ)) : (l.mergeSort Handle.le).eraseReps.Nodup := by
  have hs : (l.mergeSort Handle.le).Pairwise fun a b => Handle.le a b :=
    List.pairwise_mergeSort (fun a b c => by simp [Handle.le]; omega)
      (fun a b => by simp [Handle.le]; omega) l
  have : Std.Antisymm fun a b : Handle τ => Handle.le a b := ⟨fun a b h1 h2 => by
    simp only [Handle.le, decide_eq_true_eq] at h1 h2
    cases a; cases b
    simp only [Handle.mk.injEq]
    exact Nat.le_antisymm h1 h2⟩
  exact nodup_eraseReps hs

end SeaOfNodes
