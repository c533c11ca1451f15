import Mathlib.Tactic
import SeaOfNodes.Graph.UsageList

/-!
# Usage lists as lists

A packed usage list is read through its entries in order. Adding appends; removing an entry puts the
last one in its place. So a packed list stays packed, and every user is listed as often as it was
added and not removed. Whatever is done to a list, it is read as the plain list to which the same is
done.
-/

namespace SeaOfNodes.UsageList

variable {l l' : UsageList} {xs : List NodeId} {user : NodeId}

/-- The places hold the entries `xs` in order and nothing behind them. -/
structure Packs (l : UsageList) (xs : List NodeId) : Prop where
  get? : ∀ i, l.get? i = xs[i]?
  extraCount : l.extraCount = xs.length - 2

/-! ### Reading -/

theorem Packs.size (h : l.Packs xs) : l.size = xs.length := by
  have h0 : l.first = xs[0]? := h.get? 0
  have h1 : l.second = xs[1]? := h.get? 1
  have hc := h.extraCount
  match xs with
  | [] => simp [UsageList.size, h0]
  | [a] => simp_all [UsageList.size]
  | a :: b :: rest => simp_all [UsageList.size]; omega

theorem Packs.toList (h : l.Packs xs) : l.toList = xs := by
  rw [UsageList.toList, h.size, funext h.get?]
  apply List.ext_getElem?
  intro i
  have key : (List.range xs.length).filterMap (xs[·]?) = xs := by
    rw [List.filterMap_congr (g := fun i => some (xs.getD i default))]
    · apply List.ext_getElem
      · simp
      · intro n h₁ h₂
        simp [List.getElem?_eq_getElem h₂]
    · intro i hi
      rw [List.mem_range] at hi
      simp [List.getElem?_eq_getElem hi]
  rw [key]

theorem Packs.isEmpty (h : l.Packs xs) : l.isEmpty = xs.isEmpty := by
  have h0 : l.first = xs[0]? := h.get? 0
  cases xs <;> simp_all [UsageList.isEmpty]

theorem Packs.extraCount_le (h : l.Packs xs) : l.extraCount ≤ l.extra.size := by
  by_contra hlt
  have hx : (l.extra[l.extra.size]?).join = xs[l.extra.size + 2]? := h.get? (l.extra.size + 2)
  have hc := h.extraCount
  rw [Array.getElem?_eq_none (by omega), List.getElem?_eq_getElem (by omega)] at hx
  cases hx

theorem Packs.isPacked (h : l.Packs xs) : l.isPacked := by
  have h0 : l.first = xs[0]? := h.get? 0
  have h1 : l.second = xs[1]? := h.get? 1
  have hx : ∀ i, (l.extra[i]?).join = xs[i + 2]? := fun i => h.get? (i + 2)
  have hc := h.extraCount
  have htake : ∀ x ∈ l.extra.toList.take l.extraCount, x.isSome := by
    intro x hm
    obtain ⟨i, hi, rfl⟩ := List.mem_take_iff_getElem.1 hm
    have := hx i
    simp only [Array.length_toList] at hi
    rw [Array.getElem?_eq_getElem (by omega), List.getElem?_eq_getElem (by omega)] at this
    simp only [Array.getElem_toList]
    rw [Option.join_some] at this
    simp [this]
  have hdrop : ∀ x ∈ l.extra.toList.drop l.extraCount, x.isNone := by
    intro x hm
    obtain ⟨i, hi, rfl⟩ := List.mem_drop_iff_getElem.1 hm
    simp only [Array.length_toList] at hi
    have := hx (l.extraCount + i)
    rw [Array.getElem?_eq_getElem (by omega), List.getElem?_eq_none (by omega)] at this
    simp only [Array.getElem_toList]
    rw [Option.join_some] at this
    simp [this]
  simp only [UsageList.isPacked, Bool.and_eq_true, List.all_eq_true, decide_eq_true_eq]
  refine ⟨⟨⟨⟨h.extraCount_le, ?_⟩, ?_⟩, htake⟩, hdrop⟩
  · match xs with
    | [] => simp_all
    | _ :: _ => simp_all
  · match xs with
    | [] | [_] => simp_all
    | _ :: _ :: _ => simp_all

/-- The overflow of a packed list holds entries up to its count and nothing from there on. -/
theorem packs_of_isPacked (h : l.isPacked) : ∃ xs, l.Packs xs := by
  simp only [UsageList.isPacked, Bool.and_eq_true, Bool.or_eq_true, List.all_eq_true,
    beq_iff_eq, decide_eq_true_eq] at h
  obtain ⟨⟨⟨⟨hb, hfirst⟩, hsecond⟩, htake⟩, hdrop⟩ := h
  have live : ∀ i (hi : i < l.extraCount), ∃ a, l.extra[i]? = some (some a) := fun i hi => by
    have := htake _ (List.mem_take_iff_getElem.2 ⟨i, by simpa using ⟨hi, by omega⟩, rfl⟩)
    obtain ⟨a, ha⟩ := Option.isSome_iff_exists.1 this
    exact ⟨a, by rw [Array.getElem?_eq_getElem (by omega)]; simpa using ha⟩
  have rest : ∀ i, l.extraCount ≤ i → (l.extra[i]?).join = none := fun i hi => by
    by_cases hlt : i < l.extra.size
    · have := hdrop l.extra[i] (List.mem_drop_iff_getElem.2
        ⟨i - l.extraCount, by simp; omega, by simp; congr 1; omega⟩)
      rw [Array.getElem?_eq_getElem hlt]
      simpa using this
    · rw [Array.getElem?_eq_none (by omega)]; rfl
  have empty (h0 : l.extraCount = 0) (i : Nat) : (l.extra[i]?).join = none := rest i (by omega)
  cases h0 : l.first with
  | none =>
    have h2 : l.second = none ∧ l.extraCount = 0 := by simpa [h0] using hfirst
    refine ⟨[], fun i => ?_, by simp [h2.2]⟩
    match i with
    | 0 => exact h0
    | 1 => exact h2.1
    | i + 2 => exact empty h2.2 i
  | some a =>
    cases h1 : l.second with
    | none =>
      have h2 : l.extraCount = 0 := by simpa [h1] using hsecond
      refine ⟨[a], fun i => ?_, by simp [h2]⟩
      match i with
      | 0 => exact h0
      | 1 => exact h1
      | i + 2 => exact empty h2 i
    | some b =>
      choose f hf using live
      refine ⟨a :: b :: List.ofFn fun i : Fin l.extraCount => f i i.2, fun i => ?_, by simp⟩
      match i with
      | 0 => exact h0
      | 1 => exact h1
      | i + 2 =>
        show (l.extra[i]?).join = _
        by_cases hi : i < l.extraCount
        · simp [hf i hi, hi]
        · simp [rest i (by omega), hi]

/-- A list is packed if its places hold its entries in order and nothing behind them. -/
def Packed (l : UsageList) : Prop := l.Packs l.toList

theorem Packs.packed (h : l.Packs xs) : l.Packed := by rwa [Packed, h.toList]

/-- A list is packed exactly if the test says so. -/
theorem packed_iff : l.Packed ↔ l.isPacked := by
  refine ⟨Packs.isPacked, fun h => ?_⟩
  obtain ⟨xs, hxs⟩ := packs_of_isPacked h
  exact hxs.packed

theorem packs_empty : UsageList.empty.Packs [] := by
  refine ⟨fun i => ?_, rfl⟩
  match i with
  | 0 | 1 => rfl
  | i + 2 => simp [UsageList.empty, UsageList.get?]

/-! ### Writing -/

theorem get?_put (p i : Nat) (value : Option NodeId) (h : p < l.extra.size + 2) :
    (l.put p value).get? i = if i = p then value else l.get? i := by
  match p, i with
  | 0, 0 | 0, 1 | 1, 0 | 1, 1 | 0, _ + 2 | 1, _ + 2 | _ + 2, 0 | _ + 2, 1 => rfl
  | p + 2, i + 2 =>
    show ((l.extra.setIfInBounds p value)[i]?).join = if i + 2 = p + 2 then _ else _
    rw [Array.getElem?_setIfInBounds]
    by_cases hip : p = i
    · subst hip
      simp [show p < l.extra.size by omega]
    · simp [hip, Ne.symm hip, UsageList.get?]

theorem get?_grow (i : Nat) : l.grow.get? i = l.get? i := by
  match i with
  | 0 | 1 => rfl
  | i + 2 =>
    show ((l.extra ++ Array.replicate _ none)[i]?).join = (l.extra[i]?).join
    rw [Array.getElem?_append]
    split
    · rfl
    · rw [Array.getElem?_replicate, Array.getElem?_eq_none (show l.extra.size ≤ _ by omega)]
      split_ifs <;> rfl

theorem Packs.grow (h : l.Packs xs) : l.grow.Packs xs :=
  ⟨fun i => (get?_grow i).trans (h.get? i), h.extraCount⟩

/-- Adding to a list with two entries and room behind them. -/
theorem Packs.put_extra (h : l.Packs xs) (h2 : 2 ≤ xs.length) (room : l.extraCount < l.extra.size) :
    { l with extra := l.extra.setIfInBounds l.extraCount (some user)
             extraCount := l.extraCount + 1 : UsageList }.Packs (xs ++ [user]) := by
  have hc := h.extraCount
  refine ⟨fun i => ?_, by simp [hc]; omega⟩
  have hput := get?_put (l := l) (l.extraCount + 2) i (some user) (by omega)
  rw [h.get? i] at hput
  refine Eq.trans ?_ (hput.trans ?_)
  · match i with
    | 0 | 1 | _ + 2 => rfl
  · by_cases hi : i = xs.length
    · subst hi
      simp [show xs.length = l.extraCount + 2 by omega]
    · rw [if_neg (by omega), List.getElem?_append]
      split
      · rfl
      · rw [List.getElem?_eq_none (by omega), List.getElem?_eq_none (by simp; omega)]

theorem Packs.add (h : l.Packs xs) (user : NodeId) : (l.add user).Packs (xs ++ [user]) := by
  have h0 : l.first = xs[0]? := h.get? 0
  have h1 : l.second = xs[1]? := h.get? 1
  have hc := h.extraCount
  match xs with
  | [] =>
    rw [UsageList.add, if_pos (by simp [h0])]
    refine ⟨fun i => ?_, hc⟩
    match i with
    | 0 => rfl
    | 1 => exact h.get? 1
    | i + 2 => exact h.get? (i + 2)
  | [a] =>
    rw [UsageList.add, if_neg (by simp [h0]), if_pos (by simp [h1])]
    refine ⟨fun i => ?_, hc⟩
    match i with
    | 0 => exact h.get? 0
    | 1 => rfl
    | i + 2 => exact h.get? (i + 2)
  | a :: b :: rest =>
    rw [UsageList.add, if_neg (by simp [h0]), if_neg (by simp [h1])]
    have hle := h.extraCount_le
    by_cases full : l.extraCount = l.extra.size
    · simp only [if_pos full]
      refine h.grow.put_extra (by simp) ?_
      simp only [UsageList.grow, Array.size_append, Array.size_replicate]
      split <;> omega
    · simp only [if_neg full]
      exact h.put_extra (by simp) (by omega)

theorem Packs.removeAt (h : l.Packs xs) {place : Nat} (hp : place < xs.length) :
    (l.removeAt place).Packs ((xs.set place (xs.getLast (by rintro rfl; simp at hp))).dropLast) := by
  have hle := h.extraCount_le
  have hc := h.extraCount
  have hsize (p : Nat) (v : Option NodeId) : (l.put p v).extra.size = l.extra.size := by
    match p with
    | 0 | 1 => rfl
    | p + 2 => simp [UsageList.put]
  have hcount (l : UsageList) (p : Nat) (v : Option NodeId) :
      (l.put p v).extraCount = l.extraCount := by
    match p with
    | 0 | 1 | _ + 2 => rfl
  have hlast : xs[xs.length - 1]? = some (xs.getLast (by rintro rfl; simp at hp)) := by
    rw [List.getLast_eq_getElem, List.getElem?_eq_getElem]
  have key : ∀ i, ((l.put place (l.get? (l.size - 1))).put (l.size - 1) none).get? i =
      ((xs.set place (xs.getLast (by rintro rfl; simp at hp))).dropLast)[i]? := by
    intro i
    rw [h.size, get?_put _ _ _ (by rw [hsize]; omega), get?_put _ _ _ (by omega), h.get?, h.get?,
      hlast, List.getElem?_dropLast, List.getElem?_set, List.length_set]
    by_cases hi : i = xs.length - 1
    · simp [hi]
    · by_cases hlt : i < xs.length - 1
      · by_cases hpi : place = i
        · subst hpi
          simp [hi, hlt, hp]
        · simp [hi, hlt, hpi, Ne.symm hpi]
      · rw [if_neg hi, if_neg (by omega), if_neg hlt, List.getElem?_eq_none (by omega)]
  rw [UsageList.removeAt]
  simp only [h.size] at key ⊢
  by_cases h2 : 2 ≤ xs.length - 1
  · rw [if_pos h2]
    refine ⟨fun i => Eq.trans ?_ (key i), ?_⟩
    · match i with
      | 0 | 1 | _ + 2 => rfl
    · simp [hcount, hc]; omega
  · rw [if_neg h2]
    exact ⟨key, by simp [hcount, hc]; omega⟩

/-! ### Users and their number -/

theorem mem_toList_iff_contains : user ∈ l.toList ↔ l.contains user := by
  simp [contains, indexOf?, List.findIdx?_isSome]

theorem Packed.toList_add (h : l.Packed) : (l.add user).toList = l.toList ++ [user] :=
  (h.add user).toList

theorem Packed.add (h : l.Packed) : (l.add user).Packed := (Packs.add h user).packed

theorem remove?_eq_none_iff : l.remove? user = none ↔ user ∉ l.toList := by
  rw [remove?, Option.map_eq_none_iff, indexOf?, List.findIdx?_eq_none_iff]
  exact ⟨fun h hm => by simpa using h _ hm, fun h x hx => by simpa using fun e : x = user => h (e ▸ hx)⟩

/-- Overwriting an entry by the last one takes out one occurrence of it. -/
theorem set_getLast_dropLast_perm (xs : List NodeId) {i : Nat} (hi : i < xs.length) :
    ((xs.set i (xs.getLast (by rintro rfl; simp at hi))).dropLast).Perm (xs.eraseIdx i) := by
  obtain ⟨ys, z, rfl⟩ : ∃ ys z, xs = ys ++ [z] :=
    ⟨xs.dropLast, xs.getLast (by rintro rfl; simp at hi), (List.dropLast_append_getLast _).symm⟩
  simp only [List.getLast_append_singleton]
  by_cases hlt : i < ys.length
  · rw [List.set_append_left _ _ hlt, List.dropLast_concat, List.eraseIdx_append_of_lt_length hlt]
    exact (List.set_perm_cons_eraseIdx hlt z).trans (List.perm_append_singleton z _).symm
  · have hi' : i = ys.length := by simp at hi; omega
    subst hi'
    simp [List.eraseIdx_append_of_length_le]

theorem Packed.remove? (h : l.Packed) (hr : l.remove? user = some l') :
    l'.Packed ∧ l.toList.Perm (user :: l'.toList) := by
  obtain ⟨i, hi, rfl⟩ := Option.map_eq_some_iff.1 hr
  obtain ⟨hlt, heq, -⟩ := List.findIdx?_eq_some_iff_getElem.1 hi
  have hp := Packs.removeAt h hlt
  refine ⟨hp.packed, ?_⟩
  rw [hp.toList]
  have hperm := List.getElem_cons_eraseIdx_perm hlt
  rw [show l.toList[i] = user by simpa using heq] at hperm
  exact hperm.symm.trans ((set_getLast_dropLast_perm _ hlt).symm.cons user)

/-! ### Runs -/

/-- What is done to a list of users; a removal answers whether there was an entry to remove. -/
inductive Act
  | add (user : NodeId)
  | remove (user : NodeId)
  | clear

/-- An act on a usage list. -/
def act (l : UsageList) : Act → UsageList × Option Bool
  | .add user => (l.add user, none)
  | .remove user => ((l.remove? user).getD l, some (l.remove? user).isSome)
  | .clear => (.empty, none)

/-- The last entry overwrites the one at a place. -/
def swapRemove (xs : List NodeId) (i : Nat) : List NodeId :=
  match xs.getLast? with
  | some last => (xs.set i last).dropLast
  | none => []

/-- The same act on a plain list of entries. -/
def actPlain (xs : List NodeId) : Act → List NodeId × Option Bool
  | .add user => (xs ++ [user], none)
  | .remove user =>
    match xs.idxOf? user with
    | some i => (swapRemove xs i, some true)
    | none => (xs, some false)
  | .clear => ([], none)

/-- Acts in turn, and what each of them answers. -/
def run {σ : Type} (act : σ → Act → σ × Option Bool) : σ → List Act → σ × List (Option Bool)
  | s, [] => (s, [])
  | s, a :: rest => ((run act (act s a).1 rest).1, (act s a).2 :: (run act (act s a).1 rest).2)

theorem Packs.indexOf? (h : l.Packs xs) (user : NodeId) : l.indexOf? user = xs.idxOf? user := by
  rw [UsageList.indexOf?, h.toList]
  rfl

theorem Packs.act (h : l.Packs xs) (a : Act) :
    (l.act a).1.Packs (actPlain xs a).1 ∧ (l.act a).2 = (actPlain xs a).2 := by
  cases a with
  | add user => exact ⟨h.add user, rfl⟩
  | clear => exact ⟨packs_empty, rfl⟩
  | remove user =>
    rw [UsageList.act, actPlain, remove?, h.indexOf?]
    cases hi : xs.idxOf? user with
    | none => exact ⟨h, rfl⟩
    | some i =>
      have hlt : i < xs.length := (List.findIdx?_eq_some_iff_getElem.1 hi).1
      refine ⟨?_, rfl⟩
      have hlast := List.getLast?_eq_some_getLast (List.ne_nil_of_length_pos (Nat.zero_lt_of_lt hlt))
      simp only [swapRemove, hlast]
      exact h.removeAt hlt

theorem Packs.run (h : l.Packs xs) (acts : List Act) :
    (UsageList.run UsageList.act l acts).1.Packs (UsageList.run actPlain xs acts).1 ∧
      (UsageList.run UsageList.act l acts).2 = (UsageList.run actPlain xs acts).2 := by
  induction acts generalizing l xs with
  | nil => exact ⟨h, rfl⟩
  | cons a rest ih =>
    obtain ⟨hl, ha⟩ := h.act a
    obtain ⟨hrun, hanswers⟩ := ih hl
    exact ⟨hrun, congrArg₂ List.cons ha hanswers⟩

/-- The list is packed, and every question about it is answered as for its entries `xs`. -/
structure Answers (l : UsageList) (xs : List NodeId) : Prop where
  isPacked : l.isPacked = true
  toList : l.toList = xs
  size : l.size = xs.length
  get? : ∀ i, l.get? i = xs[i]?
  indexOf? : ∀ user, l.indexOf? user = xs.idxOf? user
  contains : ∀ user, l.contains user = decide (user ∈ xs)
  countOf : ∀ user, l.countOf user = xs.count user
  capacity : xs.length - 2 ≤ l.capacity

theorem Packs.answers (h : l.Packs xs) : l.Answers xs where
  isPacked := h.isPacked
  toList := h.toList
  size := h.size
  get? := h.get?
  indexOf? := h.indexOf?
  contains user := by rw [Bool.eq_iff_iff, ← mem_toList_iff_contains, h.toList, decide_eq_true_eq]
  countOf user := by rw [UsageList.countOf, h.toList]
  capacity := h.extraCount ▸ h.extraCount_le

/-- After any acts, a usage list is the list that the same acts make of a plain list, and each
removal answers the same. -/
theorem run_answers (acts : List Act) :
    (run act .empty acts).1.Answers (run actPlain [] acts).1 ∧
      (run act .empty acts).2 = (run actPlain [] acts).2 := by
  obtain ⟨hpacks, hanswers⟩ := packs_empty.run acts
  exact ⟨hpacks.answers, hanswers⟩

end SeaOfNodes.UsageList
