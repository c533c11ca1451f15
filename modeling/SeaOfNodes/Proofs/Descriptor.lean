import Mathlib.Data.List.TakeDrop
import Mathlib.Data.List.TakeWhile
import SeaOfNodes.Descriptor

/-!
# What descriptors are read as

A descriptor lists field types in parentheses and then gives the type of the result. The reader gives
the kinds of every such text, unless a parenthesis stands in the name of a parameter's class. As it tells
a type by the first character, it also takes texts that are no descriptors.
-/

namespace SeaOfNodes.Signature

/-! ### Types -/

/-- Field types and their kinds. -/
inductive FieldType : List Char → Kind → Prop
  | base {c : Char} {k : Kind} (h : (c, k) ∈ [('B', .byte), ('C', .char), ('D', .double), ('F', .float),
      ('I', .int), ('J', .long), ('S', .short), ('Z', .boolean)]) : FieldType [c] k
  | named {name : List Char} (hne : name ≠ []) (h : ';' ∉ name) : FieldType ('L' :: (name ++ [';'])) .object
  | array {type : List Char} {k : Kind} (h : FieldType type k) : FieldType ('[' :: type) .object

/-- Where the reader lets a type end: a class may have no name, and the elements of an array may be of
any type. -/
inductive Delimited : List Char → Prop
  | char {c : Char} (hL : c ≠ 'L') (hA : c ≠ '[') : Delimited [c]
  | named {name : List Char} (h : ';' ∉ name) : Delimited ('L' :: (name ++ [';']))
  | array {type : List Char} (h : Delimited type) : Delimited ('[' :: type)

/-- The kind that the first character stands for. -/
def kindOf? (type : List Char) : Option Kind := type.head?.bind Kind.ofTypeChar?

/-- What the reader takes for a type. -/
structure Taken (type : List Char) (k : Kind) : Prop where
  delimited : Delimited type
  kind : kindOf? type = some k

/-- Types one after the other. -/
inductive Listed (T : List Char → Kind → Prop) : List Char → List Kind → Prop
  | nil : Listed T [] []
  | cons {t rest : List Char} {k : Kind} {ks : List Kind} (h : T t k) (hrest : Listed T rest ks) :
    Listed T (t ++ rest) (k :: ks)

theorem Listed.mono {T T' : List Char → Kind → Prop} {cs : List Char} {ks : List Kind} (h : Listed T cs ks)
    (hT : ∀ t k, T t k → T' t k) : Listed T' cs ks := by
  induction h with
  | nil => exact .nil
  | cons h _ ih => exact .cons (hT _ _ h) ih

theorem Listed.exists_type {T : List Char → Kind → Prop} {cs : List Char} {ks : List Kind}
    (h : Listed T cs ks) : ∀ k ∈ ks, ∃ t, T t k := by
  induction h with
  | nil => nofun
  | cons h _ ih =>
    intro k hk
    rcases List.mem_cons.1 hk with rfl | hk
    · exact ⟨_, h⟩
    · exact ih k hk

variable {s : String} {sig : Signature} {type inside result rest : List Char} {k : Kind}
  {ks : List Kind}

theorem FieldType.taken (h : FieldType type k) : Taken type k := by
  induction h with
  | base h =>
    simp only [List.mem_cons, Prod.mk.injEq, List.not_mem_nil, or_false] at h
    rcases h with h | h | h | h | h | h | h | h <;> obtain ⟨rfl, rfl⟩ := h <;>
      exact ⟨.char (by decide) (by decide), rfl⟩
  | named _ h => exact ⟨.named h, rfl⟩
  | array _ ih => exact ⟨.array ih.delimited, rfl⟩

/-! ### Reading parameters -/

theorem parameters?_name {name : List Char} (h : ';' ∉ name) (rest : List Char) :
    parameters? .name (name ++ ';' :: rest) = (parameters? .type rest).map (.object :: ·) := by
  induction name with
  | nil => simp [parameters?]
  | cons c name ih =>
    rw [List.mem_cons, not_or] at h
    rw [List.cons_append, parameters?, if_neg (Ne.symm h.1), ih h.2]

theorem Delimited.parameters?_element (h : Delimited type) (rest : List Char) :
    parameters? .element (type ++ rest) = (parameters? .type rest).map (.object :: ·) := by
  induction h with
  | char hL hA =>
    rw [List.singleton_append, parameters?]
    · exact hA
    · exact hL
  | named h => simpa [parameters?] using parameters?_name h rest
  | array _ ih => simpa [parameters?] using ih

theorem Taken.parameters?_type (h : Taken type k) (rest : List Char) :
    parameters? .type (type ++ rest) = (parameters? .type rest).map (k :: ·) := by
  obtain ⟨hd, hk⟩ := h
  cases hd with
  | @char c hL hA =>
    have hc : Kind.ofTypeChar? c = some k := hk
    rw [List.singleton_append, parameters?, hc]
    · cases parameters? .type rest <;> rfl
    · exact hL
    · exact hA
  | named h =>
    cases hk
    simpa [parameters?] using parameters?_name h rest
  | array h =>
    cases hk
    simpa [parameters?] using h.parameters?_element rest

/-- What stands before the rest of a type. -/
def Expect.before : Expect → List Char
  | .type => []
  | .name => ['L']
  | .element => ['[']

/-- A type that is an object is one also as the element of an array. -/
theorem Listed.array {c : Char} (h : Listed Taken (c :: rest) ks) (hc : c = 'L' ∨ c = '[') :
    Listed Taken ('[' :: c :: rest) ks := by
  generalize hcs : c :: rest = cs at h
  cases h with
  | nil => cases hcs
  | @cons type rest' k ks h hrest =>
    refine .cons (t := '[' :: type) ⟨.array h.delimited, ?_⟩ hrest
    cases h.delimited with
    | char hL hA =>
      obtain ⟨rfl, -⟩ := List.cons.inj hcs
      exact absurd hc (not_or.2 ⟨hL, hA⟩)
    | named _ | array _ => exact h.kind

/-- A class name may have one more character. -/
theorem Listed.name {c : Char} (h : Listed Taken ('L' :: rest) ks) (hc : c ≠ ';') :
    Listed Taken ('L' :: c :: rest) ks := by
  generalize hcs : 'L' :: rest = cs at h
  cases h with
  | nil => cases hcs
  | @cons type rest' k ks h hrest =>
    obtain ⟨hd, hk⟩ := h
    cases hd with
    | char hL _ => exact absurd (List.cons.inj hcs).1.symm hL
    | array _ => cases (List.cons.inj hcs).1
    | @named name hname =>
      obtain rfl := (List.cons.inj hcs).2
      refine .cons (t := 'L' :: (c :: name ++ [';'])) ⟨.named ?_, hk⟩ hrest
      rw [List.mem_cons, not_or]
      exact ⟨hc.symm, hname⟩

theorem listed_of_parameters? {e : Expect} {cs : List Char} (h : parameters? e cs = some ks) :
    Listed Taken (e.before ++ cs) ks := by
  fun_induction parameters? e cs generalizing ks with
  | case1 =>
    cases h
    exact .nil
  | case2 rest ih | case3 rest ih => exact ih h
  | case4 c rest hL hA ih =>
    obtain ⟨k, hk, h⟩ := Option.bind_eq_some_iff.1 h
    obtain ⟨ks, hks, ⟨⟩⟩ := Option.bind_eq_some_iff.1 h
    exact .cons (t := [c]) ⟨.char hL hA, hk⟩ (ih hks)
  | case5 => cases h
  | case6 rest ih =>
    obtain ⟨ks, hks, rfl⟩ := Option.map_eq_some_iff.1 h
    exact .cons (t := 'L' :: ([] ++ [';'])) ⟨.named List.not_mem_nil, rfl⟩ (ih hks)
  | case7 c rest hc ih => exact (ih h).name hc
  | case8 => cases h
  | case9 rest ih => exact (ih h).array (.inr rfl)
  | case10 rest ih => exact (ih h).array (.inl rfl)
  | case11 c rest hA hL ih =>
    obtain ⟨ks, hks, rfl⟩ := Option.map_eq_some_iff.1 h
    exact .cons (t := ['[', c]) ⟨.array (.char hL hA), rfl⟩ (ih hks)

theorem parameters?_eq_some_iff : parameters? .type inside = some ks ↔ Listed Taken inside ks := by
  constructor
  · exact listed_of_parameters?
  · intro h
    induction h with
    | nil => rfl
    | cons h _ ih => rw [h.parameters?_type, ih, Option.map_some]

/-! ### Parentheses in names -/

theorem ne_of_not_mem {l : List Char} (h : ')' ∉ l) : ∀ c ∈ l, decide (c ≠ ')') = true := by
  intro c hc
  rw [decide_eq_true_eq]
  rintro rfl
  exact h hc

theorem parameters?_name_cut {name : List Char} (h : ';' ∉ name) (hp : ')' ∈ name) (rest : List Char) :
    parameters? .name ((name ++ rest).takeWhile (· ≠ ')')) = none := by
  induction name with
  | nil => cases hp
  | cons c name ih =>
    rw [List.mem_cons, not_or] at h
    by_cases hc : c = ')'
    · simp [hc, parameters?]
    · have := ih h.2 ((List.mem_cons.1 hp).resolve_left (Ne.symm hc))
      simpa [hc, parameters?, Ne.symm h.1] using this

/-- Cut off inside a class name, a type is not taken. -/
theorem FieldType.parameters?_cut (h : FieldType type k) (hp : ')' ∈ type) :
    parameters? .type (type.takeWhile (· ≠ ')')) = none ∧
      parameters? .element (type.takeWhile (· ≠ ')')) = none := by
  induction h with
  | base h =>
    obtain rfl := List.mem_singleton.1 hp
    simp at h
  | @named name _ h =>
    have hname := parameters?_name_cut h (by simpa using hp) [';']
    simpa [parameters?] using hname
  | array _ ih =>
    have := (ih (by simpa using hp)).2
    simpa [parameters?] using this

theorem Listed.parameters?_cut (h : Listed FieldType inside ks) (hp : ')' ∈ inside) :
    parameters? .type (inside.takeWhile (· ≠ ')')) = none := by
  induction h with
  | nil => cases hp
  | @cons type rest k ks h _ ih =>
    by_cases ht : ')' ∈ type
    · have hcut : (type ++ rest).takeWhile (· ≠ ')') = type.takeWhile (· ≠ ')') := by
        rw [List.takeWhile_append, if_neg]
        intro heq
        have hall := List.takeWhile_eq_self_iff.1 ((List.takeWhile_sublist _).eq_of_length heq)
        exact absurd (hall _ ht) (by simp)
      rw [hcut]
      exact (h.parameters?_cut ht).1
    · rw [List.takeWhile_append_of_pos (ne_of_not_mem ht), h.taken.parameters?_type,
        ih ((List.mem_append.1 hp).resolve_left ht), Option.map_none]

/-! ### Descriptors -/

/-- A descriptor is read in two parts, before and after the first closing parenthesis. -/
theorem ofDescriptor?_eq (hs : s.toList = '(' :: (inside ++ ')' :: result)) (hp : ')' ∉ inside) :
    ofDescriptor? s =
      (parameters? .type inside).bind fun ks => (kindOf? result).map fun k => ⟨ks, k⟩ := by
  have hspan : (inside ++ ')' :: result).span (· ≠ ')') = (inside, ')' :: result) := by
    rw [List.span_eq_takeWhile_dropWhile, List.takeWhile_append_of_pos (ne_of_not_mem hp),
      List.dropWhile_append_of_pos (ne_of_not_mem hp)]
    simp
  unfold ofDescriptor?
  rw [hs]
  simp only [hspan]
  cases result with
  | nil => simp [kindOf?]
  | cons c rest =>
    dsimp only [kindOf?, List.head?_cons, Option.bind_some]
    cases parameters? .type inside <;> cases Kind.ofTypeChar? c <;> rfl

theorem ofDescriptor?_eq_some_iff : ofDescriptor? s = some sig ↔ ∃ inside result,
    s.toList = '(' :: (inside ++ ')' :: result) ∧ ')' ∉ inside ∧ Listed Taken inside sig.parameters ∧
      kindOf? result = some sig.result := by
  constructor
  · intro h
    match hs : s.toList with
    | [] => simp [ofDescriptor?, hs] at h
    | c :: rest =>
      by_cases hc : c = '('
      · subst hc
        by_cases hp : ')' ∈ rest
        · obtain ⟨inside, result, rfl, hinside⟩ := List.eq_append_cons_of_mem hp
          rw [ofDescriptor?_eq hs hinside] at h
          obtain ⟨ks, hks, h⟩ := Option.bind_eq_some_iff.1 h
          obtain ⟨k, hk, rfl⟩ := Option.map_eq_some_iff.1 h
          exact ⟨inside, result, rfl, hinside, parameters?_eq_some_iff.1 hks, hk⟩
        · have hdrop : rest.dropWhile (· ≠ ')') = [] := List.dropWhile_eq_nil_iff.2 (ne_of_not_mem hp)
          simp only [ofDescriptor?, hs, List.span_eq_takeWhile_dropWhile, hdrop] at h
          cases h
      · simp [ofDescriptor?, hs, hc] at h
  · rintro ⟨inside, result, hs, hp, hks, hk⟩
    rw [ofDescriptor?_eq hs hp, parameters?_eq_some_iff.2 hks, hk]
    rfl

/-- The two parts of a descriptor. -/
structure Describes (inside result : List Char) (sig : Signature) : Prop where
  parameters : Listed FieldType inside sig.parameters
  result : FieldType result sig.result ∨ result = ['V'] ∧ sig.result = .void

/-- A text is read if it goes in two parts at the first closing parenthesis, types as the reader
delimits them and a text whose first character stands for a kind. A descriptor is read as what it
describes, unless a parenthesis stands in its parameters. -/
theorem ofDescriptor?_reads (s : String) (sig : Signature) :
    (ofDescriptor? s = some sig ↔ ∃ inside result, s.toList = '(' :: (inside ++ ')' :: result) ∧
      ')' ∉ inside ∧ Listed Taken inside sig.parameters ∧ kindOf? result = some sig.result) ∧
    ∀ inside result, s.toList = '(' :: (inside ++ ')' :: result) → Describes inside result sig →
      ofDescriptor? s = if ')' ∈ inside then none else some sig := by
  refine ⟨ofDescriptor?_eq_some_iff, ?_⟩
  intro inside result hs hd
  split
  · rename_i hp
    have hcut := hd.parameters.parameters?_cut hp
    obtain ⟨before, after, rfl, hbefore⟩ := List.eq_append_cons_of_mem hp
    have hwhile : (before ++ ')' :: after).takeWhile (· ≠ ')') = before := by
      rw [List.takeWhile_append_of_pos (ne_of_not_mem hbefore)]
      simp
    rw [List.append_assoc, List.cons_append] at hs
    rw [ofDescriptor?_eq hs hbefore, ← hwhile, hcut, Option.bind_none]
  · rename_i hp
    refine ofDescriptor?_eq_some_iff.2 ⟨inside, result, hs, hp, ?_, ?_⟩
    · exact hd.parameters.mono fun _ _ h => h.taken
    · rcases hd.result with h | ⟨rfl, hk⟩
      · exact h.taken.kind
      · rw [hk]
        rfl

/-- Two parameters and no result. -/
theorem ofDescriptor?_reads_void : Describes ['I', '[', 'J'] ['V'] ⟨[.int, .object], .void⟩ ∧
    ofDescriptor? "(I[J)V" = some ⟨[.int, .object], .void⟩ := by
  have hd : Describes ['I', '[', 'J'] ['V'] ⟨[.int, .object], .void⟩ :=
    ⟨.cons (t := ['I']) (.base (by decide))
      (.cons (t := ['[', 'J']) (.array (k := .long) (.base (by decide))) .nil),
      .inr ⟨rfl, rfl⟩⟩
  exact ⟨hd, (ofDescriptor?_reads _ _).2 _ _ (by decide) hd⟩

/-- A parameter of no type is taken. -/
theorem ofDescriptor?_void_parameter : ofDescriptor? "(V)V" = some ⟨[.void], .void⟩ ∧
    ∀ k, ¬ FieldType ['V'] k := by
  constructor
  · decide
  · intro k h
    cases h with
    | base h => simp at h

end SeaOfNodes.Signature
