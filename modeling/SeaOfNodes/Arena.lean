/-!
# Arenas

Append-only storage. An item is never moved and its place never reused, so a handle stays valid
for the arena's whole life. The tag of a handle keeps handles of different arenas apart.
-/

namespace SeaOfNodes

/-- The place of an item in an arena. -/
structure Handle (τ : Type) where
  index : Nat

namespace Handle

variable {τ : Type}

instance : DecidableEq (Handle τ) := fun a b =>
  if h : a.index = b.index then isTrue (by cases a; cases b; simp_all)
  else isFalse (by intro e; exact h (by rw [e]))

instance : Inhabited (Handle τ) := ⟨⟨0⟩⟩

instance : Repr (Handle τ) := ⟨fun a => reprPrec a.index⟩

/-- Handles are ordered by age. -/
def le (a b : Handle τ) : Bool := a.index ≤ b.index

/-- The bare number. -/
def text (a : Handle τ) : String := toString a.index

/-- The number behind a hash sign, as in `#7`. -/
def tagged (a : Handle τ) : String := "#" ++ a.text

/-- An absent handle, or the tagged number of a present one. -/
def taggedOption : Option (Handle τ) → String
  | none => "None"
  | some a => "Some(" ++ a.tagged ++ ")"

end Handle

/-- Items in the order in which they were allocated. -/
structure Arena (τ α : Type) where
  items : Array α

namespace Arena

variable {τ α : Type}

/-- The arena without items. -/
def empty : Arena τ α := ⟨#[]⟩

instance : Inhabited (Arena τ α) := ⟨empty⟩

/-- The number of items ever allocated. -/
def size (a : Arena τ α) : Nat := a.items.size

/-- The handle that the next allocation gives. -/
def next (a : Arena τ α) : Handle τ := ⟨a.items.size⟩

/-- Add an item; its handle is `a.next`. -/
def push (a : Arena τ α) (item : α) : Arena τ α := ⟨a.items.push item⟩

/-- The item at a handle. -/
def get? (a : Arena τ α) (id : Handle τ) : Option α := a.items[id.index]?

/-- Change the item at a handle; nothing happens if there is none. -/
def modify (a : Arena τ α) (id : Handle τ) (f : α → α) : Arena τ α := ⟨a.items.modify id.index f⟩

/-- Overwrite the item at a handle; nothing happens if there is none. -/
def set (a : Arena τ α) (id : Handle τ) (item : α) : Arena τ α :=
  ⟨a.items.setIfInBounds id.index item⟩

/-- All handles, oldest first. -/
def handles (a : Arena τ α) : List (Handle τ) := (List.range a.items.size).map Handle.mk

/-- All items, oldest first. -/
def toList (a : Arena τ α) : List α := a.items.toList

end Arena

end SeaOfNodes
