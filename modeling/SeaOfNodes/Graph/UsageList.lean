import SeaOfNodes.Node.Layout

/-!
# Usage lists

The users of a node, one entry per input edge. Most nodes have at most two users, so two entries
stand in the list itself and the others in an overflow array. Live entries stand before empty ones:
an entry that is removed is overwritten by the last one.
-/

namespace SeaOfNodes

/-- The users of a node. -/
structure UsageList where
  first : Option NodeId := none
  second : Option NodeId := none
  /-- The overflow, as far as it has ever been needed. -/
  extra : Array (Option NodeId) := #[]
  /-- The number of live entries of the overflow. -/
  extraCount : Nat := 0
deriving Repr

namespace UsageList

/-- The list without entries. -/
def empty : UsageList := {}

/-- The number of entries. -/
def size (l : UsageList) : Nat :=
  if l.first.isNone then 0 else if l.second.isNone then 1 else 2 + l.extraCount

/-- Whether there are no entries. -/
def isEmpty (l : UsageList) : Bool := l.first.isNone

/-- The entry at a place. -/
def get? (l : UsageList) : Nat → Option NodeId
  | 0 => l.first
  | 1 => l.second
  | i + 2 => (l.extra[i]?).join

/-- Overwrite the entry at a place. -/
def put (l : UsageList) (place : Nat) (value : Option NodeId) : UsageList :=
  match place with
  | 0 => { l with first := value }
  | 1 => { l with second := value }
  | i + 2 => { l with extra := l.extra.setIfInBounds i value }

/-- The entries, in order. -/
def toList (l : UsageList) : List NodeId := (List.range l.size).filterMap l.get?

/-- The room of the overflow. -/
def capacity (l : UsageList) : Nat := l.extra.size

/-- More room: four entries at first, then one more than twice as many. -/
def grow (l : UsageList) : UsageList :=
  let room := if l.extra.isEmpty then 4 else l.extra.size + 1
  { l with extra := l.extra ++ Array.replicate room none }

/-- Append an entry. -/
def add (l : UsageList) (user : NodeId) : UsageList :=
  if l.first.isNone then { l with first := some user }
  else if l.second.isNone then { l with second := some user }
  else
    let l := if l.extraCount = l.extra.size then l.grow else l
    { l with
      extra := l.extra.setIfInBounds l.extraCount (some user)
      extraCount := l.extraCount + 1 }

/-- The place of the first entry of a user. -/
def indexOf? (l : UsageList) (user : NodeId) : Option Nat := l.toList.findIdx? (· = user)

/-- Whether a user has an entry. -/
def contains (l : UsageList) (user : NodeId) : Bool := (l.indexOf? user).isSome

/-- The number of entries of a user. -/
def countOf (l : UsageList) (user : NodeId) : Nat := l.toList.count user

/-- Overwrite an entry by the last one, and empty the place of the last one. -/
def removeAt (l : UsageList) (place : Nat) : UsageList :=
  let last := l.size - 1
  let l := (l.put place (l.get? last)).put last none
  if 2 ≤ last then { l with extraCount := l.extraCount - 1 } else l

/-- Remove one entry of a user; none if it has no entry. -/
def remove? (l : UsageList) (user : NodeId) : Option UsageList :=
  (l.indexOf? user).map l.removeAt

/-- Whether the overflow has room for its entries and no empty place stands before a live entry. -/
def isPacked (l : UsageList) : Bool :=
  l.extraCount ≤ l.extra.size &&
    (l.first.isSome || (l.second.isNone && l.extraCount == 0)) &&
    (l.second.isSome || l.extraCount == 0) &&
    (l.extra.toList.take l.extraCount).all Option.isSome &&
    (l.extra.toList.drop l.extraCount).all Option.isNone

end UsageList

end SeaOfNodes
