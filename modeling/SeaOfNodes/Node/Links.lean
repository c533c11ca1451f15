import SeaOfNodes.Node.Fault

/-!
# Links

The content of a node's edge fields, uniform over all classes. A link is one field: a slot for one
node, or a list of slots. A position names a slot by its field and its place in the list; both are
kept in sixteen bits. Every operation on edges is written once, on lists of links.
-/

namespace SeaOfNodes

/-- The content of one edge field. -/
inductive Link
  | one (target : Option NodeId)
  | many (targets : List (Option NodeId))
deriving DecidableEq, Repr

/-- The slots of a link. -/
def Link.slots : Link → List (Option NodeId)
  | .one target => [target]
  | .many targets => targets

/-- The link without nodes: an empty slot, or no slots. -/
def Link.cleared : Link → Link
  | .one _ => .one none
  | .many _ => .many []

/-- The name of a slot. -/
structure Position where
  direction : Direction
  field : UInt16
  index : UInt16
deriving DecidableEq, Repr

/-- The position of place `index` of field `field`. -/
def Position.of (direction : Direction) (field index : Nat) : Position :=
  ⟨direction, field.toUInt16, index.toUInt16⟩

namespace Links

/-- All slots, in order. -/
def slots (links : List Link) : List (Option NodeId) := links.flatMap Link.slots

/-- The nodes in the slots, in order. -/
def targets (links : List Link) : List NodeId := (slots links).filterMap id

/-- All slots with their positions, in order. -/
def walk (direction : Direction) (links : List Link) : List (Position × Option NodeId) :=
  links.zipIdx.flatMap fun (link, field) =>
    link.slots.zipIdx.map fun (target, index) => (Position.of direction field index, target)

/-- What the slot at a place holds; nothing past the end of a list. -/
def get (links : List Link) (field index : Nat) : Option NodeId :=
  match links[field]? with
  | some (.one target) => target
  | some (.many targets) => (targets[index]?).join
  | none => none

/-- Put a value into the first slot that holds `old`. -/
def replaceFirst (old : NodeId) (new : Option NodeId) : List Link → Option (List Link)
  | [] => none
  | .one target :: rest =>
    if target = some old then some (.one new :: rest)
    else (replaceFirst old new rest).map (.one target :: ·)
  | .many targets :: rest =>
    match targets.findIdx? (· = some old) with
    | some i => some (.many (targets.set i new) :: rest)
    | none => (replaceFirst old new rest).map (.many targets :: ·)

/-- Remove a place of a list, moving later ones down. Anything but an existing place of a list is
left alone. -/
def removeAt (links : List Link) (field index : Nat) : Option NodeId × List Link :=
  match links[field]? with
  | some (.many targets) =>
    if index < targets.length then
      ((targets[index]?).join, links.set field (.many (targets.eraseIdx index)))
    else (none, links)
  | _ => (none, links)

/-- All links cleared. -/
def clear (links : List Link) : List Link := links.map Link.cleared

/-! ### Stopping and resuming a walk -/

/-- Where a walk goes on. -/
structure Point where
  field : Nat
  index : Nat
deriving DecidableEq, Repr

/-- Walk on within the fields from `field` on. Passing a single slot leaves the index alone. -/
def stepIn (direction : Direction) :
    List Link → Nat → Nat → Option (Position × Option NodeId) × Point
  | [], field, index => (none, ⟨field, index⟩)
  | .one target :: _, field, index =>
    (some (Position.of direction field 0, target), ⟨field + 1, index⟩)
  | .many targets :: rest, field, index =>
    match targets[index]? with
    | some target => (some (Position.of direction field index, target), ⟨field, index + 1⟩)
    | none => stepIn direction rest (field + 1) 0

/-- The next slot of a walk, and where it goes on. -/
def step (direction : Direction) (links : List Link) (p : Point) :
    Option (Position × Option NodeId) × Point :=
  stepIn direction (links.drop p.field) p.field p.index

/-- At most `n` slots of a walk. -/
def walkOn (direction : Direction) (links : List Link) :
    Nat → Point → List (Position × Option NodeId)
  | 0, _ => []
  | n + 1, p =>
    match step direction links p with
    | (some item, q) => item :: walkOn direction links n q
    | (none, _) => []

/-- The slots of a walk from a point on. -/
def walkFrom (direction : Direction) (links : List Link) (p : Point) :
    List (Position × Option NodeId) :=
  walkOn direction links (slots links).length p

end Links

end SeaOfNodes
