/-!
# Growable sets of naturals

A set is an array of 64-bit words; bit `i % 64` of word `i / 64` says whether `i` belongs to it.
Words past the end count as zero, so how far a set has grown does not show: equality, inclusion
and every query look only at membership.
-/

namespace SeaOfNodes

/-- A set of naturals. -/
structure BitSet where
  words : Array UInt64
deriving Repr, Inhabited

namespace BitSet

/-- The empty set. -/
def empty : BitSet := ⟨#[]⟩

/-- The empty set with room for the numbers below `n`. -/
def withCapacity (n : Nat) : BitSet := ⟨Array.replicate ((n + 63) / 64) 0⟩

/-- Word `i`, zero past the end. -/
def word (s : BitSet) (i : Nat) : UInt64 := s.words.getD i 0

/-- At least `n` words. -/
def grow (s : BitSet) (n : Nat) : BitSet := ⟨s.words ++ Array.replicate (n - s.words.size) 0⟩

/-- The word with the bit of `i` alone. -/
def bit (i : Nat) : UInt64 := 1 <<< (i % 64).toUInt64

/-- Whether `i` belongs to the set. -/
def contains (s : BitSet) (i : Nat) : Bool := (s.word (i / 64)).toNat.testBit (i % 64)

/-- Add `i`. -/
def insert (s : BitSet) (i : Nat) : BitSet :=
  ⟨(s.grow (i / 64 + 1)).words.modify (i / 64) (· ||| bit i)⟩

/-- Take `i` out. -/
def erase (s : BitSet) (i : Nat) : BitSet := ⟨s.words.modify (i / 64) (· &&& ~~~(bit i))⟩

/-- Add every number below `n`. -/
def insertRange (s : BitSet) (n : Nat) : BitSet := (List.range n).foldl insert s

/-- Take everything out, keeping the room. -/
def clear (s : BitSet) : BitSet := ⟨s.words.map fun _ => 0⟩

/-- The numbers of either set. -/
def union (s t : BitSet) : BitSet :=
  ⟨(Array.range (max s.words.size t.words.size)).map fun i => s.word i ||| t.word i⟩

/-- Whether every number of `s` belongs to `t`. -/
def isSubset (s t : BitSet) : Bool :=
  (List.range s.words.size).all fun i => t.word i ||| s.word i == t.word i

/-- The numbers of both sets. -/
def inter (s t : BitSet) : BitSet :=
  ⟨(Array.range s.words.size).map fun i => s.word i &&& t.word i⟩

/-- The numbers of `s` outside `t`. -/
def diff (s t : BitSet) : BitSet :=
  ⟨(Array.range s.words.size).map fun i => s.word i &&& ~~~(t.word i)⟩

/-- Whether the set has no number. -/
def isEmpty (s : BitSet) : Bool := s.words.all (· == 0)

/-- The number of bits set in a word. -/
def bitCount (w : UInt64) : Nat := (List.range 64).countP w.toNat.testBit

/-- How many numbers the set has. -/
def count (s : BitSet) : Nat := (s.words.toList.map bitCount).foldr (· + ·) 0

/-- The numbers of the set, ascending. -/
def toList (s : BitSet) : List Nat := (List.range (64 * s.words.size)).filter s.contains

/-- The set of the numbers of a list. -/
def ofList (numbers : List Nat) : BitSet := numbers.foldl insert empty

/-- Sets are equal when they have the same numbers. -/
def beq (s t : BitSet) : Bool :=
  (List.range (max s.words.size t.words.size)).all fun i => s.word i == t.word i

instance : BEq BitSet := ⟨beq⟩

end BitSet

end SeaOfNodes
