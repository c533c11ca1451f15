/-!
# Options

What the lifter may be told: which optional work it does, and how many loops a method may have.
Options are resolved once and then only read.
-/

namespace SeaOfNodes

/-- The number of loops that a 64-bit loop mask can tell apart. -/
def maxLoops : Nat := 64

/-- Options of block discovery and lifting. -/
structure Options where
  /-- An unresolved reference is a bailout instead of a deoptimization. -/
  eagerResolving : Bool
  /-- Exceptions always leave the method; handlers are not entered. -/
  omitExceptionEdges : Bool
  /-- A line marker is emitted wherever the source line changes. -/
  eagerInfopoints : Bool
  /-- Subroutines are inlined; otherwise a method that has some is a bailout. -/
  supportJsr : Bool
  /-- Locals that are dead at the start of a block are cleared. -/
  livenessAnalysis : Bool
  /-- The finished graph is verified. -/
  verifyGraph : Bool
  /-- The number of loops a method may have. -/
  loopLimit : Nat
deriving DecidableEq, Repr

namespace Options

/-- The usual options. -/
def standard : Options where
  eagerResolving := false
  omitExceptionEdges := false
  eagerInfopoints := false
  supportJsr := true
  livenessAnalysis := true
  verifyGraph := true
  loopLimit := maxLoops

/-- Every optional feature. -/
def all : Options :=
  { standard with eagerResolving := true, eagerInfopoints := true }

/-- No optional feature. -/
def none : Options :=
  { standard with supportJsr := false, livenessAnalysis := false, verifyGraph := false }

/-- Set the loop limit, no higher than a loop mask allows. -/
def withLoopLimit (o : Options) (limit : Nat) : Options :=
  { o with loopLimit := min limit maxLoops }

/-! ### Options from text settings -/

/-- The characters that surround a setting without belonging to it. -/
def isBlank (c : Char) : Bool :=
  let n := c.toNat
  (9 ≤ n && n ≤ 13) || n == 0x20 || n == 0x85 || n == 0xa0 || n == 0x1680 ||
    (0x2000 ≤ n && n ≤ 0x200a) || n == 0x2028 || n == 0x2029 || n == 0x202f || n == 0x205f ||
    n == 0x3000

/-- The text without the blanks at its ends, in lower case. -/
def normalizeFlag (text : String) : String :=
  let inner := text.toList.dropWhile isBlank
  String.ofList ((inner.reverse.dropWhile isBlank).reverse.map Char.toLower)

/-- A flag written in words or as a digit; anything else is ignored. -/
def flag? (text : String) : Option Bool :=
  match normalizeFlag text with
  | "1" | "true" | "yes" | "on" => some true
  | "0" | "false" | "no" | "off" => some false
  | _ => Option.none

/-- The settings that can be given as text. -/
structure Settings where
  omitExceptionEdges : Option String := Option.none
  supportJsr : Option String := Option.none
  livenessAnalysis : Option String := Option.none
  verifyGraph : Option String := Option.none

/-- The usual options, changed by the settings that can be read. -/
def ofSettings (s : Settings) : Options :=
  { standard with
    omitExceptionEdges := (s.omitExceptionEdges.bind flag?).getD standard.omitExceptionEdges
    supportJsr := (s.supportJsr.bind flag?).getD standard.supportJsr
    livenessAnalysis := (s.livenessAnalysis.bind flag?).getD standard.livenessAnalysis
    verifyGraph := (s.verifyGraph.bind flag?).getD standard.verifyGraph }

end Options

end SeaOfNodes
