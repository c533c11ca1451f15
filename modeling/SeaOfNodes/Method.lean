import SeaOfNodes.Method.Pool

/-!
# Methods

Everything that lifting reads about a method: its signature, its code, its exception table, its
constant pool and its line table.
-/

namespace SeaOfNodes

/-- A row of an exception table: exceptions raised from `start` up to, not including, `stop` go to
`entry` if they are of the caught type. -/
structure Handler where
  start : Nat
  stop : Nat
  entry : Nat
  /-- The caught class; none catches everything. -/
  catchType : Option TypeRef
deriving DecidableEq, Repr

namespace Handler

/-- Whether the handler protects the instruction at `bci`. -/
def covers (h : Handler) (bci : Nat) : Bool := h.start ≤ bci && bci < h.stop

/-- Whether every exception is caught. -/
def isCatchAll (h : Handler) : Bool := h.catchType.isNone

end Handler

/-- Source lines: from each start on, up to the next one, instructions belong to the line. -/
structure LineTable where
  /-- Starts and lines, by ascending start. -/
  rows : List (Nat × Int32)
deriving DecidableEq, Repr

namespace LineTable

/-- A table from rows in any order; of rows with one start the later is kept last. -/
def ofRows (rows : List (Nat × Int32)) : LineTable := ⟨rows.mergeSort fun a b => a.1 ≤ b.1⟩

/-- The line of the instruction at `bci`: that of the last row not after it. -/
def line? (t : LineTable) (bci : Nat) : Option Int32 :=
  ((t.rows.takeWhile fun row => row.1 ≤ bci).getLast?).map (·.2)

end LineTable

/-- A method to be lifted. -/
structure Method where
  holder : String
  name : String
  descriptor : String
  code : Array UInt8
  /-- The exception table; earlier rows go first. -/
  handlers : List Handler
  maxLocals : Nat
  maxStack : Nat
  isStatic : Bool
  /-- The declared parameters, without the receiver. -/
  parameters : List Kind
  result : Kind
  pool : Pool
  lines : Option LineTable

namespace Method

/-- A method with a signature and code. There are as many locals as the parameters need, and as much
stack as the code has bytes. -/
def create (holder name descriptor : String) (isStatic : Bool) (code : Array UInt8) :
    Except Bailout Method :=
  match Signature.ofDescriptor? descriptor with
  | none => .error (.malformed (.badDescriptor descriptor))
  | some s => .ok
    { holder, name, descriptor, code, isStatic
      handlers := []
      maxLocals := (if isStatic then 0 else 1) + (s.parameters.map Kind.slotCount).foldr (· + ·) 0
      maxStack := max code.size 1
      parameters := s.parameters
      result := s.result
      pool := ⟨[]⟩
      lines := none }

/-- Raise the number of locals. -/
def withMaxLocals (m : Method) (n : Nat) : Method := { m with maxLocals := max m.maxLocals n }

/-- The method with its class and descriptor. -/
def qualifiedName (m : Method) : String := m.holder ++ "." ++ m.name ++ m.descriptor

/-- The source line of the instruction at `bci`. -/
def line? (m : Method) (bci : Nat) : Option Int32 := m.lines.bind (·.line? bci)

end Method

end SeaOfNodes
