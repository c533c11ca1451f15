import SeaOfNodes.Lift.Target

/-!
# Exceptions

An exception goes to the dispatch chain of the block if it is raised by the last instruction of the
block, and out of the method otherwise. A link of a chain tests the type of the exception and leads
to its handler or to the next link.
-/

namespace SeaOfNodes.Lift

/-- The probability of a branch about which nothing is known, as bits. -/
def evenOdds : UInt64 := 0x3fe0000000000000

/-- The probability of a branch that is always taken, as bits. -/
def certain : UInt64 := 0x3ff0000000000000

/-- Where an exception raised at a bci goes. -/
def handlerBlock (bci : Nat) : LiftM BlockId := do
  let id ← current
  let map := (← get).map
  if (map.block id).stop = bci then
    if let some dispatch := map.dispatch? id then return dispatch
  unwindBlock bci

/-- The entry of an exception raised at a bci, with the frame that its handler sees. The exception
is given if it is a value already; otherwise the entry produces it. -/
def exceptionEntry (exception : Option NodeId) (bci : Nat) : LiftM (NodeId × Frame) := do
  let f := (← get).frame
  match exception with
  | none =>
    let entry ← onGraph (Graph.add .exceptionObject)
    let f := f.withException (some entry)
    setState entry f bci
    return (entry, f)
  | some id =>
    let entry ← onGraph (Graph.add .dispatchBegin)
    setState entry (f.withException none) bci
    return (entry, f.withException (some id))

/-- The node to which control must go when an exception is raised at a bci. -/
def raise (exception : Option NodeId) (bci : Nat) : LiftM NodeId := do
  let handler ← handlerBlock bci
  let (entry, f) ← exceptionEntry exception bci
  let target ← target handler f
  onGraph (Graph.setNext entry (some target))
  return entry

/-- Let control go on to a node that may raise an exception. -/
def appendTrapping (id : NodeId) (bci : Nat) : LiftM Unit := do
  let here ← current
  let map := (← get).map
  if (map.block here).stop = bci && (map.dispatch? here).isSome then
    let edge ← raise none bci
    let _ ← onGraph (Graph.setSuccessor id "exception_edge" (some edge))
  appendNode id

/-- An unresolved reference: a bailout, or the interpreter goes on. -/
def unresolved (what : String) : LiftM Unit := do
  if (← get).options.eagerResolving then bailout (.unresolved what)
  let _ ← append (.deoptimize .unresolved)

/-- Test the exception on the stack against a type: go to the handler with it if it fits, and on to
the next link otherwise. -/
def testType (typeName : String) (handler next : BlockId) (bci : Int) : LiftM Unit := do
  let some exception := (← get).frame.peek? 0 | malformed .dispatchWithoutException
  let checked ← onGraph (Graph.add (.checkCast exception.node typeName))
  setState checked (← get).frame bci
  let _ ← pop .object
  push .object checked
  let caught ← target handler (← get).frame
  let _ ← pop .object
  push .object exception.node
  let next ← branchTarget next (← get).frame
  onGraph (Graph.setNext checked (some caught))
  let condition ← intern (.instanceOf exception.node typeName)
  let matched ← onGraph (Graph.add (.begin (some checked)))
  let _ ← append (.branch condition (some matched) (some next) evenOdds)

/-- One link of a dispatch chain. -/
def dispatch (id : BlockId) (handler : Nat) (bci : Int) : LiftM Unit := do
  let s ← get
  let some h := s.method.handlers[handler]? | malformed (.noHandler handler)
  let successors := (s.map.block id).successors
  let some entry := successors.head? | malformed .dispatchWithoutHandler
  match h.catchType with
  | none => jumpTo entry
  | some type =>
    if !type.resolved then unresolved ("exception type " ++ type.name)
    else
      let next ← match successors[1]? with
        | some next => pure next
        | none => unwindBlock bci.toNat
      testType type.name entry next bci

end SeaOfNodes.Lift
