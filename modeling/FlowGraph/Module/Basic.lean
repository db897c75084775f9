import FlowGraph.Function.Edit
import FlowGraph.Function.Inspect

/-! Modules: functions in creation order. Functions of a module know nothing of each other. -/
namespace FlowGraph

/-- A function in its module. -/
structure Member where
  key : FunctionKey
  function : Function
deriving DecidableEq, Repr

/-- A module. `nextSerial` is given to the next function and to no other. -/
structure Module where
  uid : Uid
  name : String
  nextSerial : Nat := 0
  members : List Member := []
deriving DecidableEq, Repr

namespace Module

/-- A module without functions. -/
def empty (uid : Uid) (name : String) : Module := { uid, name }

def size (m : Module) : Nat := m.members.length

def isEmpty (m : Module) : Bool := m.members.isEmpty

/-- Appends an empty function. -/
def createFunction (m : Module) (uid : Uid) (name : String) : Module × FunctionKey :=
  let key : FunctionKey := ⟨m.nextSerial⟩
  let added : Member := ⟨key, .empty uid name m.uid⟩
  ({ m with nextSerial := m.nextSerial + 1, members := m.members ++ [added] }, key)

def function? (m : Module) (key : FunctionKey) : Option Function :=
  (m.members.find? (·.key = key)).map (·.function)

/-- The function of a handle that is known to resolve. -/
def function (m : Module) (key : FunctionKey) : Except Fault Function :=
  match m.function? key with
  | some f => .ok f
  | none => .error .staleKey

/-- Puts a function in the place of the one with that handle, if there is one. -/
def replace (m : Module) (key : FunctionKey) (f : Function) : Module :=
  { m with members := m.members.map fun x => if x.key = key then { x with function := f } else x }

/-- Removes a function with all that is in it, if the handle resolves. -/
def deleteFunction? (m : Module) (key : FunctionKey) : Option (Function × Module) := do
  let f ← m.function? key
  return (f, { m with members := m.members.filter (·.key ≠ key) })

/-- The first function of that name. -/
def functionNamed? (m : Module) (name : String) : Option FunctionKey :=
  (m.members.find? (·.function.name = name)).map (·.key)

/-- Removes the first function of that name. -/
def deleteFunctionNamed? (m : Module) (name : String) : Option (Function × Module) := do
  m.deleteFunction? (← m.functionNamed? name)

/-- The youngest function. -/
def lastFunction? (m : Module) : Option FunctionKey := m.members.getLast?.map (·.key)

/-- Whether the function was created in this module. -/
def owns (m : Module) (f : Function) : Bool := f.owner = m.uid

/-- Checks every function, each on its own. -/
def inspectAll (m : Module) : Except Fault (List (FunctionKey × Inspection)) :=
  m.members.mapM fun x => return (x.key, ← x.function.inspect)

end Module

end FlowGraph
