import FlowGraph.Store.Export

/-! A module as it is kept in memory: the functions in slots and their handles in creation order. -/
namespace FlowGraph

@[ext] structure ModuleStore where
  uid : Uid
  name : String
  functions : Slots FunctionStore := {}
  order : List FunctionKey := []

namespace ModuleStore

/-! ## Looking up -/

def function? (s : ModuleStore) (key : FunctionKey) : Option FunctionStore :=
  s.functions.get? key.serial

/-- The youngest function. -/
def lastFunction? (s : ModuleStore) : Option FunctionKey := s.order.getLast?

/-- The functions with their handles, in creation order. -/
def members (s : ModuleStore) : Run (List (FunctionKey × FunctionStore)) :=
  s.order.mapM fun key => return (key, ← s.functions.fetch key.serial)

/-- The first function of that name. The functions behind it are not looked up. -/
def functionNamed? (s : ModuleStore) (name : String) : Run (Option FunctionKey) :=
  s.order.findSomeM? fun key => do
    let f ← s.functions.fetch key.serial
    return if f.name = name then some key else none

/-! ## Edits -/

/-- A module without functions. -/
def empty (uid : Uid) (name : String) : ModuleStore := { uid, name }

/-- Fills the next slot. The log then looks the function up. -/
def createFunction (s : ModuleStore) (uid : Uid) (name : String) :
    Run (ModuleStore × FunctionKey) := do
  let key : FunctionKey := ⟨s.functions.size⟩
  let t : ModuleStore :=
    { s with
      functions := s.functions.put key.serial (.empty uid name s.uid)
      order := s.order ++ [key] }
  let _ ← t.functions.fetch key.serial
  return (t, key)

/-- Fills the slot of a handle anew. -/
def replace (s : ModuleStore) (key : FunctionKey) (f : FunctionStore) : ModuleStore :=
  { s with functions := s.functions.put key.serial f }

def deleteFunction? (s : ModuleStore) (key : FunctionKey) :
    Option (FunctionStore × ModuleStore) := do
  let f ← s.function? key
  return (f,
    { s with
      functions := s.functions.clear key.serial
      order := s.order.filter (· ≠ key) })

def deleteFunctionNamed? (s : ModuleStore) (name : String) :
    Run (Option (FunctionStore × ModuleStore)) :=
  return (← s.functionNamed? name).bind s.deleteFunction?

/-- Builds a graph into a new function, which has to be found in its slot. -/
def load (s : ModuleStore) (uid : Uid) (source : String) :
    Run (ModuleStore × Except LoadError FunctionKey) :=
  match Dot.Graph.read source with
  | .error e => return (s, .error (.malformed e))
  | .ok g => do
    let (created, key) ← s.createFunction uid g.name
    let (f, failure) ← (← created.functions.fetch key.serial).populate g
    let built := created.replace key f
    match failure with
    | none => return (built, .ok key)
    | some e => return (((built.deleteFunction? key).map (·.2)).getD built, .error (.edit e))

/-- The module after an edit. -/
def apply (s : ModuleStore) : Module.Edit → Run ModuleStore
  | .create uid name => return (← s.createFunction uid name).1
  | .delete key => return ((s.deleteFunction? key).map (·.2)).getD s
  | .deleteNamed name => return ((← s.deleteFunctionNamed? name).map (·.2)).getD s
  | .load uid source => return (← s.load uid source).1
  | .edit key e =>
    match s.function? key with
    | none => return s
    | some f => return s.replace key (← f.apply e)

def run (s : ModuleStore) : List Module.Edit → Run ModuleStore
  | [] => return s
  | e :: history => do (← s.apply e).run history

/-! ## Questions -/

def inspectAll (s : ModuleStore) : Run (List (FunctionKey × List Event × Option Defect)) := do
  (← s.members).mapM fun (key, f) => return (key, ← f.inspect)

def dump (s : ModuleStore) : Run String := do
  let texts ← (← s.members).mapM fun (_, f) => f.dump
  return "Module-" ++ s.name ++ "\n" ++ String.join texts

def dot (s : ModuleStore) (style : Dot.Style) : Run String := do
  let clusters ← (← s.members).zipIdx.mapM fun ((_, f), index) => f.dotCluster style index
  return "digraph " ++ Text.quoted s.name ++ " \x7b\n" ++
    (Dot.Statement.attribute ⟨"label", s.name⟩).line ++ String.join clusters ++ "\x7d\n"

end ModuleStore

end FlowGraph
