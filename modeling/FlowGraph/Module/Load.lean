import FlowGraph.Dot.Building
import FlowGraph.Dot.Grammar
import FlowGraph.FileError

/-! Loading a function from DOT text. A load that fails leaves no function behind. -/
namespace FlowGraph

/-- Why a function could not be loaded. -/
inductive LoadError where
  | malformed (e : SyntaxError)
  | edit (e : EditError)
  | file (e : FileError)
deriving DecidableEq, Repr

def LoadError.message : LoadError → String
  | .malformed _ => "Failed to parse graph: 1 syntax error(s) were reported."
  | .edit e => e.message
  | .file e => "I/O error: " ++ e.message

/-- The error with the file that it is about. -/
def LoadError.inFile (path : String) : LoadError → LoadError
  | .malformed e => .malformed { e with file := some path }
  | e => e

/-- A module after a load, with the handle of the new function or the error. -/
structure Loading where
  module : Module
  outcome : Except LoadError FunctionKey
  events : List Event := []

namespace Module

/-- Reads a graph into a new function. If the graph cannot be built, the function is deleted. -/
def load (m : Module) (uid : Uid) (source : String) : Except Fault Loading :=
  match Dot.Graph.read source with
  | .error e => .ok ⟨m, .error (.malformed e), []⟩
  | .ok g => do
    let (created, key) := m.createFunction uid g.name
    let (building, failure) := g.populate (← created.function key)
    let built := created.replace key building.function
    let events := m.creation g.name :: building.events
    match failure with
    | none => return ⟨built, .ok key, events⟩
    | some e =>
      let cleared := ((built.deleteFunction? key).map (·.2)).getD built
      return ⟨cleared, .error (.edit e), events ++ built.deletion key⟩

/-- Reads a graph from a file, whose text or error is given. -/
def loadFile (m : Module) (uid : Uid) (path : String) (text : Except FileError String) :
    Except Fault Loading :=
  match text with
  | .error e => .ok ⟨m, .error (.file e), []⟩
  | .ok source => do
    let loading ← m.load uid source
    return { loading with outcome := loading.outcome.mapError (·.inFile path) }

end Module

end FlowGraph
