import FlowGraph.Command.Plan
import FlowGraph.Dump
import FlowGraph.Module.Load

/-! Dumping a file: it is loaded into a module of its own name, which is then listed. -/
namespace FlowGraph

/-- An error and, for a file, the cause below it. -/
def LoadError.causes : LoadError → List String
  | .file e => [(LoadError.file e).message, e.message]
  | e => [e.message]

namespace Dump

def plan (verbose : Bool) (path : String) (text : Except FileError String) : Except Fault Plan := do
  let loading ← (Module.empty ⟨0⟩ path).loadFile ⟨1⟩ path text
  let records := Event.steps verbose loading.events
  match loading.outcome with
  | .ok _ => return { steps := records ++ [.print loading.module.dump] }
  | .error e =>
    let report := errorReport s!"Failed to load `{path}`" e.causes
    return { steps := records ++ [.complain report], code := 1 }

end Dump

end FlowGraph
