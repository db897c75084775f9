import FlowGraph.Command.Plan
import FlowGraph.Module.Load

/-! Checking files: each is loaded and inspected, whatever the files before it were. -/
namespace FlowGraph.Check

/-- The line for a file that holds a sound function. -/
def approval (path : String) (f : Function) : String :=
  s!"{path}: function {f.name} is correct ({f.size} blocks, {f.edgeCount} edges).\n"

/-- What is said of a file: its function, or an error. -/
def verdict (path : String) : Except String Function → Step
  | .ok f => .print (approval path f)
  | .error complaint => .complain (complaint ++ "\n")

/-- Loads a file into a module and inspects it. An error comes with the name of the file. -/
def judge (m : Module) (uid : Uid) (path : String) (text : Except FileError String) :
    Except Fault (Module × List Event × Except String Function) := do
  let loading ← m.loadFile uid path text
  let outcome : Except String Function ←
    match loading.outcome with
    -- A syntax error is told by its place and its message. The source around it is not drawn.
    | .error (.malformed e) => pure (.error e.line)
    | .error e => pure (.error (path ++ ": " ++ e.message))
    | .ok key => do
      let f ← loading.module.function key
      match (← f.inspect).defect with
      | none => pure (.ok f)
      | some d => pure (.error (path ++ ": " ++ d.message))
  return (loading.module, loading.events, outcome)

/-- The steps for some files, and whether all of them are good. -/
def steps (verbose : Bool) (read : String → Except FileError String) :
    Module → Nat → List String → Except Fault (List Step × Bool)
  | _, _, [] => .ok ([], true)
  | m, serial, path :: paths => do
    let (m', events, outcome) ← judge m ⟨serial⟩ path (read path)
    let (others, good) ← steps verbose read m' (serial + 1) paths
    return (Event.steps verbose events ++ verdict path outcome :: others, outcome.isOk && good)

def plan (verbose : Bool) (read : String → Except FileError String) (paths : List String) :
    Except Fault Plan := do
  let (steps, good) ← steps verbose read (.empty ⟨0⟩ "check") 1 paths
  return { steps, code := if good then 0 else 1 }

end FlowGraph.Check
