import FlowGraph.Command.Run
import FlowGraph.Path

/-! The command line. -/
namespace FlowGraph

/-- The error behind a failed system call, whose number may come with its sign changed. -/
def FileError.ofSystem : IO.Error → FileError
  | .noFileOrDirectory .. | .noSuchThing .. => .notFound
  | .alreadyExists .. => .alreadyExists
  | .inappropriateType _ code _ => if min code (0 - code) = 21 then .isDirectory else .notDirectory
  | .invalidArgument _ code _ =>
    if min code (0 - code) = 36 then .nameTooLong else .other "Invalid argument (os error 22)"
  | e => .other (toString e)

/-- A file as text. -/
def readText (path : String) : IO (Except FileError String) := do
  try
    let bytes ← IO.FS.readBinFile path
    match String.fromUTF8? bytes with
    | some text => return .ok text
    | none => return .error .notText
  catch e => return .error (.ofSystem e)

/-- The error of an action, if it fails. -/
def failureOf (action : IO Unit) : IO (Option FileError) := do
  try
    action
    return none
  catch e => return some (.ofSystem e)

/-- Whether a path leads to a directory of the system. -/
def leadsToDirectory (path : String) : IO Bool := do
  try return ← (← IO.FS.realPath path).isDir
  catch _ => return false

/-- Makes a directory on the system unless it is there already. -/
def ensureDirectory (names : List String) : IO (Option FileError) := do
  let path := Path.text names
  match ← failureOf (IO.FS.createDir path) with
  | none => return none
  | some e => return if ← leadsToDirectory path then none else some e

/-- Carries out a step on the system. -/
def Step.perform : Step → IO (Option FileError)
  | .print text => do
    IO.print text
    return none
  | .complain text => do
    IO.eprint text
    return none
  | .makeDirectory path => Path.makeAll ensureDirectory (Path.names path)
  | .write path text => failureOf (IO.FS.writeFile path text)

/-- Carries out a plan on the system and gives its exit code. -/
def Plan.perform (p : Plan) : IO UInt32 := do
  for s in p.steps do
    if let some e ← s.perform then
      IO.eprint (s.failure e)
      return 1
  return p.code.toUInt32

end FlowGraph

open FlowGraph in
/-- Reads the files that the command line names, then does what it asks for. -/
def main (args : List String) : IO UInt32 := do
  let style ← IO.getEnv "CFGRAPH_STYLE"
  let paths := ((Invocation.ofArguments? args).map (·.reads style)).getD []
  let mut texts : List (String × Except FileError String) := []
  for path in paths do
    texts := texts ++ [(path, ← readText path)]
  (planFor args style fun path => (texts.lookup path).getD (.error .notFound)).perform
