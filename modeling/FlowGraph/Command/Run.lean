import FlowGraph.Command.Check
import FlowGraph.Command.Demo
import FlowGraph.Command.Dump
import FlowGraph.Command.Invocation
import FlowGraph.Toml.StyleFile

/-! From a command line to a plan. The style is loaded before anything else is done. -/
namespace FlowGraph

/-- A plan that only reports an error. -/
def Plan.error (report : String) : Plan := { steps := [.complain report], code := 1 }

/-- The style of a file that may be named, or the plan that reports why there is none. -/
def loadStyle (read : String → Except FileError String) :
    Option String → Except Plan (Dot.Style × List Event)
  | none => .ok ({}, [])
  | some path =>
    match read path with
    | .error e => .error (.error (errorReport s!"Failed to read style file `{path}`" [e.message]))
    | .ok text =>
      match Toml.style? text with
      | none =>
        -- Why a text gives no style is not told.
        .error (.error (errorReport s!"Failed to parse style file `{path}`" ["no style document"]))
      | some style => .ok (style, [.styleLoaded path])

namespace Invocation

/-- The files that the command reads. -/
def reads (i : Invocation) (fallbackStyle : Option String) : List String :=
  (i.style.or fallbackStyle).toList ++
    match i.command with
    | .demo _ => []
    | .check paths => paths
    | .dump path => [path]

/-- What the command does, given the files. The style file named last is used if the command line
names none. -/
def plan (i : Invocation) (fallbackStyle : Option String)
    (read : String → Except FileError String) : Except Fault Plan :=
  match loadStyle read (i.style.or fallbackStyle) with
  | .error plan => .ok plan
  | .ok (style, events) => do
    let plan ←
      match i.command with
      | .demo outDir => Demo.plan i.verbose style outDir
      | .check paths => Check.plan i.verbose read paths
      | .dump path => Dump.plan i.verbose path (read path)
    return { plan with steps := Event.steps i.verbose events ++ plan.steps }

end Invocation

/-- The plan for a command line that is used wrongly. -/
def Plan.usage : Plan :=
  { steps := [.complain <|
      "Usage: [-v] [--style PATH] demo [-o DIR]\n" ++
      "       [-v] [--style PATH] check PATH...\n" ++
      "       [-v] [--style PATH] dump PATH\n"]
    code := 2 }

/-- The plan for a lookup that failed against all expectation. -/
def Plan.ofFault (fault : Fault) : Plan :=
  { steps := [.complain (fault.message ++ "\n")], code := 101 }

/-- The plan for a list of arguments. -/
def planFor (args : List String) (fallbackStyle : Option String)
    (read : String → Except FileError String) : Plan :=
  match Invocation.ofArguments? args with
  | none => .usage
  | some i =>
    match i.plan fallbackStyle read with
    | .ok plan => plan
    | .error fault => .ofFault fault

end FlowGraph
