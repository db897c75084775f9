import FlowGraph.FileError
import FlowGraph.Journal
import FlowGraph.Text.Plain

/-!
What a command does, as data: steps in order and an exit code. A step on the files that fails ends
the plan with an error report and the code 1.
-/
namespace FlowGraph

/-- `print` goes to the output, `complain` to the error output. -/
inductive Step where
  | print (text : String)
  | complain (text : String)
  | makeDirectory (path : String)
  | write (path text : String)
deriving DecidableEq, Repr

structure Plan where
  steps : List Step
  code : Nat := 0
deriving DecidableEq, Repr

/-- A text with `lead` after every line feed. -/
def indented (lead text : String) : String :=
  String.join (text.toList.map fun c => if c = '\n' then "\n" ++ lead else c.toString)

/-- An error and its causes. Several causes are numbered. -/
def errorReport (context : String) (causes : List String) : String :=
  let causeLine (cause : String) (n : Nat) : String :=
    if causes.length = 1 then "    " ++ indented "    " cause ++ "\n"
    else s!"    {n}: " ++ indented "       " cause ++ "\n"
  let body := String.join (causes.zipIdx.map fun (cause, n) => causeLine cause n)
  "Error: " ++ context ++ "\n\nCaused by:\n" ++ body

/-- The report of a step that failed. -/
def Step.failure (e : FileError) : Step → String
  | .makeDirectory path => errorReport s!"Failed to create `{path}`" [e.message]
  | .write path _ => errorReport s!"Failed to write `{path}`" [e.message]
  | .print _ | .complain _ => e.message

namespace Event

/-- The records that are shown: details only on request, visits never. -/
def isShown (verbose : Bool) (e : Event) : Bool :=
  match e.level with
  | .info => true
  | .debug => verbose
  | .trace => false

/-- A record as a line of the error output. Only what shows of the whole line is written. -/
def line (e : Event) : String :=
  let tag := match e.level with
    | .info => "[INFO ] "
    | .debug => "[DEBUG] "
    | .trace => "[TRACE] "
  Text.plain (tag ++ indented "    " e.message ++ "\n")

/-- The steps that write the records. -/
def steps (verbose : Bool) (events : List Event) : List Step :=
  (events.filter (isShown verbose)).map fun e => .complain e.line

end Event

end FlowGraph
