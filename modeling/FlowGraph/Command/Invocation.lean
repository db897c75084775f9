/-!
Command lines. The options `-v` and `--style` stand before or after the name of the command, each at
most once in either place; `--` ends the options of a command.
-/
namespace FlowGraph

inductive Command where
  | demo (outDir : String)
  | check (paths : List String)
  | dump (path : String)
deriving DecidableEq, Repr

/-- What a command line asks for. -/
structure Invocation where
  verbose : Bool
  style : Option String
  command : Command
deriving DecidableEq, Repr

namespace Invocation

/-- An option: a flag, or one that takes a value. -/
inductive Switch where
  | verbose
  | style
  | outDir
deriving DecidableEq, Repr

def Switch.takesValue : Switch → Bool
  | .verbose => false
  | .style | .outDir => true

/-- What is known in one place of the command line. Only the demo has a directory for its output. -/
structure Place where
  named : List (String × Switch) := [("verbose", .verbose), ("style", .style)]
  lettered : List (Char × Switch) := [('v', .verbose)]

def Place.demo : Place where
  named := [("verbose", .verbose), ("style", .style), ("out-dir", .outDir)]
  lettered := [('v', .verbose), ('o', .outDir)]

/-- What was found in one place: the options with their values, and the other arguments. -/
structure Found where
  switches : List (Switch × String) := []
  others : List String := []

/-- Notes an option. It may not be there yet, and its value may not be empty. -/
def Found.add (f : Found) (s : Switch) (value : String) : Option Found :=
  if (f.switches.lookup s).isSome || (s.takesValue && value.isEmpty) then none
  else some { f with switches := f.switches ++ [(s, value)] }

/-- Whether an argument can be the value of the option before it. -/
def isValue (arg : String) : Bool := arg == "-" || !arg.startsWith "-"

/-- Notes a group of single letters. The first one that takes a value takes what follows it, after
an equals sign if there is one, or else the next argument; the result says whether it was taken.
-/
def Found.addLetters (place : Place) (next : Option String) :
    List Char → Found → Option (Found × Bool)
  | [], f => some (f, false)
  | c :: rest, f =>
    match place.lettered.lookup c with
    | none => none
    | some s =>
      if s.takesValue then
        match rest, next with
        | '=' :: value, _ => do return (← f.add s (String.ofList value), false)
        | [], some value => if isValue value then do return (← f.add s value, true) else none
        | [], none => none
        | value, _ => do return (← f.add s (String.ofList value), false)
      else do addLetters place next rest (← f.add s "")

/-- Notes an option that is written out, with the text after its equals sign if there is one. -/
def Found.addNamed (place : Place) (next : Option String) (name : String) (attached : Option String)
    (f : Found) : Option (Found × Bool) := do
  let s ← place.named.lookup name
  match s.takesValue, attached, next with
  | false, none, _ => return (← f.add s "", false)
  | false, some _, _ => none
  | true, some value, _ => return (← f.add s value, false)
  | true, none, some value => if isValue value then return (← f.add s value, true) else none
  | true, none, none => none

/-- The name and the attached value of a written-out option, given without its dashes. -/
def splitNamed (cs : List Char) : String × Option String :=
  match cs.dropWhile (· != '=') with
  | [] => (String.ofList cs, none)
  | _ :: value => (String.ofList (cs.takeWhile (· != '=')), some (String.ofList value))

/-- Notes the options of an argument that starts with a dash. -/
def Found.addSwitches (place : Place) (next : Option String) (arg : String) (f : Found) :
    Option (Found × Bool) :=
  match arg.toList with
  | '-' :: '-' :: cs => f.addNamed place next (splitNamed cs).1 (splitNamed cs).2
  | _ :: cs => f.addLetters place next cs
  | [] => none

/-- Reads the arguments in one place: up to the first that is no option if `single` holds, else to
the end. Also gives the arguments not read. -/
def scan (place : Place) (single : Bool) : List String → Found → Option (Found × List String)
  | [], f => some (f, [])
  | arg :: rest, f =>
    if arg = "--" then
      if single then none else some ({ f with others := f.others ++ rest }, [])
    else if isValue arg then
      if single then some ({ f with others := f.others ++ [arg] }, rest)
      else scan place single rest { f with others := f.others ++ [arg] }
    else
      match f.addSwitches place rest.head? arg, rest with
      | some (g, false), rest => scan place single rest g
      | some (g, true), _ :: rest => scan place single rest g
      | _, _ => none

/-- The command of that name with its arguments, none of which may be empty. -/
def command? (name : String) (found : Found) : Option Command :=
  if found.others.any (·.isEmpty) then none
  else
    match name, found.others with
    | "demo", [] => some (.demo ((found.switches.lookup .outDir).getD "."))
    | "check", path :: paths => some (.check (path :: paths))
    | "dump", [path] => some (.dump path)
    | _, _ => none

/-- Reads a command line, if it is used rightly. A style given after the command wins. -/
def ofArguments? (args : List String) : Option Invocation := do
  let (before, rest) ← scan {} true args {}
  let name ← before.others.head?
  let (after, _) ← scan (if name = "demo" then .demo else {}) false rest {}
  let command ← command? name after
  let switches := after.switches ++ before.switches
  return {
    verbose := (switches.lookup .verbose).isSome
    style := switches.lookup .style
    command }

end Invocation

end FlowGraph
