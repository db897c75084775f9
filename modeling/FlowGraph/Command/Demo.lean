import FlowGraph.Command.Plan
import FlowGraph.Dot.Building
import FlowGraph.Dot.Export
import FlowGraph.Dump

/-!
The demo: a module that comes and goes, a diamond that is drawn after each of some edits, and a
function for each outcome of a check.
-/
namespace FlowGraph.Demo

open Dot (Building Statement)

def block (name : String) : Statement := .node name []

def edge (src dst tag : String) : Statement := .edge src dst [⟨"label", tag⟩]

def diamond : List Statement :=
  [block "Entry", block "H", block "I", block "J", edge "Entry" "H" "true",
    edge "Entry" "I" "false", edge "H" "J" "", edge "I" "J" ""]

/-- A new function of a module with the blocks and edges of the statements. -/
def sketch (m : Module) (uid : Uid) (name : String) (statements : List Statement) :
    Module × FunctionKey × Building :=
  let (created, key) := m.createFunction uid name
  let start : Building := { function := .empty uid name m.uid, events := [m.creation name] }
  let (built, _) := start.takeAll statements
  (created.replace key built.function, key, built)

/-- Two blocks are created, one is deleted, then their function. The module is shown each time. -/
def lifecycle (verbose : Bool) : List Step :=
  let (m, key, built) := sketch (.empty ⟨0⟩ "test1") ⟨1⟩ "Func1" [block "BB1", block "BB2"]
  let f := built.function
  let g := ((f.deleteBlockNamed? "BB2").map (·.2)).getD f
  let m' := m.replace key g
  let m'' := ((m'.deleteFunction? key).map (·.2)).getD m'
  Event.steps verbose built.events ++ [.print m.dump] ++
    Event.steps verbose (f.deletionNamed "BB2") ++ [.print m'.dump] ++
    Event.steps verbose (m'.deletion key) ++ [.print m''.dump]

/-- A file in a directory. -/
def join (dir file : String) : String :=
  if dir.endsWith "/" then dir ++ file else dir ++ "/" ++ file

/-- Writes a function as DOT and says so. -/
def draw (f : Function) (style : Dot.Style) (path : String) : Except Fault (List Step) :=
  return [.write path (← f.dot style), .print s!"{path} generated\n"]

/-- The diamond refuses a second edge with the tag `true`, loses a side and gets a loop. -/
def drawings (verbose : Bool) (style : Dot.Style) (outDir : String) : Except Fault (List Step) := do
  let (_, _, first) := sketch (.empty ⟨2⟩ "test2") ⟨3⟩ "Func1" diamond
  let (refused, failure) := { first with events := [] }.take (edge "Entry" "J" "true")
  let refusal := failure.toList.map fun e =>
    Step.print s!"It's not possible to create successor Entry->J with tag 'true': {e.message}\n"
  let removal := Event.remark "Removing basic block H"
  let f := refused.function
  let g := ((f.deleteBlockNamed? "H").map (·.2)).getD f
  let second : Building := { refused with function := g, events := [] }
  let (third, _) := second.takeAll [block "K", edge "J" "K" "loop", edge "K" "J" "loop"]
  return [.makeDirectory outDir] ++
    Event.steps verbose (first.events ++ refused.events) ++ refusal ++
    (← draw f style (join outDir "graph.dot")) ++
    Event.steps verbose (removal :: f.deletionNamed "H") ++
    (← draw g style (join outDir "graph2.dot")) ++ Event.steps verbose third.events ++
    (← draw third.function style (join outDir "graph3.dot"))

/-- Changes the first block of that name. -/
def editNamed (f : Function) (name : String) (e : BlockEdit) : Function :=
  ((f.blockNamed? name).bind (f.editBlock? · e)).getD f

/-- The functions to be checked: a sound one and one with each defect. -/
def samples : List (String × List Statement × (Function → Function)) :=
  [("Func1", diamond, id),
    ("Func2", [block "Entry", block "FakeEntry", edge "Entry" "FakeEntry" ""],
      (editNamed · "FakeEntry" (.entry true))),
    ("Func3", [block "Entry", block "H", block "I", block "J", edge "Entry" "H" "true",
      edge "Entry" "I" "false"], id),
    ("Func4", [block "Entry"], (editNamed · "Entry" (.entry false)))]

/-- The outcome of one check. -/
def verdict (f : Function) : Option Defect → Step
  | none => .print s!"Function {f.name} is correct.\n"
  | some d => .complain (d.message ++ "\n")

/-- Every sample is checked and the failures are counted. -/
def checks (verbose : Bool) : Except Fault (List Step) := do
  let start : Module × List Event := (.empty ⟨4⟩ "test3", [])
  let (m, events) := samples.zipIdx.foldl
    (fun (m, events) ((name, statements, change), i) =>
      let (m, key, built) := sketch m ⟨5 + i⟩ name statements
      (m.replace key (change built.function), events ++ built.events)) start
  let outcomes ← m.inspectAll
  let verdicts := (m.members.zip outcomes).map fun (x, _, i) => verdict x.function i.defect
  let failures := (outcomes.filter (·.2.defect.isSome)).length
  let summary := Event.remark s!"{failures} of 4 sample functions failed validation"
  return Event.steps verbose events ++ verdicts ++ Event.steps verbose [summary]

def plan (verbose : Bool) (style : Dot.Style) (outDir : String) : Except Fault Plan :=
  return { steps := lifecycle verbose ++ (← drawings verbose style outDir) ++ (← checks verbose) }

end FlowGraph.Demo
