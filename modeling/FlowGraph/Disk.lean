import FlowGraph.Command.Plan
import FlowGraph.Disk.System
import FlowGraph.Path

/-! A tree of text files, on which plans can be carried out. -/
namespace FlowGraph

/-- Everything from the top on, and the way to the directory where paths start that do not start at
the top. -/
structure Disk where
  top : Disk.Entry
  here : List String
deriving Repr

namespace Disk

/-- A system with an empty directory to work in. -/
def empty : Disk where
  top := (Entry.put (.directory [] false) ["tmp", "work"] system).getD system
  here := ["tmp", "work"]

/-- The number of bytes that a path may have. -/
def pathLimit : Nat := 4095

/-- Refuses a path whose form is wrong, whatever is on the disk. -/
def checkPath (names : List String) : Except FileError Unit :=
  if names.any (·.toList.contains '\x00') then .error .nulInName
  else if names.isEmpty then .error .notFound
  else if pathLimit < (Path.text names).utf8ByteSize then .error .nameTooLong
  else .ok ()

/-- Where a path leads. -/
def follow (d : Disk) : List String → Except FileError Spot
  | "/" :: names => d.top.follow [] names
  | names => d.top.follow [] (d.here ++ names)

def locate (d : Disk) (names : List String) : Except FileError Spot := do
  checkPath names
  d.follow names

/-- Puts an entry where a path leads. -/
def put (d : Disk) (spot : Spot) (entry : Entry) : Except FileError Disk :=
  match Entry.put entry spot.names d.top with
  | some top => .ok { d with top }
  | none => .error .notFound

def read (d : Disk) (path : String) : Except FileError String := do
  match (← d.locate (Path.names path)).found with
  | some (.file text) => return text
  | some .binary => .error .notText
  | some (.directory _ _) => .error .isDirectory
  | none => .error .notFound

def write (d : Disk) (path text : String) : Except FileError Disk := do
  let spot ← d.locate (Path.names path)
  match spot.found with
  | some (.directory _ _) => .error .isDirectory
  | _ => d.put spot (.file text)

/-- Makes one directory. Slashes at the end of its path do not count for where it leads, but a dot
does: it is found in a directory that is already there. -/
def makeDirectory (d : Disk) (names : List String) : Except FileError Disk := do
  checkPath names
  let spot ← d.follow (names.reverse.dropWhile (· = "")).reverse
  if spot.found.isSome then .error .alreadyExists else d.put spot (.directory [] false)

/-- Whether a path leads to a directory. -/
def holdsDirectory (d : Disk) (names : List String) : Bool :=
  match d.locate names with
  | .ok spot => spot.found.any Entry.isDirectory
  | .error _ => false

/-- Makes a directory unless it is there already. -/
def ensureDirectory (names : List String) : StateM Disk (Option FileError) := do
  let d ← get
  match d.makeDirectory names with
  | .ok d' =>
    set d'
    return none
  | .error e => return if d.holdsDirectory names then none else some e

/-- Makes a directory and those above it that are missing. -/
def makeDirectories (d : Disk) (names : List String) : Except FileError Disk :=
  match (Path.makeAll ensureDirectory names).run d with
  | (none, d') => .ok d'
  | (some e, _) => .error e

/-- A disk with those files and the directories that they need. A path that leads nowhere is left
out. -/
def ofFiles (files : List (String × String)) : Disk :=
  files.foldl (fun d (path, text) =>
    match d.makeDirectories (Path.names path).dropLast >>= (·.write path text) with
    | .ok d' => d'
    | .error _ => d) empty

/-- The files below the directory where paths start, with the ways to them from there. -/
def texts (d : Disk) : List (List String × String) :=
  match d.follow [] with
  | .ok { found := some entry, .. } => entry.texts []
  | _ => []

/-- The files that are new or have another text than in `old`, with their paths. -/
def changes (d old : Disk) : List (String × String) :=
  let before := old.texts
  (d.texts.filter fun (place, text) => before.lookup place ≠ some text).map fun (place, text) =>
    (Path.text place, text)

end Disk

/-- What carrying out a plan leaves behind. -/
structure Aftermath where
  code : Nat
  output : String
  errors : String
  disk : Disk
deriving Repr

/-- Carries out one step. -/
def Step.carryOut (s : Step) (a : Aftermath) : Except FileError Aftermath :=
  match s with
  | .print text => .ok { a with output := a.output ++ text }
  | .complain text => .ok { a with errors := a.errors ++ text }
  | .makeDirectory path => return { a with disk := ← a.disk.makeDirectories (Path.names path) }
  | .write path text => return { a with disk := ← a.disk.write path text }

/-- Carries out steps up to the first that fails. -/
def Step.carryOutAll (code : Nat) : List Step → Aftermath → Aftermath
  | [], a => { a with code }
  | s :: rest, a =>
    match s.carryOut a with
    | .ok b => carryOutAll code rest b
    | .error e => { a with code := 1, errors := a.errors ++ s.failure e }

/-- Carries out a plan on a tree of files. -/
def Plan.carryOut (p : Plan) (d : Disk) : Aftermath :=
  Step.carryOutAll p.code p.steps { code := 0, output := "", errors := "", disk := d }

end FlowGraph
