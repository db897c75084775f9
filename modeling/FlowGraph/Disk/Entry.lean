import FlowGraph.FileError

/-! Trees of files and directories. -/
namespace FlowGraph.Disk

/-- A file holds a text or bytes that are none. Nothing new can be put into a directory that is
fixed. -/
inductive Entry where
  | file (text : String)
  | binary
  | directory (entries : List (String × Entry)) (fixed : Bool)
deriving Repr

/-- Where names lead: the names on the straight way there, and what is there. -/
structure Spot where
  names : List String
  found : Option Entry
deriving Repr

/-- The number of bytes that a name in a directory may have. -/
def nameLimit : Nat := 255

namespace Entry

def isDirectory : Entry → Bool
  | .directory _ _ => true
  | _ => false

/-- The entry at the end of a way that starts at `top`. The last step of the way comes first. -/
def last (top : Entry) : List (String × Entry) → Entry
  | [] => top
  | (_, entry) :: _ => entry

/-- Where names lead from the end of a way that starts at `top`. The name `..` takes back the last
step. Everything but the last name has to be there. -/
def follow (top : Entry) (way : List (String × Entry)) : List String → Except FileError Spot
  | [] => .ok ⟨(way.map (·.1)).reverse, some (last top way)⟩
  | name :: rest =>
    match last top way with
    | .file _ | .binary => .error .notDirectory
    | .directory entries _ =>
      if name = "" || name = "." then follow top way rest
      else if name = ".." then follow top way.tail rest
      else if nameLimit < name.utf8ByteSize then .error .nameTooLong
      else
        match entries.lookup name with
        | some entry => follow top ((name, entry) :: way) rest
        | none =>
          if rest.isEmpty then .ok ⟨((way.map (·.1)).reverse) ++ [name], none⟩
          else .error .notFound

/-- Puts an entry at the end of a straight way, in the place of what is there. -/
def put (new : Entry) : List String → Entry → Option Entry
  | [], _ => some new
  | name :: rest, .directory entries fixed =>
    match entries.lookup name with
    | some old => do
      let changed ← put new rest old
      return .directory (entries.map fun (n, e) => (n, if n = name then changed else e)) fixed
    | none =>
      if rest.isEmpty && !fixed then some (.directory (entries ++ [(name, new)]) fixed) else none
  | _ :: _, _ => none

mutual

/-- The texts of the files in an entry, with the ways to them from `place`. -/
def texts (place : List String) : Entry → List (List String × String)
  | .file text => [(place, text)]
  | .binary => []
  | .directory entries _ => textsIn place entries

def textsIn (place : List String) : List (String × Entry) → List (List String × String)
  | [] => []
  | (name, entry) :: rest => entry.texts (place ++ [name]) ++ textsIn place rest

end

end Entry

end FlowGraph.Disk
