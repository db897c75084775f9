import FlowGraph.Reader.Cursor

/-!
What a reading that fails complains about: the furthest place that it could not pass, with what it
expected there. The parts of a reading leave notes; settling them in order gives the one complaint.
-/
namespace FlowGraph

inductive Expectation where
  | char (c : Char)
  | anyChar
  | otherChar
  | endOfInput
  | label (text : String)
deriving DecidableEq, Repr

def Expectation.text : Expectation → String
  | .char c => "'" ++ c.toString ++ "'"
  | .anyChar => "any"
  | .otherChar => "something else"
  | .endOfInput => "end of input"
  | .label text => text

/-- A place at which something else was expected. -/
structure Complaint where
  place : Cursor
  expected : List Expectation
deriving DecidableEq, Repr

/-- `add` is left by a character that does not fit, `merge` by a part with complaints of its own. -/
inductive Note where
  | add (c : Complaint)
  | merge (c : Complaint)
deriving DecidableEq, Repr

/-- Appends the elements of `new` that are not yet there. -/
def Expectation.join (old new : List Expectation) : List Expectation :=
  new.foldl (fun acc e => if e ∈ acc then acc else acc ++ [e]) old

/-- Starts with the longer of two lists. -/
def Expectation.joinLonger (old new : List Expectation) : List Expectation :=
  if old.length < new.length then join new old else join old new

namespace Note

def complaint : Note → Complaint
  | .add c | .merge c => c

/-- What is expected after a note about a place that is already complained about. -/
def combine (old : List Expectation) : Note → List Expectation
  | .add c => Expectation.join old c.expected
  | .merge c => Expectation.joinLonger old c.expected

/-- A note about a later place wins, one about an earlier place is dropped. -/
def settleOne (pending : Option Complaint) (n : Note) : Option Complaint :=
  match pending with
  | none => some n.complaint
  | some old =>
    if n.complaint.place.left < old.place.left then some n.complaint
    else if n.complaint.place.left = old.place.left then
      some { old with expected := n.combine old.expected }
    else some old

/-- The complaint that a list of notes amounts to. -/
def settle (notes : List Note) : Option Complaint := notes.foldl settleOne none

end Note

/-- A syntax error: a range of bytes in the source and a message. -/
structure SyntaxError where
  file : Option String := none
  message : String
  start : Nat
  stop : Nat
deriving DecidableEq, Repr

/-- The error as one line. -/
def SyntaxError.line (e : SyntaxError) : String :=
  (e.file.map (· ++ ":")).getD "" ++ s!"{e.start}..{e.stop}: {e.message}"

namespace Complaint

/-- Alternatives in words: `a`, `a, or b`, `a, b, or c`. -/
def alternatives : List String → String
  | [] => ""
  | [a] => a
  | as => ", ".intercalate (as.dropLast ++ ["or " ++ (as.getLast?).getD ""])

/-- What stands at the place: a character or the end. -/
def found (c : Complaint) : Expectation :=
  match c.place.next? with
  | some (x, _) => .char x
  | none => .endOfInput

/-- The error points to the character found, or to nothing at the end. -/
def toError (c : Complaint) (sourceSize : Nat) : SyntaxError :=
  let after := ((c.place.next?).map (·.2)).getD c.place
  { message := "found " ++ c.found.text ++ " expected " ++ alternatives (c.expected.map (·.text))
    start := sourceSize - c.place.left
    stop := sourceSize - after.left }

end Complaint

end FlowGraph
