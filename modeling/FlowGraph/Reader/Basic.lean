import FlowGraph.Reader.Complaint
import FlowGraph.Text.Blank

/-!
Readers of text. A reader takes the longest way that its parts find in order, gives back what a
failed part has read, and leaves notes about every place it could not pass.
-/
namespace FlowGraph

/-- What a reader finds and where it stops, with the notes that it leaves. -/
structure Reading (α : Type) where
  result : Option (α × Cursor)
  notes : List Note := []

def Reader (α : Type) : Type := Cursor → Reading α

namespace Reader

variable {α β : Type}

instance : Monad Reader where
  pure a c := ⟨some (a, c), []⟩
  bind r k c :=
    match r c with
    | ⟨none, notes⟩ => ⟨none, notes⟩
    | ⟨some (a, d), notes⟩ =>
      let second := k a d
      ⟨second.result, notes ++ second.notes⟩

/-- Fails at `c` with a note. -/
def reject (note : Complaint → Note) (expected : List Expectation) (c : Cursor) : Reading α :=
  ⟨none, [note ⟨c, expected⟩]⟩

/-- One character that satisfies `p`. -/
def satisfy (p : Char → Bool) (expected : List Expectation) : Reader Char := fun c =>
  match c.next? with
  | some (x, d) => if p x then ⟨some (x, d), []⟩ else reject .add expected c
  | none => reject .add expected c

def char (x : Char) : Reader Char := satisfy (· == x) [.char x]

/-- The characters of a word, one by one. -/
def word : List Char → Reader Unit
  | [] => pure ()
  | x :: xs => do
    let _ ← char x
    word xs

def oneOf (xs : List Char) : Reader Char := satisfy (xs.contains ·) (xs.map .char)

def noneOf (xs : List Char) : Reader Char := satisfy (!xs.contains ·) [.otherChar]

/-- One character of a class; another character is complained about as a whole part. -/
def ofClass (p : Char → Bool) : Reader Char := fun c =>
  match c.next? with
  | some (x, d) => if p x then ⟨some (x, d), []⟩ else reject .merge [.otherChar] c
  | none => reject .add [.anyChar] c

/-- Fails without a note. -/
def fail : Reader α := fun _ => ⟨none, []⟩

/-- Goes on only if the condition holds. -/
def require (condition : Bool) : Reader Unit := if condition then pure () else fail

def endOfInput : Reader Unit := fun c =>
  match c.next? with
  | some _ => reject .add [.endOfInput] c
  | none => ⟨some ((), c), []⟩

/-- The first reader, or from the same place the second. -/
def orElse (r s : Reader α) : Reader α := fun c =>
  match r c with
  | ⟨some found, notes⟩ => ⟨some found, notes⟩
  | ⟨none, notes⟩ =>
    let second := s c
    ⟨second.result, notes ++ second.notes⟩

instance : OrElse (Reader α) := ⟨fun r s => r.orElse (s ())⟩

/-- What the reader finds, or nothing without moving. -/
def optional (r : Reader α) : Reader (Option α) :=
  (do return some (← r)) <|> pure none

/-- As many as can be found. The repetition stops where the reader does not move on. -/
def many (r : Reader α) : Reader (List α) := fun c =>
  match r c with
  | ⟨none, notes⟩ => ⟨some ([], c), notes⟩
  | ⟨some (a, d), notes⟩ =>
    if d.left < c.left then
      let others := many r d
      ⟨others.result.map fun (as, e) => (a :: as, e), notes ++ others.notes⟩
    else ⟨some ([], c), notes⟩
termination_by c => c.left

/-- At least one. -/
def many1 (r : Reader α) : Reader (List α) := do
  let first ← r
  let others ← r.many
  return first :: others

/-- Zero or more items with separators between them; one more separator may follow the last item. -/
def separated (item : Reader α) (separator : Reader β) : Reader (List α) := do
  match ← optional item with
  | none => return []
  | some first =>
    let others ← many (separator *> item)
    let _ ← optional separator
    return first :: others

/-- Skips the characters that satisfy `p`. -/
def skip (p : Char → Bool) : Reader Unit := fun c => ⟨some ((), c.skip p), []⟩

def blanks : Reader Unit := skip Text.isBlank

/-- The reader with blanks around it. -/
def padded (r : Reader α) : Reader α := do
  blanks
  let a ← r
  blanks
  return a

/-- Gives a name to what the reader expects: a complaint about its first place names it alone. -/
def labelled (name : String) (r : Reader α) : Reader α := fun c =>
  let reading := r c
  match Note.settle reading.notes with
  | none => reading
  | some inner =>
    let expected := if inner.place.left = c.left then [.label name] else inner.expected
    { reading with notes := [.merge { inner with expected }] }

/-- Reads a whole text with a reader that itself goes to the end. -/
def run (r : Reader α) (source : String) : Except SyntaxError α :=
  let start := Cursor.before source.toList
  match r start with
  | ⟨some (a, _), _⟩ => .ok a
  | ⟨none, notes⟩ => .error (((Note.settle notes).getD ⟨start, []⟩).toError start.left)

/-- Reads a whole text. -/
def runAll (r : Reader α) (source : String) : Except SyntaxError α :=
  (r <* endOfInput).run source

end Reader

end FlowGraph
