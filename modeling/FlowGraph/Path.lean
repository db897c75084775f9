import FlowGraph.FileError

/-! Paths of files, as the names that lead on from one directory to the next. -/
namespace FlowGraph.Path

/-- The names of a path. The name of the directory at the top is a slash. -/
def names (path : String) : List String :=
  match path.splitOn "/" with
  | [""] => []
  | "" :: rest => "/" :: rest
  | names => names

def text : List String → String
  | "/" :: rest => "/" ++ "/".intercalate rest
  | names => "/".intercalate names

/-- The names without those at the end that lead nowhere. -/
def trimmed (names : List String) : List String :=
  (names.reverse.dropWhile fun name => name = "" || name = ".").reverse

theorem length_trimmed_le (names : List String) : (trimmed names).length ≤ names.length := by
  have := (List.dropWhile_sublist (l := names.reverse)
    fun name => name = "" || name = ".").length_le
  simpa [trimmed] using this

/-- The path of the directory that a path leads through last. -/
def enclosing (names : List String) : List String := trimmed (trimmed names).dropLast

theorem length_enclosing_lt {names : List String} (h : names ≠ []) :
    (enclosing names).length < names.length := by
  have := length_trimmed_le names
  have := length_trimmed_le (trimmed names).dropLast
  have := List.length_pos_iff.mpr h
  simp only [enclosing, List.length_dropLast] at *
  omega

/-- Makes a directory and those above it that are missing, by an action that makes one directory.
The action has no complaint about a directory that is there already. -/
def makeAll {m : Type → Type} [Monad m] (make : List String → m (Option FileError))
    (names : List String) : m (Option FileError) :=
  if _h : names = [] then return none
  else do
    match ← make names with
    | some .notFound =>
      match ← makeAll make (enclosing names) with
      | none => make names
      | some e => return some e
    | outcome => return outcome
termination_by names.length
decreasing_by exact length_enclosing_lt _h

end FlowGraph.Path
