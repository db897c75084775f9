/-!
Text between double quotes. A backslash and a quote are written after a backslash, a line feed as
`\n` and a carriage return as `\r`; every other character stands for itself.
-/
namespace FlowGraph.Text

/-- How one character is written between quotes. -/
def escapeChar : Char → List Char
  | '\\' => ['\\', '\\']
  | '"' => ['\\', '"']
  | '\n' => ['\\', 'n']
  | '\r' => ['\\', 'r']
  | c => [c]

def escapeList (cs : List Char) : List Char := cs.flatMap escapeChar

@[simp] theorem escapeList_nil : escapeList [] = [] := rfl

@[simp] theorem escapeList_cons (c : Char) (cs : List Char) :
    escapeList (c :: cs) = escapeChar c ++ escapeList cs := rfl

theorem escapeList_append (cs ds : List Char) :
    escapeList (cs ++ ds) = escapeList cs ++ escapeList ds := List.flatMap_append

/-- The written form of a text, without the quotes around it. -/
def escape (s : String) : String := String.ofList (escapeList s.toList)

theorem toList_escape (s : String) : (escape s).toList = escapeList s.toList := by
  simp [escape]

theorem escape_append (s t : String) : escape (s ++ t) = escape s ++ escape t := by
  simp [escape, escapeList_append]

/-- A text in quotes. -/
def quoted (s : String) : String := "\"" ++ escape s ++ "\""

/-- The meaning of the character after a backslash, if it has one. -/
def unescapeChar? : Char → Option Char
  | '\\' => some '\\'
  | '"' => some '"'
  | 'n' => some '\n'
  | 'r' => some '\r'
  | _ => none

end FlowGraph.Text
