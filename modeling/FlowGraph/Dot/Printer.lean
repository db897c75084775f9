import FlowGraph.Dot.Graph
import FlowGraph.Text.Quoted

/-!
DOT text. Statements stand on lines of their own. Ids and labels are quoted; other values are quoted
unless they are plain words.
-/
namespace FlowGraph.Dot

def isPlainChar (c : Char) : Bool := c.isAlphanum || c == '_'

/-- A plain word as it is, any other text in quotes. -/
def wordOrQuoted (s : String) : String :=
  if s ≠ "" ∧ s.toList.all isPlainChar then s else Text.quoted s

def Attribute.text (a : Attribute) : String :=
  wordOrQuoted a.key ++ "=" ++
    if a.key = "label" then Text.quoted a.value else wordOrQuoted a.value

def attributesText (attributes : List Attribute) : String :=
  "[" ++ ", ".intercalate (attributes.map Attribute.text) ++ "]"

def Statement.text : Statement → String
  | .attribute a => a.text
  | .defaults target attributes => target ++ " " ++ attributesText attributes
  | .node id attributes => Text.quoted id ++ " " ++ attributesText attributes
  | .edge src dst attributes =>
    Text.quoted src ++ " -> " ++ Text.quoted dst ++ " " ++ attributesText attributes

/-- A statement on its line. -/
def Statement.line (s : Statement) : String := "    " ++ s.text ++ ";\n"

def lines (statements : List Statement) : String := String.join (statements.map Statement.line)

end FlowGraph.Dot
