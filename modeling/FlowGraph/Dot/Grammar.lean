import FlowGraph.Dot.Graph
import FlowGraph.Reader.Basic
import FlowGraph.Text.Quoted

/-!
The DOT subset that can be read: one `digraph` with attribute, default, node and edge statements.
An id is a quoted text or a bare word. The bare words `graph`, `node` and `edge` before an attribute
list are defaults; in quotes they are ids.
-/
namespace FlowGraph.Dot

open Reader

/-- A backslash and the character that it gives another meaning. -/
def escaped : Reader Char := do
  let _ ← char '\\'
  char '\\' <|> char '"' <|> (do let _ ← char 'n'; return '\n') <|>
    (do let _ ← char 'r'; return '\r')

def quotedText : Reader String := labelled "quoted string" do
  let _ ← char '"'
  let cs ← many (noneOf ['\\', '"'] <|> escaped)
  let _ ← char '"'
  return String.ofList cs

def isWordChar (c : Char) : Bool := c.isAlphanum || c == '_' || c == '.'

def bareWord : Reader String := labelled "identifier" do
  return String.ofList (← many1 (ofClass isWordChar))

def ident : Reader String := labelled "id" (quotedText <|> bareWord)

/-- Two ids around an equals sign. -/
def assignment : Reader Attribute := do
  let key ← ident
  let _ ← padded (char '=')
  let value ← ident
  return ⟨key, value⟩

def attributeList : Reader (List Attribute) := labelled "attribute list" do
  let _ ← char '['
  let attributes ← separated (padded assignment) (oneOf [',', ';'])
  let _ ← char ']'
  return attributes

/-- An attribute list with blanks around it, or nothing. -/
def someAttributes : Reader (List Attribute) := do
  return (← optional (padded attributeList)).getD []

def edgeStatement : Reader Statement := labelled "edge statement" do
  let src ← ident
  padded (word ['-', '>'])
  let dst ← ident
  return .edge src dst (← someAttributes)

def attributeStatement : Reader Statement := labelled "attribute statement" do
  return .attribute (← assignment)

/-- A keyword, as a text. -/
def keyword (name : String) : Reader String := do
  word name.toList
  return name

def defaultsStatement : Reader Statement := labelled "default attribute statement" do
  let target ← keyword "graph" <|> keyword "node" <|> keyword "edge"
  return .defaults target (← padded attributeList)

def nodeStatement : Reader Statement := labelled "node statement" do
  let name ← ident
  return .node name (← someAttributes)

/-- The kinds of statement are tried in this order. At most one semicolon follows. -/
def statement : Reader Statement := labelled "statement" do
  let s ← edgeStatement <|> attributeStatement <|> defaultsStatement <|> nodeStatement
  let _ ← optional (padded (char ';'))
  return s

def digraph : Reader Graph := labelled "digraph" do
  padded (keyword "digraph" *> pure ())
  let name ← optional (padded ident)
  let _ ← padded (char '\x7b')
  let statements ← many (padded statement)
  let _ ← padded (char '\x7d')
  endOfInput
  return { id := name, statements := statements }

/-- Reads a graph, or says where and why the source is none. -/
def Graph.read (source : String) : Except SyntaxError Graph := digraph.run source

end FlowGraph.Dot
