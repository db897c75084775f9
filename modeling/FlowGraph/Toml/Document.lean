import FlowGraph.Toml.Item
import FlowGraph.Toml.Text

/-! Reading TOML documents. -/
namespace FlowGraph.Toml

open Reader

def comment : Reader Unit := do
  let _ ← char '#'
  skip (!isControl ·)

/-- Blanks, line ends and comments. -/
def gap : Reader Unit := do
  let _ ← many ((do let _ ← ofClass isSpace) <|> (do let _ ← newline) <|> comment)

/-- The reader with blanks on its line around it. -/
def spaced {α : Type} (r : Reader α) : Reader α := do
  skip isSpace
  let a ← r
  skip isSpace
  return a

def isBareChar (c : Char) : Bool := c.isAlphanum || c == '_' || c == '-'

def simpleKey : Reader String :=
  (do return String.ofList (← many1 (ofClass isBareChar))) <|> basicText <|> literalText

/-- The number of names that a key may have, and of arrays and inline tables that may be nested. -/
def depthLimit : Nat := 80

/-- One or more names with dots between them. -/
def key : Reader (List String) := do
  let first ← simpleKey
  let others ← many (spaced (char '.') *> simpleKey)
  require (others.length < depthLimit)
  return first :: others

/-- Items with commas between them and maybe one after the last. Gaps may stand anywhere. -/
def commaSeparated {α : Type} (item : Reader α) : Reader (List α) := do
  gap
  let items ← separated (item <* gap) (char ',' <* gap)
  return items

/-- A key with its value, in an inline table. -/
def pair (value : Reader Item) : Reader (List String × Item) := do
  let k ← key
  gap
  let _ ← char '='
  gap
  return (k, ← value)

/-- A value whose arrays and tables are nested at most `depth` deep. -/
def valueWithin (depth : Nat) : Reader Item :=
  (do return .text (← text)) <|> (do return .scalar (← scalar)) <|>
    match depth with
    | 0 => fail
    | depth + 1 =>
      (do
        let _ ← char '['
        let items ← commaSeparated (valueWithin depth)
        let _ ← char ']'
        return .array items) <|>
      (do
        let _ ← char '\x7b'
        let pairs ← commaSeparated (pair (valueWithin depth))
        let _ ← char '\x7d'
        match pairs.foldlM (fun fields (k, v) => Fields.assign v k fields) [] with
        | some fields => return .inline fields
        | none => fail)

def value : Reader Item := valueWithin depthLimit

/-- The path and the last name of a key in brackets. -/
def bracketed (opening closing : List Char) : Reader (List String × String) := do
  word opening
  let names ← spaced key
  word closing
  return (names.dropLast, (names.getLast?).getD "")

def entry : Reader Entry :=
  (do
    let (path, name) ← bracketed ['[', '['] [']', ']']
    return .arrayHeader path name) <|>
  (do
    let (path, name) ← bracketed ['['] [']']
    return .header path name) <|>
  (do
    let k ← key
    let _ ← spaced (char '=')
    return .assignment k (← value))

/-- An entry ends with its line. -/
def endOfEntry : Reader Unit := do
  skip isSpace
  let _ ← Reader.optional comment
  (do let _ ← newline) <|> endOfInput

def document : Reader (List Entry) := do
  let _ ← Reader.optional (char '\ufeff')
  gap
  let entries ← many (do
    let e ← entry
    endOfEntry
    gap
    return e)
  endOfInput
  return entries

/-- The top-level table of a document, if the source is one. -/
def read? (source : String) : Option Fields :=
  match document.run source with
  | .ok entries => Fields.ofEntries? entries [] []
  | .error _ => none

end FlowGraph.Toml
