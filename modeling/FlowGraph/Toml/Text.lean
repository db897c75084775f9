import FlowGraph.Toml.Scalar

/-! TOML texts: basic ones with escapes and literal ones without, on one line or on several. -/
namespace FlowGraph.Toml

open Reader

/-- The control characters, of which only the tab may stand in a text or a comment. -/
def isControl (c : Char) : Bool := (c.toNat < 0x20 && c != '\t') || c.toNat == 0x7F

def newline : Reader String :=
  (do let _ ← char '\n'; return "\n") <|> (do word ['\r', '\n']; return "\r\n")

/-- A character given by its number, in `n` hexadecimal digits. -/
def numbered (n : Nat) : Reader Char := do
  let code := numberOf 16 (← exactly isHexDigit n)
  if code.isValidChar then return Char.ofNat code else fail

def escape : Reader Char := do
  let _ ← char '\\'
  match ← ofClass fun _ => true with
  | 'b' => return '\x08'
  | 't' => return '\t'
  | 'n' => return '\n'
  | 'f' => return '\x0c'
  | 'r' => return '\r'
  | 'e' => return '\x1b'
  | '"' => return '"'
  | '\\' => return '\\'
  | 'x' => numbered 2
  | 'u' => numbered 4
  | 'U' => numbered 8
  | _ => fail

/-- A character as a text. -/
def single (r : Reader Char) : Reader String := do return (← r).toString

def basicText : Reader String := do
  let _ ← char '"'
  let cs ← many (ofClass (fun c => !isControl c && c != '"' && c != '\\') <|> escape)
  let _ ← char '"'
  return String.ofList cs

def literalText : Reader String := do
  let _ ← char '\''
  let cs ← many (ofClass fun c => !isControl c && c != '\'')
  let _ ← char '\''
  return String.ofList cs

/-- A backslash at the end of a line joins it to the next text, whatever blanks are between. -/
def continuation : Reader String := do
  let _ ← char '\\'
  skip isSpace
  let _ ← newline
  let _ ← many (newline <|> single (ofClass isSpace))
  return ""

/-- Fewer than three quotes. -/
def shortRun (quote : Char) : Reader String := do
  let run ← many1 (char quote)
  require (run.length < 3)
  return String.ofList run

/-- A text between threefold quotes. A line end right after the first is dropped; up to two quotes
may stand right before the last. -/
def multiline (quote : Char) (piece : Reader String) : Reader String := do
  word [quote, quote, quote]
  let _ ← Reader.optional newline
  let pieces ← many (piece <|> shortRun quote)
  let run ← many1 (char quote)
  require (3 ≤ run.length && run.length ≤ 5)
  return String.join pieces ++ String.ofList (run.drop 3)

def multilineBasicText : Reader String :=
  multiline '"' <|
    single (ofClass fun c => !isControl c && c != '"' && c != '\\') <|> newline <|> continuation <|>
      single escape

def multilineLiteralText : Reader String :=
  multiline '\'' (single (ofClass fun c => !isControl c && c != '\'') <|> newline)

def text : Reader String :=
  multilineBasicText <|> multilineLiteralText <|> basicText <|> literalText

end FlowGraph.Toml
