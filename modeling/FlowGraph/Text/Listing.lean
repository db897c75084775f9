import FlowGraph.Text.Hex
import FlowGraph.Text.Printable

/-!
A list of texts on one line, as in `["a", "b"]`. Quotes and backslashes follow a backslash, and
characters that do not show are named by a letter or by their number.
-/
namespace FlowGraph.Text

def literalChar : Char → String
  | '"' => "\\\""
  | '\\' => "\\\\"
  | '\n' => "\\n"
  | '\r' => "\\r"
  | '\t' => "\\t"
  | '\x00' => "\\0"
  | c => if isPrintable c then c.toString else "\\u\x7b" ++ hexDigits c.toNat ++ "\x7d"

def literal (s : String) : String :=
  "\"" ++ String.join (s.toList.map literalChar) ++ "\""

def listing (items : List String) : String :=
  "[" ++ ", ".intercalate (items.map literal) ++ "]"

end FlowGraph.Text
