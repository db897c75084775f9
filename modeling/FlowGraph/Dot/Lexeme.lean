import FlowGraph.Dot.Derivation

/-! Texts of the DOT subset as tokens with blanks between them. -/
namespace FlowGraph.Dot.Derivation

def Blanks (gap : List Char) : Prop := ∀ c ∈ gap, Text.isBlank c

/-- The characters that are tokens of their own. -/
def IsMark (c : Char) : Prop := c ∈ ['\x7b', '\x7d', '[', ']', '=', ',', ';']

inductive IsToken : List Char → Prop where
  | mark {c : Char} : IsMark c → IsToken [c]
  | arrow : IsToken ['-', '>']
  | quoted {w m : List Char} : Spells w m → IsToken ('"' :: (w ++ ['"']))
  | word {word : List Char} : word ≠ [] → (∀ c ∈ word, IsWordChar c) → IsToken word

/-- A word does not go on behind its end. -/
def Fits (tok rest : List Char) : Prop :=
  (∀ c ∈ tok, IsWordChar c) → ∀ c ∈ rest.head?, ¬ IsWordChar c

/-- The tokens of a text. -/
inductive Lexes : List Char → List (List Char) → Prop where
  | nil {gap : List Char} : Blanks gap → Lexes gap []
  | cons {gap tok rest : List Char} {ts : List (List Char)} :
    Blanks gap → IsToken tok → Fits tok rest → Lexes rest ts →
    Lexes (gap ++ (tok ++ rest)) (tok :: ts)

/-- A place between two tokens of a graph, or at one of its ends. The word at the beginning of a
graph is a token even if another word follows at once. -/
inductive Seam : List Char → List Char → Prop where
  | start {pre post : List Char} : Blanks pre → Seam pre post
  | inner {gap pre post : List Char} {ts us : List (List Char)} :
    Blanks gap → Lexes pre ts → Lexes post us → Lexes (pre ++ post) (ts ++ us) →
    Seam (gap ++ ("digraph".toList ++ pre)) post

/-- A place before the end of an attribute list, right behind its beginning or a separator. -/
inductive Hole : List Char → List Char → Prop where
  | mk {pre post : List Char} {q : Char} : q = '[' ∨ IsSeparator q → Hole (pre ++ [q]) (']' :: post)

end FlowGraph.Dot.Derivation
