import FlowGraph.Dot.Graph
import FlowGraph.Text.Blank
import FlowGraph.Text.Quoted

/-!
The grammar of the DOT subset as relations between a text, what its beginning means and the rest
of it. A bare word ends where no more of its characters follow; nothing else looks ahead.
-/
namespace FlowGraph.Dot.Derivation

/-- The rest lies behind blanks only. -/
def Skips (text rest : List Char) : Prop :=
  ∃ blanks, text = blanks ++ rest ∧ ∀ c ∈ blanks, Text.isBlank c

/-- The characters of bare words. -/
def IsWordChar (c : Char) : Prop := c.isAlphanum ∨ c = '_' ∨ c = '.'

/-- A text between quotes and its meaning. -/
inductive Spells : List Char → List Char → Prop where
  | nil : Spells [] []
  | plain {c : Char} {w m : List Char} : c ≠ '"' → c ≠ '\\' → Spells w m → Spells (c :: w) (c :: m)
  | escaped {e c : Char} {w m : List Char} :
    Text.unescapeChar? e = some c → Spells w m → Spells ('\\' :: e :: w) (c :: m)

/-- A non-empty run of word characters that does not go on. -/
def Word (text word rest : List Char) : Prop :=
  text = word ++ rest ∧ word ≠ [] ∧ (∀ c ∈ word, IsWordChar c) ∧ ∀ c ∈ rest.head?, ¬ IsWordChar c

inductive Id : List Char → String → List Char → Prop where
  | quoted {w m rest : List Char} :
    Spells w m → Id ('"' :: (w ++ '"' :: rest)) (String.ofList m) rest
  | bare {text word rest : List Char} : Word text word rest → Id text (String.ofList word) rest

inductive Assignment : List Char → Attribute → List Char → Prop where
  | mk {a b c d e : List Char} {key value : String} :
    Id a key b → Skips b ('=' :: c) → Skips c d → Id d value e → Assignment a ⟨key, value⟩ e

/-- An attribute with blanks around it. -/
def Entry (text : List Char) (x : Attribute) (rest : List Char) : Prop :=
  ∃ a b, Skips text a ∧ Assignment a x b ∧ Skips b rest

def IsSeparator (c : Char) : Prop := c = ',' ∨ c = ';'

/-- Attributes with single separators between them and maybe one after the last. -/
inductive Entries : List Char → List Attribute → List Char → Prop where
  | none {a : List Char} : Entries a [] a
  | last {a b : List Char} {x : Attribute} : Entry a x b → Entries a [x] b
  | more {a b c : List Char} {x : Attribute} {s : Char} {xs : List Attribute} :
    Entry a x (s :: b) → IsSeparator s → Entries b xs c → Entries a (x :: xs) c

inductive AttributeList : List Char → List Attribute → List Char → Prop where
  | mk {a b : List Char} {xs : List Attribute} :
    Entries a xs (']' :: b) → AttributeList ('[' :: a) xs b

/-- An attribute list after blanks, or nothing. -/
inductive SomeAttributes : List Char → List Attribute → List Char → Prop where
  | none {a : List Char} : SomeAttributes a [] a
  | some {a b c : List Char} {xs : List Attribute} :
    Skips a b → AttributeList b xs c → SomeAttributes a xs c

def IsKeyword (word : List Char) : Prop :=
  word = "graph".toList ∨ word = "node".toList ∨ word = "edge".toList

/-- A keyword before an attribute list is no id. -/
inductive IsStatement : List Char → Statement → List Char → Prop where
  | edge {a b c d e f : List Char} {src dst : String} {xs : List Attribute} :
    Id a src b → Skips b ('-' :: '>' :: c) → Skips c d → Id d dst e → SomeAttributes e xs f →
    IsStatement a (.edge src dst xs) f
  | attribute {a b : List Char} {x : Attribute} :
    Assignment a x b → IsStatement a (.attribute x) b
  | defaults {word a b c : List Char} {xs : List Attribute} :
    IsKeyword word → Skips a b → AttributeList b xs c →
    IsStatement (word ++ a) (.defaults (String.ofList word) xs) c
  | node {a b c : List Char} {id : String} {xs : List Attribute} :
    Id a id b → SomeAttributes b xs c →
    (∀ word, IsKeyword word → a = word ++ b → b = c) → IsStatement a (.node id xs) c

/-- At most one semicolon, with blanks around it. -/
inductive Ends : List Char → List Char → Prop where
  | bare {a b : List Char} : Skips a b → Ends a b
  | marked {a b c : List Char} : Skips a (';' :: b) → Skips b c → Ends a c

inductive Statements : List Char → List Statement → List Char → Prop where
  | nil {a : List Char} : Statements a [] a
  | cons {a b c d : List Char} {s : Statement} {ss : List Statement} :
    IsStatement a s b → Ends b c → Statements c ss d → Statements a (s :: ss) d

/-- An id after blanks, or nothing. -/
inductive SomeId : List Char → Option String → List Char → Prop where
  | none {a : List Char} : SomeId a none a
  | some {a b c : List Char} {id : String} : Skips a b → Id b id c → SomeId a (some id) c

/-- A whole text and the graph that it stands for. -/
inductive Digraph : List Char → Graph → Prop where
  | mk {a b c d e f : List Char} {id : Option String} {ss : List Statement} :
    Skips a ("digraph".toList ++ b) → SomeId b id c → Skips c ('\x7b' :: d) → Skips d e →
    Statements e ss ('\x7d' :: f) → Skips f [] → Digraph a ⟨id, ss⟩

end FlowGraph.Dot.Derivation
