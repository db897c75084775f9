import FlowGraph.Dot.Style
import FlowGraph.Toml.Document

/-! The style file: a TOML document whose table `style` gives the style. -/
namespace FlowGraph.Toml

def Item.text? : Item → Option String
  | .text value => some value
  | _ => none

/-- What an item says about a style. Values past the last field are not looked at, and a moment says
no more than an empty table. Other scalars and texts say nothing that is of use. -/
def Item.settings? : Item → Option Dot.Settings
  | .table _ fields | .inline fields => some (.named (fields.map fun (k, v) => (k, v.text?)))
  | .array items => some (.positional ((items.take Dot.Style.fieldNames.length).map Item.text?))
  | .tables elements =>
    some (.positional ((elements.take Dot.Style.fieldNames.length).map fun _ => none))
  | .scalar .moment => some (.named [])
  | .text _ | .scalar _ => none

/-- Whether a style can be read beside an entry of the document. Its numbers have to be readable,
but not in an array that gives the style: there only texts are of use. -/
def allowsStyle : String × Item → Bool
  | ("style", .array _) => true
  | (_, item) => item.isReadable

/-- The style that a file gives; without the table `style` it is the default one. -/
def style? (source : String) : Option Dot.Style := do
  let fields ← read? source
  if fields.all allowsStyle then
    match fields.lookup "style" with
    | none => return {}
    | some item => Dot.Style.ofSettings? (← item.settings?)
  else none

end FlowGraph.Toml
