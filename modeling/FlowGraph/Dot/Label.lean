import FlowGraph.Dot.Graph

/-! The labels of nodes and edges: the names of blocks and the tags of edges. -/
namespace FlowGraph.Dot

/-- What stands before a block's name in the label of its node. -/
def nodeLabelLead : String := "BB-"

/-- The text after `lead`, or the whole text if it does not start so. -/
def dropLead (lead text : String) : String :=
  if lead.toList.isPrefixOf text.toList then String.ofList (text.toList.drop lead.length) else text

/-- The name of the block that a node statement describes. -/
def nodeName (id : String) (attributes : List Attribute) : String :=
  match value? attributes "label" with
  | some label => dropLead nodeLabelLead label
  | none => id

/-- The tag of the edge that an edge statement describes. -/
def edgeTag (attributes : List Attribute) : String := (value? attributes "label").getD ""

end FlowGraph.Dot
