/-! The attributes of exported graphs, nodes and edges. -/
namespace FlowGraph.Dot

structure Style where
  graphStyle : String := "dashed"
  graphColor : String := "black"
  nodeShape : String := "box"
  nodeStyle : String := "filled"
  nodeFillColor : String := "lightgrey"
  edgeStyle : String := "bold"
  edgeColor : String := "black"
deriving DecidableEq, Repr

/-- What a configuration says about a style. A value that is no text is `none`. -/
inductive Settings where
  | named (fields : List (String × Option String))
  | positional (values : List (Option String))
deriving DecidableEq, Repr

namespace Style

/-- The names of the fields, in the order in which values are given by position. -/
def fieldNames : List String :=
  ["graph_style", "graph_color", "node_shape", "node_style", "node_fillcolor", "edge_style",
    "edge_color"]

/-- The fields with their names. -/
def fields (s : Style) : List (String × String) :=
  fieldNames.zip
    [s.graphStyle, s.graphColor, s.nodeShape, s.nodeStyle, s.nodeFillColor, s.edgeStyle,
      s.edgeColor]

/-- A field that is absent keeps its default; one that is present has to be a text. -/
def ofNamed? (fields : List (String × Option String)) : Option Style := do
  let field (name fallback : String) : Option String := (fields.lookup name).getD (some fallback)
  let d : Style := {}
  return {
    graphStyle := ← field "graph_style" d.graphStyle
    graphColor := ← field "graph_color" d.graphColor
    nodeShape := ← field "node_shape" d.nodeShape
    nodeStyle := ← field "node_style" d.nodeStyle
    nodeFillColor := ← field "node_fillcolor" d.nodeFillColor
    edgeStyle := ← field "edge_style" d.edgeStyle
    edgeColor := ← field "edge_color" d.edgeColor }

/-- Unknown names are ignored, but there may not be more values than fields. -/
def ofSettings? : Settings → Option Style
  | .named fields => ofNamed? fields
  | .positional values =>
    if values.length ≤ fieldNames.length then ofNamed? (fieldNames.zip values) else none

end Style

end FlowGraph.Dot
