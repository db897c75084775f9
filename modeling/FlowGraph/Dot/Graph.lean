/-! DOT graphs as they are written and read: a name and a list of statements. -/
namespace FlowGraph.Dot

structure Attribute where
  key : String
  value : String
deriving DecidableEq, Repr

/-- The value of the last attribute called `key`. -/
def value? (attributes : List Attribute) (key : String) : Option String :=
  (attributes.reverse.find? (·.key = key)).map (·.value)

/-- `defaults` are attributes for all nodes, for all edges or for the graph, as `target` says. -/
inductive Statement where
  | attribute (a : Attribute)
  | defaults (target : String) (attributes : List Attribute)
  | node (id : String) (attributes : List Attribute)
  | edge (src dst : String) (attributes : List Attribute)
deriving DecidableEq, Repr

structure Graph where
  id : Option String := none
  statements : List Statement
deriving DecidableEq, Repr

/-- The label that a statement gives to the whole graph. -/
def Statement.graphLabel? : Statement → Option String
  | .attribute a => if a.key = "label" then some a.value else none
  | .defaults target attributes => if target = "graph" then value? attributes "label" else none
  | .node _ _ | .edge _ _ _ => none

/-- The last label given to the graph, else its id, else nothing. -/
def Graph.name (g : Graph) : String :=
  ((g.statements.reverse.findSome? Statement.graphLabel?).or g.id).getD ""

end FlowGraph.Dot
