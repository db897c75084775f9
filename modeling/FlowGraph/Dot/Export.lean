import FlowGraph.Dot.Label
import FlowGraph.Dot.Printer
import FlowGraph.Dot.Style
import FlowGraph.Module.Basic

/-!
Functions and modules as DOT. A node is called by its block's name, or by the name and a number
where an earlier block is already called so. The text depends only on the names, tags and order of
what is there.
-/
namespace FlowGraph

/-- The candidates for the id of a block: its name, then its name with 1, 2, … after a dot. -/
def Dot.candidate (name : String) : Nat → String
  | 0 => name
  | n + 1 => name ++ "." ++ toString (n + 1)

/-- The first candidate from `n` on that is not taken. A candidate that is taken is struck out,
for no later candidate is the same. -/
def Dot.freshId (taken : List String) (name : String) (n : Nat) : String :=
  let id := candidate name n
  if id ∈ taken then freshId (taken.erase id) name (n + 1) else id
termination_by taken.length
decreasing_by
  have := List.length_pos_of_mem ‹_›
  rw [List.length_erase_of_mem ‹_›]
  omega

/-- The ids of nodes in order, given the ids taken before them. -/
def Dot.distinctIds (taken : List String) : List Node → List (BlockKey × String)
  | [] => []
  | n :: rest =>
    let id := freshId taken n.block.name 0
    (n.key, id) :: distinctIds (taken ++ [id]) rest

/-- The id of a block that is known to have one. -/
def Dot.idOf (ids : List (BlockKey × String)) (key : BlockKey) : Except Fault String :=
  match ids.lookup key with
  | some id => .ok id
  | none => .error .staleKey

/-- The node statement of a block. -/
def Block.dotNode (b : Block) (id : String) (style : Dot.Style) : Dot.Statement :=
  .node id
    [⟨"shape", style.nodeShape⟩, ⟨"style", style.nodeStyle⟩, ⟨"fillcolor", style.nodeFillColor⟩,
      ⟨"label", Dot.nodeLabelLead ++ b.name⟩]

/-- The edge statement of an edge between two ids. -/
def Edge.dotEdge (e : Edge) (src dst : String) (style : Dot.Style) : Dot.Statement :=
  .edge src dst [⟨"style", style.edgeStyle⟩, ⟨"color", style.edgeColor⟩, ⟨"label", e.tag⟩]

/-- The statements about a graph or a cluster as a whole. -/
def Dot.Style.heading (style : Dot.Style) (label : String) : List Dot.Statement :=
  [.attribute ⟨"label", label⟩, .attribute ⟨"style", style.graphStyle⟩,
    .attribute ⟨"color", style.graphColor⟩]

namespace Function

/-- The ids of the blocks, in creation order. -/
def dotIds (f : Function) : List (BlockKey × String) := Dot.distinctIds [] f.nodes

/-- The statements for the blocks and then for the edges, with `lead` before every id. -/
def dotBody (f : Function) (style : Dot.Style) (lead : String) :
    Except Fault (List Dot.Statement) := do
  let ids := f.dotIds
  let nodes ← f.nodes.mapM fun n => return n.block.dotNode (lead ++ (← Dot.idOf ids n.key)) style
  let edges ← f.edges.mapM fun (src, e) =>
    return e.dotEdge (lead ++ (← Dot.idOf ids src)) (lead ++ (← Dot.idOf ids e.target)) style
  return nodes ++ edges

/-- The statements for the blocks and edges, as text. -/
def dotLines (f : Function) (style : Dot.Style) (lead : String) : Except Fault String :=
  return Dot.lines (← f.dotBody style lead)

/-- The function as DOT text. -/
def dot (f : Function) (style : Dot.Style) : Except Fault String :=
  return "digraph " ++ Text.quoted f.name ++ " \x7b\n" ++ Dot.lines (style.heading f.name) ++
    "\n" ++ (← f.dotLines style "") ++ "\x7d\n"

/-- The function as the cluster with that number in the text of its module. -/
def dotCluster (f : Function) (style : Dot.Style) (index : Nat) : Except Fault String :=
  return "\nsubgraph " ++ Text.quoted s!"cluster_{index}" ++ " \x7b\n" ++
    Dot.lines (style.heading f.name) ++ (← f.dotLines style s!"f{index}::") ++ "\x7d\n"

end Function

/-- The module as DOT text, with a cluster for each function. -/
def Module.dot (m : Module) (style : Dot.Style) : Except Fault String := do
  let clusters ← m.members.zipIdx.mapM fun (x, index) => x.function.dotCluster style index
  return "digraph " ++ Text.quoted m.name ++ " \x7b\n" ++
    (Dot.Statement.attribute ⟨"label", m.name⟩).line ++ String.join clusters ++ "\x7d\n"

end FlowGraph
