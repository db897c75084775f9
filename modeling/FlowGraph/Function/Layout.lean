import FlowGraph.Function.Basic

/-!
The layout of a function: names, tags and positions, and nothing of handles, flags, addresses or the
order in which edges arrived at their targets.
-/
namespace FlowGraph

/-- A block with its outgoing edges, whose targets are given by position. -/
structure Layout.Row where
  name : String
  edges : List (String × Option Nat)
deriving DecidableEq, Repr

structure Layout where
  name : String
  rows : List Layout.Row
deriving DecidableEq, Repr

namespace Function

/-- The place of a block in creation order. -/
def position? (f : Function) (key : BlockKey) : Option Nat := f.keys.findIdx? (· = key)

def layout (f : Function) : Layout where
  name := f.name
  rows := f.nodes.map fun n =>
    ⟨n.block.name, n.successors.map fun e => (e.tag, f.position? e.target)⟩

end Function

end FlowGraph
