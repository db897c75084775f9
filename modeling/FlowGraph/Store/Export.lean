import FlowGraph.Dot.Export
import FlowGraph.Store.Function

/-!
A function in its slots as DOT. Ids are looked up by handles, and the numbers in them are counted
with 31 bits.
-/
namespace FlowGraph

namespace Dot

/-- Tries `id` and then, as long as it is taken, the name with `n`, with the next number, … The last
number that can be counted to is `0x7fffffff`. -/
def freeId (taken : List String) (name id : String) (n : Nat) : Run String :=
  if id ∈ taken then
    if n < 0x7fffffff then freeId taken name (name ++ "." ++ toString n) (n + 1)
    else throw .overflow
  else return id
termination_by 0x7fffffff - n

def freeIds (taken : List String) : List (BlockKey × Block) → Run (List (BlockKey × String))
  | [] => return []
  | (key, b) :: rest => do
    let id ← freeId taken b.name b.name 1
    return (key, id) :: (← freeIds (taken ++ [id]) rest)

/-- The id of a block that has to have one. -/
def fetchId (ids : List (BlockKey × String)) (key : BlockKey) : Run String :=
  match ids.lookup key with
  | some id => return id
  | none => throw .unknownId

end Dot

namespace FunctionStore

def dotIds (s : FunctionStore) : Run (List (BlockKey × String)) := do
  Dot.freeIds [] (← s.blocks)

def dotBody (s : FunctionStore) (style : Dot.Style) (lead : String) :
    Run (List Dot.Statement) := do
  let ids ← s.dotIds
  let nodes ← (← s.blocks).mapM fun (key, b) =>
    return b.dotNode (lead ++ (← Dot.fetchId ids key)) style
  let edges ← s.edges.mapM fun (src, e) =>
    return e.dotEdge (lead ++ (← Dot.fetchId ids src)) (lead ++ (← Dot.fetchId ids e.target)) style
  return nodes ++ edges

def dotLines (s : FunctionStore) (style : Dot.Style) (lead : String) : Run String :=
  return Dot.lines (← s.dotBody style lead)

def dot (s : FunctionStore) (style : Dot.Style) : Run String :=
  return "digraph " ++ Text.quoted s.name ++ " \x7b\n" ++ Dot.lines (style.heading s.name) ++
    "\n" ++ (← s.dotLines style "") ++ "\x7d\n"

def dotCluster (s : FunctionStore) (style : Dot.Style) (index : Nat) : Run String :=
  return "\nsubgraph " ++ Text.quoted s!"cluster_{index}" ++ " \x7b\n" ++
    Dot.lines (style.heading s.name) ++ (← s.dotLines style s!"f{index}::") ++ "\x7d\n"

end FunctionStore

end FlowGraph
