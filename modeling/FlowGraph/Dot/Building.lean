import FlowGraph.Dot.Label
import FlowGraph.Journal

/-!
Building the blocks and edges that a graph describes. Blocks are created when their ids are first
mentioned, so the first one becomes the entry of an empty function.
-/
namespace FlowGraph.Dot

/-- A graph half built: the function, the blocks of the ids known so far, and the records. -/
structure Building where
  function : Function
  known : List (String × BlockKey) := []
  events : List Event := []

namespace Building

/-- The block of an id, which is created under `name` if the id is new. -/
def mention (b : Building) (id name : String) : Building × BlockKey :=
  match b.known.lookup id with
  | some key => (b, key)
  | none =>
    let (f, key) := b.function.createBlock name
    ({ function := f
       known := b.known ++ [(id, key)]
       events := b.events ++ [b.function.creation name] }, key)

/-- Takes in one statement. An edge mentions its two ends before its tag is looked at. -/
def take (b : Building) : Statement → Building × Option EditError
  | .attribute _ | .defaults _ _ => (b, none)
  | .node id attributes => ((b.mention id (nodeName id attributes)).1, none)
  | .edge src dst attributes =>
    let (b, s) := b.mention src src
    let (b, d) := b.mention dst dst
    let tag := edgeTag attributes
    let b' := { b with events := b.events ++ b.function.connection s d tag }
    match b.function.connect s d tag with
    | .ok f => ({ b' with function := f }, none)
    | .error e => (b', some e)

/-- Takes in statements up to the first one that fails. -/
def takeAll (b : Building) : List Statement → Building × Option EditError
  | [] => (b, none)
  | s :: rest =>
    match b.take s with
    | (b', none) => b'.takeAll rest
    | (b', some e) => (b', some e)

end Building

/-- Builds the graph into a function. What was built before a failure stays. -/
def Graph.populate (g : Graph) (f : Function) : Building × Option EditError :=
  Building.takeAll { function := f } g.statements

end FlowGraph.Dot
