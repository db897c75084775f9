import FlowGraph.History

/-! What a history creates in a module and what it deletes. -/
namespace FlowGraph

/-- A function as it came to its module. -/
structure Origin where
  key : FunctionKey
  uid : Uid
  name : String
deriving DecidableEq, Repr

def Member.origin (x : Member) : Origin := ⟨x.key, x.function.uid, x.function.name⟩

namespace Module

/-- The handles of the functions in creation order. -/
def keys (m : Module) : List FunctionKey := m.members.map (·.key)

namespace Edit

/-- The functions that an edit of `m` creates. A load that fails creates none. -/
def creates (m : Module) : Edit → List Origin
  | .create uid name => [⟨(m.createFunction uid name).2, uid, name⟩]
  | .load uid source =>
    match Dot.Graph.read source, m.load uid source with
    | .ok g, .ok ⟨_, .ok key, _⟩ => [⟨key, uid, g.name⟩]
    | _, _ => []
  | _ => []

/-- The handles of the functions that an edit of `m` deletes. -/
def deletes (m : Module) : Edit → List FunctionKey
  | .delete key => if (m.function? key).isSome then [key] else []
  | .deleteNamed name => (m.functionNamed? name).toList
  | _ => []

end Edit

/-- The functions that a history of `m` creates, in this order. -/
def created (m : Module) : List Edit → List Origin
  | [] => []
  | e :: es => e.creates m ++ (m.apply e).created es

/-- The handles of the functions that a history of `m` deletes. -/
def deleted (m : Module) : List Edit → List FunctionKey
  | [] => []
  | e :: es => e.deletes m ++ (m.apply e).deleted es

end Module

end FlowGraph
