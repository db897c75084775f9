import FlowGraph.Module.Basic

/-!
The journal: one record for each thing that is created, deleted, connected, visited or else remarked
on.
-/
namespace FlowGraph

inductive Level where
  | info
  | debug
  | trace
deriving DecidableEq, Repr

/-- What is worth a record. Blocks, functions and modules are called by their names. -/
inductive Event where
  | functionCreated (function module : String)
  | functionDeleted (function : String) (blocks : Nat) (module : String)
  | blockCreated (block function : String) (entry : Bool)
  | blockDeleted (block function : String) (outgoing incoming : Nat)
  | edgeAdded (src dst tag function : String)
  | edgeRejected (src dst tag function : String)
  | visited (block function : String)
  | styleLoaded (path : String)
  | remark (text : String)
deriving DecidableEq, Repr

namespace Event

def level : Event → Level
  | .visited _ _ => .trace
  | .remark _ => .info
  | _ => .debug

def message : Event → String
  | .functionCreated function module => s!"Created function `{function}` in module `{module}`"
  | .functionDeleted function blocks module =>
    s!"Deleted function `{function}` ({blocks} blocks) from module `{module}`"
  | .blockCreated block function entry =>
    s!"Created basic block `{block}` in function `{function}`" ++ if entry then " (entry)" else ""
  | .blockDeleted block function outgoing incoming =>
    s!"Deleted basic block `{block}` from function `{function}` " ++
      s!"({outgoing} outgoing, {incoming} incoming edges purged)"
  | .edgeAdded src dst tag function =>
    s!"Added edge `{src}` -> `{dst}` [{tag}] in function `{function}`"
  | .edgeRejected src dst tag function =>
    s!"Rejected edge `{src}` -> `{dst}` in function `{function}`: tag `{tag}` already used"
  | .visited block function => s!"Visiting `{block}` in function `{function}`"
  | .styleLoaded path => s!"Loaded style from `{path}`"
  | .remark text => text

end Event

namespace Function

/-- The record of creating a block in `f`. -/
def creation (f : Function) (name : String) : Event := .blockCreated name f.name f.isEmpty

/-- The record of deleting a block of `f`. A loop counts as outgoing and as incoming. -/
def deletion (f : Function) (key : BlockKey) : List Event :=
  ((f.node? key).map fun n =>
    .blockDeleted n.block.name f.name n.successors.length n.predecessors.length).toList

/-- The record of deleting the first block of that name. -/
def deletionNamed (f : Function) (name : String) : List Event :=
  ((f.blockNamed? name).map f.deletion).getD []

/-- The record of adding an edge to `f`. Nothing is said of handles that do not resolve. -/
def connection (f : Function) (src dst : BlockKey) (tag : String) : List Event :=
  match f.block? src, f.block? dst, f.connect src dst tag with
  | some s, some d, .ok _ => [.edgeAdded s.name d.name tag f.name]
  | some s, some d, .error _ => [.edgeRejected s.name d.name tag f.name]
  | _, _, _ => []

/-- The records of checking `f`. -/
def tour (f : Function) (i : Inspection) : List Event :=
  i.visits.map fun n => .visited n.block.name f.name

end Function

namespace Module

/-- The record of creating a function in `m`. -/
def creation (m : Module) (name : String) : Event := .functionCreated name m.name

/-- The record of deleting a function of `m`. -/
def deletion (m : Module) (key : FunctionKey) : List Event :=
  ((m.function? key).map fun f => .functionDeleted f.name f.size m.name).toList

/-- The record of deleting the first function of that name. -/
def deletionNamed (m : Module) (name : String) : List Event :=
  ((m.functionNamed? name).map m.deletion).getD []

end Module

end FlowGraph
