import FlowGraph.Block
import FlowGraph.Fault

/-!
Functions: basic blocks in creation order and the tagged edges between them. An edge is kept at its
source and, as an entry without the tag, at its target.
-/
namespace FlowGraph

/-- An edge as its source keeps it. -/
structure Edge where
  tag : String
  target : BlockKey
deriving DecidableEq, Repr

/-- A block in its function: its outgoing edges, and the source of each incoming one. -/
structure Node where
  key : BlockKey
  block : Block
  successors : List Edge := []
  predecessors : List BlockKey := []
deriving DecidableEq, Repr

/-- A function. `owner` is its module; `nextSerial` is given to the next block and to no other. -/
structure Function where
  uid : Uid
  name : String
  owner : Uid
  nextSerial : Nat := 0
  nodes : List Node := []
deriving DecidableEq, Repr

namespace Function

/-- The handles of the blocks in creation order. -/
def keys (f : Function) : List BlockKey := f.nodes.map (·.key)

def size (f : Function) : Nat := f.nodes.length

def isEmpty (f : Function) : Bool := f.nodes.isEmpty

def node? (f : Function) (key : BlockKey) : Option Node := f.nodes.find? (·.key = key)

def contains (f : Function) (key : BlockKey) : Bool := (f.node? key).isSome

def block? (f : Function) (key : BlockKey) : Option Block := (f.node? key).map (·.block)

/-- The block of a handle that is known to be of this function. -/
def block (f : Function) (key : BlockKey) : Except Fault Block :=
  match f.block? key with
  | some b => .ok b
  | none => .error (.foreignBlock f.name)

/-- The blocks with their handles, in creation order. -/
def blocks (f : Function) : List (BlockKey × Block) := f.nodes.map fun n => (n.key, n.block)

/-- The first block of that name. -/
def blockNamed? (f : Function) (name : String) : Option BlockKey :=
  (f.nodes.find? (·.block.name = name)).map (·.key)

/-- The first block that is flagged as entry. -/
def entryBlock? (f : Function) : Option BlockKey :=
  (f.nodes.find? (·.block.isEntry)).map (·.key)

/-- The youngest block. -/
def lastBlock? (f : Function) : Option BlockKey := f.nodes.getLast?.map (·.key)

/-- The outgoing edges of a block in insertion order; none if the handle does not resolve. -/
def successors (f : Function) (key : BlockKey) : List Edge :=
  ((f.node? key).map (·.successors)).getD []

/-- The sources of the incoming edges of a block, one for each edge. -/
def predecessors (f : Function) (key : BlockKey) : List BlockKey :=
  ((f.node? key).map (·.predecessors)).getD []

def outDegree (f : Function) (key : BlockKey) : Nat := (f.successors key).length

def inDegree (f : Function) (key : BlockKey) : Nat := (f.predecessors key).length

/-- Every edge with its source, by source in creation order. -/
def edges (f : Function) : List (BlockKey × Edge) :=
  f.keys.flatMap fun key => (f.successors key).map fun e => (key, e)

def edgeCount (f : Function) : Nat :=
  f.nodes.foldr (fun n total => n.successors.length + total) 0

end Function

end FlowGraph
