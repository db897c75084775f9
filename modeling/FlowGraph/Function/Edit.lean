import FlowGraph.Function.Basic

/-! Edits of a function. Each keeps both sides of every edge in step. -/
namespace FlowGraph

/-- Why an edge is refused. -/
inductive EditError where
  | duplicateTag (function block tag : String)
  | undefinedBlock (function : String)
deriving DecidableEq, Repr

def EditError.message : EditError → String
  | .duplicateTag function block tag =>
    s!"Basic block `{block}` of function `{function}` already has an outgoing edge tagged " ++
      s!"`{tag}`. A block cannot have two outgoing edges sharing a tag."
  | .undefinedBlock function =>
    s!"A basic block handle used with function `{function}` does not designate a live block of " ++
      "this function. Its block was deleted or it was created by another function."

/-- What is left of a node once `gone` is deleted. Only the neighbours of `gone` are touched. -/
def Node.without (n gone : Node) : Node :=
  { n with
    successors :=
      if n.key ∈ gone.predecessors then n.successors.filter (·.target ≠ gone.key)
      else n.successors
    predecessors :=
      if gone.successors.any (·.target = n.key) then n.predecessors.filter (· ≠ gone.key)
      else n.predecessors }

namespace Function

/-- A function without blocks. -/
def empty (uid : Uid) (name : String) (owner : Uid) : Function := { uid, name, owner }

/-- Changes the node of a handle, if there is one. -/
def update (f : Function) (key : BlockKey) (change : Node → Node) : Function :=
  { f with nodes := f.nodes.map fun n => if n.key = key then change n else n }

/-- Appends a block. A block that comes into an empty function is flagged as its entry. -/
def createBlock (f : Function) (name : String) : Function × BlockKey :=
  let key : BlockKey := ⟨f.uid, f.nextSerial⟩
  let block : Block := { name, flags := { entry := f.isEmpty }, owner := f.uid }
  ({ f with nextSerial := f.nextSerial + 1, nodes := f.nodes ++ [{ key, block }] }, key)

/-- Deletes a block and every edge that touches it, if the handle resolves. -/
def deleteBlock? (f : Function) (key : BlockKey) : Option (Block × Function) := do
  let gone ← f.node? key
  let others := f.nodes.filter (·.key ≠ key)
  return (gone.block, { f with nodes := others.map (·.without gone) })

/-- Deletes the first block of that name. -/
def deleteBlockNamed? (f : Function) (name : String) : Option (Block × Function) := do
  f.deleteBlock? (← f.blockNamed? name)

/-- Adds an edge, last among those of its source. The tags of the edges of a block differ. -/
def connect (f : Function) (src dst : BlockKey) (tag : String) : Except EditError Function :=
  match f.node? src, f.node? dst with
  | some source, some _ =>
    if source.successors.any (·.tag = tag) then
      .error (.duplicateTag f.name source.block.name tag)
    else
      .ok <| (f.update src fun n => { n with successors := n.successors ++ [⟨tag, dst⟩] }).update
        dst fun n => { n with predecessors := n.predecessors ++ [src] }
  | _, _ => .error (.undefinedBlock f.name)

/-- Removes the outgoing edge with that tag, and the first entry of its source at its target. -/
def disconnect? (f : Function) (src : BlockKey) (tag : String) : Option (Edge × Function) := do
  let source ← f.node? src
  let edge ← source.successors.find? (·.tag = tag)
  let cut := f.update src fun n => { n with successors := n.successors.eraseP (·.tag = tag) }
  return (edge, cut.update edge.target fun n => { n with predecessors := n.predecessors.erase src })

/-- Changes a block in place, if the handle resolves. -/
def editBlock? (f : Function) (key : BlockKey) (e : BlockEdit) : Option Function := do
  let _ ← f.node? key
  return f.update key fun n => { n with block := n.block.edit e }

/-- Changes the block of a handle that is known to be of this function. -/
def editBlock (f : Function) (key : BlockKey) (e : BlockEdit) : Except Fault Function :=
  match f.editBlock? key e with
  | some g => .ok g
  | none => .error (.foreignBlock f.name)

end Function

end FlowGraph
