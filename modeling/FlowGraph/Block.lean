import FlowGraph.Identity

/-! Basic blocks: passive records with a name, two role flags and an address range. -/
namespace FlowGraph

/-- The roles of a block: execution starts at an entry and may leave from an exit. -/
structure Flags where
  entry : Bool := false
  exit : Bool := false
deriving DecidableEq, Repr

namespace Flags

/-- The entry flag is the lowest bit, the exit flag the next one. -/
def bits (f : Flags) : Nat :=
  (if f.entry then 1 else 0) + (if f.exit then 2 else 0)

/-- The names of the flags that are set, joined by a bar. -/
def text (f : Flags) : String :=
  " | ".intercalate ((if f.entry then ["ENTRY"] else []) ++ (if f.exit then ["EXIT"] else []))

/-- The four flag sets, by the text of each. -/
def ofText? (s : String) : Option Flags :=
  [⟨false, false⟩, ⟨true, false⟩, ⟨false, true⟩, ⟨true, true⟩].find? (·.text = s)

end Flags

/-- A basic block. The name is a label only; `owner` is the function that created the block. -/
structure Block where
  name : String
  flags : Flags := {}
  start : UInt64 := 0
  stop : UInt64 := 0
  owner : Uid
deriving DecidableEq, Repr

/-- What may be changed in a block after its creation. -/
inductive BlockEdit where
  | entry (set : Bool)
  | exit (set : Bool)
  | start (address : UInt64)
  | stop (address : UInt64)
deriving DecidableEq, Repr

namespace Block

def isEntry (b : Block) : Bool := b.flags.entry

def isExit (b : Block) : Bool := b.flags.exit

def edit (b : Block) : BlockEdit → Block
  | .entry set => { b with flags := { b.flags with entry := set } }
  | .exit set => { b with flags := { b.flags with exit := set } }
  | .start address => { b with start := address }
  | .stop address => { b with stop := address }

@[simp] theorem name_edit (b : Block) (e : BlockEdit) : (b.edit e).name = b.name := by
  cases e <;> rfl

@[simp] theorem owner_edit (b : Block) (e : BlockEdit) : (b.edit e).owner = b.owner := by
  cases e <;> rfl

end Block

end FlowGraph
