import FlowGraph.Dot.Label
import FlowGraph.Module.Basic
import FlowGraph.Text.Hex

/-! Plain listings of modules, functions and blocks, one line for each. -/
namespace FlowGraph

def Block.dump (b : Block) : String :=
  Dot.nodeLabelLead ++ b.name ++ "[start-addr=" ++ Text.address b.start ++ ", end-addr=" ++
    Text.address b.stop ++ (if b.isEntry then ", entry-block" else "") ++ "]"

/-- The name, then the blocks, indented by a tab. -/
def Function.dump (f : Function) : String :=
  "Function-" ++ f.name ++ "\n" ++
    String.join (f.nodes.map fun n => "\t" ++ n.block.dump ++ "\n")

/-- The name, then the functions. -/
def Module.dump (m : Module) : String :=
  "Module-" ++ m.name ++ "\n" ++ String.join (m.members.map (·.function.dump))

end FlowGraph
