/-! Lookups by handle that the caller promised to succeed and that do not. -/
namespace FlowGraph

/-- A handle that was used as if it resolved. -/
inductive Fault where
  | foreignBlock (function : String)
  | staleKey
deriving DecidableEq, Repr

def Fault.message : Fault → String
  | .foreignBlock function => s!"block handle does not belong to function `{function}`"
  | .staleKey => "invalid SlotMap key used"

end FlowGraph
