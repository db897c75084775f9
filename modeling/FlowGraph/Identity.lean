/-! Identities of modules, functions and blocks. -/
namespace FlowGraph

/-- An identity of a module or a function. Whoever creates one supplies an identity not used
before. -/
structure Uid where
  index : Nat
deriving DecidableEq, Repr

/-- A block is named by the function that created it and by its serial number there. -/
structure BlockKey where
  function : Uid
  serial : Nat
deriving DecidableEq, Repr

/-- A function is named by its serial number in its module. -/
structure FunctionKey where
  serial : Nat
deriving DecidableEq, Repr

end FlowGraph
