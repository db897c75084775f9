import FlowGraph.History

/-!
Families of functions: any number of them side by side, each with an identity of its own, and what
is done to one after the other. Handles of one function may be used with every other.
-/
namespace FlowGraph

namespace Function.Edit

/-- The handles that an edit of `f` hands out, one for each block that it creates. -/
def handles (f : Function) : Edit → List BlockKey
  | .create name => [(f.createBlock name).2]
  | .populate g => (g.populate f).1.known.map (·.2)
  | _ => []

/-- The edit is meant for the block of that handle in `f`, and deletes it. -/
def Deletes (f : Function) (key : BlockKey) : Edit → Prop
  | .delete gone => gone = key
  | .deleteNamed name => f.blockNamed? name = some key
  | _ => False

end Function.Edit

/-- Functions by their identities. -/
abbrev Family := Uid → Option Function

namespace Family

/-- A function comes to the family, or one of its functions is edited. -/
inductive Step where
  | found (uid : Uid) (name : String) (owner : Uid)
  | edit (uid : Uid) (e : Function.Edit)
deriving DecidableEq, Repr

/-- The family after a step. An identity that is in use founds no other function. -/
def apply (w : Family) : Step → Family
  | .found uid name owner =>
    fun v => if v = uid then (w v).or (some (.empty uid name owner)) else w v
  | .edit uid e => fun v => if v = uid then (w v).map (·.apply e) else w v

/-- The family that the first `n` steps of a history lead to. -/
def after (history : List Step) (n : Nat) : Family := (history.take n).foldl apply fun _ => none

/-- What a handle finds in the function of an identity. -/
def block? (w : Family) (uid : Uid) (key : BlockKey) : Option Block := (w uid).bind (·.block? key)

/-- Between two moments, both excluded, the block is deleted from its function. -/
def Deleted (history : List Step) (i j : Nat) (uid : Uid) (key : BlockKey) : Prop :=
  ∃ d e f, i < d ∧ d < j ∧ history[d]? = some (.edit uid e) ∧ after history d uid = some f ∧
    e.Deletes f key

end Family

end FlowGraph
