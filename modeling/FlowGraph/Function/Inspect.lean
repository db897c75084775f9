import FlowGraph.Function.Basic
import FlowGraph.Text.Listing

/-!
Soundness of a function: one block is its entry and every block is reachable from it. A function
without blocks is sound. The walk from the entry is depth first, with an explicit stack.
-/
namespace FlowGraph

/-- What is wrong with a function. -/
inductive Defect where
  | noEntry (function : String)
  | multipleEntries (function : String) (count : Nat) (blocks : List String)
  | unreachable (function entry block : String)
deriving DecidableEq, Repr

def Defect.message : Defect → String
  | .noEntry function =>
    s!"Function `{function}` has no entry block. " ++
      "Exactly one basic block must be flagged as the entry of the function."
  | .multipleEntries function count blocks =>
    s!"Function `{function}` has {count} entry blocks ({Text.listing blocks}). " ++
      "Exactly one basic block must be flagged as the entry of the function."
  | .unreachable function entry block =>
    s!"Basic block `{block}` of function `{function}` is unreachable from the entry block " ++
      s!"`{entry}`."

/-- The outcome of looking at a function: the blocks walked through, in order, and the defect. -/
structure Inspection where
  visits : List Node := []
  defect : Option Defect := none
deriving DecidableEq, Repr

namespace Function

/-- The nodes that are not among `seen`. -/
def unseen (f : Function) (seen : List Node) : List Node :=
  f.nodes.filter fun n => seen.all (·.key ≠ n.key)

theorem length_unseen_lt {f : Function} {seen : List Node} {key : BlockKey} {n : Node}
    (hn : f.node? key = some n) (hs : ¬ seen.any (·.key = key)) :
    (f.unseen (seen ++ [n])).length < (f.unseen seen).length := by
  have hk : n.key = key := by simpa using List.find?_some hn
  have hm : n ∈ f.unseen seen := by
    simp only [List.any_eq_true, decide_eq_true_eq, not_exists, not_and] at hs
    simp only [unseen, List.mem_filter, List.all_eq_true, decide_eq_true_eq]
    exact ⟨List.mem_of_find?_eq_some hn, fun m hm => hk ▸ hs m hm⟩
  have hsub : f.unseen (seen ++ [n]) = (f.unseen seen).filter fun m => n.key ≠ m.key := by
    simp [unseen, List.filter_filter, Bool.and_comm]
  rw [hsub, List.length_filter_lt_length_iff_exists]
  exact ⟨n, hm, by simp⟩

/-- Goes on from the blocks on the stack. A block is marked when it is taken from the stack, and the
targets of its edges that are not yet marked are then put on top, the first edge first. -/
def walk (f : Function) (seen : List Node) : List BlockKey → Except Fault (List Node)
  | [] => .ok seen
  | key :: stack =>
    if _hs : seen.any (·.key = key) then f.walk seen stack
    else
      match _hn : f.node? key with
      | none => .error .staleKey
      | some n =>
        let targets := n.successors.map (·.target)
        let seen' := seen ++ [n]
        f.walk seen' (targets.filter (fun t => seen'.all (·.key ≠ t)) ++ stack)
termination_by stack => ((f.unseen seen).length, stack.length)
decreasing_by
  · exact Prod.Lex.right _ (Nat.lt_succ_self _)
  · exact Prod.Lex.left _ _ (length_unseen_lt _hn _hs)

/-- The blocks flagged as entry, in creation order. -/
def entries (f : Function) : List Node := f.nodes.filter (·.block.isEntry)

/-- Checks the function. Of several unreachable blocks the first in creation order is named. -/
def inspect (f : Function) : Except Fault Inspection :=
  if f.isEmpty then .ok {}
  else
    match f.entries with
    | [] => .ok { defect := some (.noEntry f.name) }
    | [entry] => do
      let visits ← f.walk [] [entry.key]
      let missed := if visits.length < f.size then (f.unseen visits).head? else none
      return { visits, defect := missed.map (.unreachable f.name entry.block.name ·.block.name) }
    | entries =>
      let names := entries.map (·.block.name)
      .ok { defect := some (.multipleEntries f.name entries.length names) }

end Function

end FlowGraph
