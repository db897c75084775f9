import FlowGraph.Function.Basic

/-!
Reachability in a function, and the depth-first order of the reachable blocks, without a stack.
-/
namespace FlowGraph.Function

/-- There is a way along edges, maybe of no edge at all. -/
inductive Reaches (f : Function) : BlockKey → BlockKey → Prop where
  | refl (key : BlockKey) : Reaches f key key
  | step {src dst : BlockKey} {e : Edge} :
    e ∈ f.successors src → Reaches f e.target dst → Reaches f src dst

theorem Reaches.trans {f : Function} {a b c : BlockKey} (hab : f.Reaches a b)
    (hbc : f.Reaches b c) : f.Reaches a c := by
  induction hab with
  | refl => exact hbc
  | step he _ ih => exact .step he (ih hbc)

theorem Reaches.edge {f : Function} {a b : BlockKey} {e : Edge} (hab : f.Reaches a b)
    (he : e ∈ f.successors b) : f.Reaches a e.target :=
  hab.trans (.step he (.refl _))

/-- Appends to `seen` what can be seen anew from a block on ways of at most `depth` blocks, the
block itself first and then edge by edge. -/
def explore (f : Function) : Nat → List BlockKey → BlockKey → List BlockKey
  | 0, seen, _ => seen
  | depth + 1, seen, key =>
    if key ∈ seen then seen
    else
      (f.successors key).foldl (fun seen e => explore f depth seen e.target) (seen ++ [key])

/-- The blocks reachable from a block, in depth-first order. No way without a block seen twice is
longer than there are blocks. -/
def preorder (f : Function) (entry : BlockKey) : List BlockKey := f.explore f.size [] entry

end FlowGraph.Function
