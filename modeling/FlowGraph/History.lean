import FlowGraph.Module.Load

/-! Histories: edits as data, and the functions and modules that they lead to. -/
namespace FlowGraph

namespace Function

/-- An edit of a function. Handles may be of any function and of deleted blocks. -/
inductive Edit where
  | create (name : String)
  | delete (key : BlockKey)
  | deleteNamed (name : String)
  | connect (src dst : BlockKey) (tag : String)
  | disconnect (src : BlockKey) (tag : String)
  | change (key : BlockKey) (e : BlockEdit)
  | populate (g : Dot.Graph)
deriving DecidableEq, Repr

/-- The function after an edit. An edit that is refused changes nothing, except that a graph that
cannot be built stays half built. -/
def apply (f : Function) : Edit → Function
  | .create name => (f.createBlock name).1
  | .delete key => ((f.deleteBlock? key).map (·.2)).getD f
  | .deleteNamed name => ((f.deleteBlockNamed? name).map (·.2)).getD f
  | .connect src dst tag => (f.connect src dst tag).toOption.getD f
  | .disconnect src tag => ((f.disconnect? src tag).map (·.2)).getD f
  | .change key e => (f.editBlock? key e).getD f
  | .populate g => (g.populate f).1.function

def run (f : Function) (history : List Edit) : Function := history.foldl apply f

@[simp] theorem run_nil (f : Function) : f.run [] = f := rfl

@[simp] theorem run_cons (f : Function) (e : Edit) (es : List Edit) :
    f.run (e :: es) = (f.apply e).run es := rfl

theorem run_append (f : Function) (es ds : List Edit) : f.run (es ++ ds) = (f.run es).run ds :=
  List.foldl_append

/-- Some history leads from an empty function to this one. -/
def Reachable (f : Function) : Prop :=
  ∃ uid name owner history, f = (empty uid name owner).run history

theorem Reachable.apply {f : Function} (h : f.Reachable) (e : Edit) : (f.apply e).Reachable := by
  obtain ⟨uid, name, owner, es, rfl⟩ := h
  exact ⟨uid, name, owner, es ++ [e], by simp [run_append]⟩

end Function

namespace Module

/-- An edit of a module, or of one of its functions. New functions come with identities. -/
inductive Edit where
  | create (uid : Uid) (name : String)
  | delete (key : FunctionKey)
  | deleteNamed (name : String)
  | load (uid : Uid) (source : String)
  | edit (key : FunctionKey) (e : Function.Edit)
deriving DecidableEq, Repr

/-- The module after an edit. -/
def apply (m : Module) : Edit → Module
  | .create uid name => (m.createFunction uid name).1
  | .delete key => ((m.deleteFunction? key).map (·.2)).getD m
  | .deleteNamed name => ((m.deleteFunctionNamed? name).map (·.2)).getD m
  | .load uid source =>
    match m.load uid source with
    | .ok loading => loading.module
    | .error _ => m
  | .edit key e => ((m.function? key).map fun f => m.replace key (f.apply e)).getD m

def run (m : Module) (history : List Edit) : Module := history.foldl apply m

/-- Some history leads from an empty module to this one. -/
def Reachable (m : Module) : Prop := ∃ uid name history, m = (empty uid name).run history

end Module

end FlowGraph
