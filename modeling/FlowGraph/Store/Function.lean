import FlowGraph.Dump
import FlowGraph.History
import FlowGraph.Store.Slots
import Mathlib.Data.Finset.Card

/-!
A function as it is kept in memory: the blocks in slots, their handles in creation order, and each
side of the edges in slots of its own. Nothing in this form says that the parts fit together, so a
lookup may find nothing. That none does is a theorem: a store that starts empty is at every moment
the function that went through the same edits.
-/
namespace FlowGraph

/-- A function in its slots. A handle that is used finds its slot by its serial number alone. -/
@[ext] structure FunctionStore where
  uid : Uid
  name : String
  owner : Uid
  arena : Slots Block := {}
  order : List BlockKey := []
  successors : Slots (List Edge) := {}
  predecessors : Slots (List BlockKey) := {}

namespace FunctionStore

/-! ## Looking up -/

/-- The slot of a handle that is of this function and not of a deleted block. -/
def resolve? (s : FunctionStore) (key : BlockKey) : Option Nat :=
  if key.function = s.uid ∧ (s.arena.get? key.serial).isSome then some key.serial else none

def contains (s : FunctionStore) (key : BlockKey) : Bool := (s.resolve? key).isSome

def block? (s : FunctionStore) (key : BlockKey) : Option Block :=
  (s.resolve? key).bind s.arena.get?

/-- The blocks with their handles, in creation order. -/
def blocks (s : FunctionStore) : Run (List (BlockKey × Block)) :=
  s.order.mapM fun key => return (key, ← s.arena.fetch key.serial)

/-- The first block with a property. The blocks behind it are not looked up. -/
def findBlock? (s : FunctionStore) (p : BlockKey → Block → Bool) :
    Run (Option (BlockKey × Block)) :=
  s.order.findSomeM? fun key => do
    let b ← s.arena.fetch key.serial
    return if p key b then some (key, b) else none

def blockNamed? (s : FunctionStore) (name : String) : Run (Option BlockKey) :=
  return (← s.findBlock? fun _ b => b.name = name).map (·.1)

def entryBlock? (s : FunctionStore) : Run (Option BlockKey) :=
  return (← s.findBlock? fun _ b => b.isEntry).map (·.1)

/-- The youngest block. -/
def lastBlock? (s : FunctionStore) : Option BlockKey := s.order.getLast?

def successorsOf (s : FunctionStore) (key : BlockKey) : List Edge :=
  ((s.resolve? key).bind s.successors.get?).getD []

def predecessorsOf (s : FunctionStore) (key : BlockKey) : List BlockKey :=
  ((s.resolve? key).bind s.predecessors.get?).getD []

def outDegree (s : FunctionStore) (key : BlockKey) : Nat := (s.successorsOf key).length

def inDegree (s : FunctionStore) (key : BlockKey) : Nat := (s.predecessorsOf key).length

def edges (s : FunctionStore) : List (BlockKey × Edge) :=
  s.order.flatMap fun key => (s.successorsOf key).map fun e => (key, e)

/-- Counts the edges in the slots, whatever the handles in the order are. -/
def edgeCount (s : FunctionStore) : Nat :=
  s.successors.values.foldr (fun edges n => edges.length + n) 0

/-! ## Edits -/

/-- A function without blocks. -/
def empty (uid : Uid) (name : String) (owner : Uid) : FunctionStore := { uid, name, owner }

/-- Fills the next slot. The log then looks the block up. -/
def createBlock (s : FunctionStore) (name : String) : Run (FunctionStore × BlockKey) := do
  let i := s.arena.size
  let key : BlockKey := ⟨s.uid, i⟩
  let t : FunctionStore :=
    { s with
      arena := s.arena.put i { name, flags := { entry := s.order.isEmpty }, owner := s.uid }
      order := s.order ++ [key]
      successors := s.successors.put i []
      predecessors := s.predecessors.put i [] }
  let _ ← t.arena.fetch i
  return (t, key)

/-- Empties the slot of a block. Of the others only its neighbours are looked at. -/
def deleteBlock? (s : FunctionStore) (key : BlockKey) : Option (Block × FunctionStore) := do
  let i ← s.resolve? key
  let b ← s.arena.get? i
  let outgoing := (s.successors.get? i).getD []
  let incoming := (s.predecessors.get? i).getD []
  return (b,
    { s with
      arena := s.arena.clear i
      order := s.order.filter (· ≠ key)
      successors := incoming.foldl
        (fun slots src => slots.change src.serial (·.filter (·.target ≠ key)))
        (s.successors.clear i)
      predecessors := outgoing.foldl
        (fun slots e => slots.change e.target.serial (·.filter (· ≠ key)))
        (s.predecessors.clear i) })

def deleteBlockNamed? (s : FunctionStore) (name : String) :
    Run (Option (Block × FunctionStore)) :=
  return (← s.blockNamed? name).bind s.deleteBlock?

/-- Adds an edge, or says why it is refused. The slots are given back in either case. The log, and
the error, look up the blocks at the ends of the edge. -/
def connect (s : FunctionStore) (src dst : BlockKey) (tag : String) :
    Run (FunctionStore × Except EditError Unit) :=
  match s.resolve? src, s.resolve? dst with
  | some i, some j =>
    match s.successors.get? i with
    | none => return (s, .error (.undefinedBlock s.name))
    | some edges => do
      let source ← s.arena.fetch i
      let _ ← s.arena.fetch j
      if edges.any (·.tag = tag) then
        return (s, .error (.duplicateTag s.name source.name tag))
      else
        let t : FunctionStore :=
          { s with
            successors := s.successors.change i (· ++ [⟨tag, dst⟩])
            predecessors := s.predecessors.change j (· ++ [src]) }
        return (t, .ok ())
  | _, _ => return (s, .error (.undefinedBlock s.name))

def disconnect? (s : FunctionStore) (src : BlockKey) (tag : String) :
    Option (Edge × FunctionStore) := do
  let i ← s.resolve? src
  let edges ← s.successors.get? i
  let edge ← edges.find? (·.tag = tag)
  return (edge,
    { s with
      successors := s.successors.change i (·.eraseP (·.tag = tag))
      predecessors := s.predecessors.change edge.target.serial (·.erase src) })

def editBlock? (s : FunctionStore) (key : BlockKey) (e : BlockEdit) : Option FunctionStore := do
  let i ← s.resolve? key
  return { s with arena := s.arena.change i (·.edit e) }

end FunctionStore

/-! ## Graphs -/

/-- A graph half built, with the blocks of the ids known so far. -/
structure Dot.StoreBuilding where
  store : FunctionStore
  known : List (String × BlockKey) := []

namespace Dot.StoreBuilding

def mention (b : StoreBuilding) (id name : String) : Run (StoreBuilding × BlockKey) :=
  match b.known.lookup id with
  | some key => return (b, key)
  | none => do
    let (s, key) ← b.store.createBlock name
    return (⟨s, b.known ++ [(id, key)]⟩, key)

def take (b : StoreBuilding) : Statement → Run (StoreBuilding × Option EditError)
  | .attribute _ | .defaults _ _ => return (b, none)
  | .node id attributes => do
    let (b, _) ← b.mention id (nodeName id attributes)
    return (b, none)
  | .edge src dst attributes => do
    let (b, s) ← b.mention src src
    let (b, d) ← b.mention dst dst
    match ← b.store.connect s d (edgeTag attributes) with
    | (store, .ok ()) => return ({ b with store }, none)
    | (store, .error e) => return ({ b with store }, some e)

def takeAll (b : StoreBuilding) : List Statement → Run (StoreBuilding × Option EditError)
  | [] => return (b, none)
  | s :: rest => do
    match ← b.take s with
    | (b, none) => b.takeAll rest
    | (b, some e) => return (b, some e)

end Dot.StoreBuilding

namespace FunctionStore

/-- Builds a graph into the function. -/
def populate (s : FunctionStore) (g : Dot.Graph) : Run (FunctionStore × Option EditError) := do
  let (b, failure) ← Dot.StoreBuilding.takeAll { store := s } g.statements
  return (b.store, failure)

/-! ## Histories -/

/-- The function after an edit. -/
def apply (s : FunctionStore) : Function.Edit → Run FunctionStore
  | .create name => return (← s.createBlock name).1
  | .delete key => return ((s.deleteBlock? key).map (·.2)).getD s
  | .deleteNamed name => return ((← s.deleteBlockNamed? name).map (·.2)).getD s
  | .connect src dst tag => return (← s.connect src dst tag).1
  | .disconnect src tag => return ((s.disconnect? src tag).map (·.2)).getD s
  | .change key e => return (s.editBlock? key e).getD s
  | .populate g => return (← s.populate g).1

def run (s : FunctionStore) : List Function.Edit → Run FunctionStore
  | [] => return s
  | e :: history => do (← s.apply e).run history

/-! ## Soundness -/

/-- The targets of all edges. -/
def targets (s : FunctionStore) : List BlockKey :=
  s.successors.values.flatMap fun edges => edges.map (·.target)

/-- The handles that a walk may still come to. -/
def ahead (s : FunctionStore) (seen stack : List BlockKey) : Finset BlockKey :=
  (stack ++ s.targets).toFinset \ seen.toFinset

/-- The targets of the edges of a block, without those that are seen. -/
def unseenTargets (s : FunctionStore) (seen : List BlockKey) (key : BlockKey) : List BlockKey :=
  (((s.successors.get? key.serial).getD []).map (·.target)).filter (· ∉ seen)

theorem mem_targets_of_mem_unseenTargets {s : FunctionStore} {seen : List BlockKey}
    {key u : BlockKey} (hu : u ∈ s.unseenTargets seen key) : u ∈ s.targets := by
  have hu := List.mem_of_mem_filter hu
  cases hg : s.successors.get? key.serial with
  | none => simp [hg] at hu
  | some edges =>
      rw [hg] at hu
      exact List.mem_flatMap.mpr ⟨edges, Slots.mem_values_of_get? hg, hu⟩

theorem card_ahead_skip (s : FunctionStore) (seen stack : List BlockKey) (key : BlockKey) :
    (s.ahead seen stack).card ≤ (s.ahead seen (key :: stack)).card :=
  Finset.card_le_card (Finset.sdiff_subset_sdiff
    (by simp [Finset.subset_insert]) (Finset.Subset.refl _))

theorem card_ahead_visit (s : FunctionStore) {seen : List BlockKey} {key : BlockKey}
    (hs : key ∉ seen) (stack : List BlockKey) :
    (s.ahead (seen ++ [key]) (s.unseenTargets (seen ++ [key]) key ++ stack)).card <
      (s.ahead seen (key :: stack)).card := by
  refine Finset.card_lt_card ((Finset.ssubset_iff_of_subset fun u hu => ?_).mpr ⟨key, ?_, ?_⟩)
  · simp only [ahead, Finset.mem_sdiff, List.mem_toFinset, List.mem_append, List.mem_cons] at hu ⊢
    obtain ⟨(hu | hu) | hu, hseen⟩ := hu
    · exact ⟨.inr (mem_targets_of_mem_unseenTargets hu), fun h => hseen (.inl h)⟩
    · exact ⟨.inl (.inr hu), fun h => hseen (.inl h)⟩
    · exact ⟨.inr hu, fun h => hseen (.inl h)⟩
  · simp [ahead, hs]
  · simp [ahead]

/-- Goes on from the blocks on the stack. The log looks up each block that is visited. -/
def walk (s : FunctionStore) (seen : List BlockKey) (visits : List Event) :
    List BlockKey → Run (List BlockKey × List Event)
  | [] => return (seen, visits)
  | key :: stack =>
    if _hs : key ∈ seen then s.walk seen visits stack
    else do
      let b ← s.arena.fetch key.serial
      let seen' := seen ++ [key]
      s.walk seen' (visits ++ [.visited b.name s.name]) (s.unseenTargets seen' key ++ stack)
termination_by stack => ((s.ahead seen stack).card, stack.length)
decreasing_by
  · exact Prod.Lex.right' _ (s.card_ahead_skip seen stack key) (Nat.lt_succ_self _)
  · exact Prod.Lex.left _ _ (s.card_ahead_visit _hs stack)

/-- Checks the function, and says which blocks were visited. -/
def inspect (s : FunctionStore) : Run (List Event × Option Defect) :=
  if s.order.isEmpty then return ([], none)
  else do
    match ((← s.blocks).filter (·.2.isEntry)).map (·.1) with
    | [] => return ([], some (.noEntry s.name))
    | [entry] =>
      let (seen, visits) ← s.walk [] [] [entry]
      let missed ←
        if seen.length < s.order.length then s.findBlock? fun key _ => key ∉ seen
        else pure none
      match missed with
      | none => return (visits, none)
      | some (_, b) =>
        let first ← s.arena.fetch entry.serial
        return (visits, some (.unreachable s.name first.name b.name))
    | entries =>
      let names ← entries.mapM fun key => return (← s.arena.fetch key.serial).name
      return ([], some (.multipleEntries s.name entries.length names))

/-! ## Listing -/

def dump (s : FunctionStore) : Run String := do
  let lines := (← s.blocks).map fun (_, b) => "\t" ++ b.dump ++ "\n"
  return "Function-" ++ s.name ++ "\n" ++ String.join lines

end FunctionStore

end FlowGraph
