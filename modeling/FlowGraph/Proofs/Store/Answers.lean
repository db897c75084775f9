import FlowGraph.Proofs.Dot.Naming
import FlowGraph.Proofs.Function.Soundness
import FlowGraph.Proofs.Store.Edits
import FlowGraph.Store.Export

/-!
A function and its slots answer alike. No lookup panics, and the walk through the slots ends.
-/
namespace FlowGraph

/-- A search that looks up each element finds the first one with the property. -/
theorem findSomeM?_map_eq_pure {m : Type → Type} [Monad m] [LawfulMonad m] {α β γ : Type}
    {l : List α} {j : α → β} {k : β → m (Option γ)} {p : α → Bool} {q : α → γ}
    (hk : ∀ a ∈ l, k (j a) = pure (if p a then some (q a) else none)) :
    (l.map j).findSomeM? k = pure ((l.find? p).map q) := by
  induction l with
  | nil => rfl
  | cons a l ih =>
      rw [List.map_cons, List.findSomeM?_cons, hk a List.mem_cons_self, pure_bind, List.find?_cons]
      cases p a with
      | false => exact ih fun b hb => hk b (List.mem_cons_of_mem a hb)
      | true => rfl

namespace Function

variable {f : Function} {n : Node} {entry key : BlockKey} {seen : List Node}
  {stack : List BlockKey}

namespace Wired

/-! ## Blocks and edges -/

theorem fetch_arena_of_mem (h : f.Wired) (hn : n ∈ f.nodes) :
    f.store.arena.fetch n.key.serial = pure n.block :=
  h.fetch_arena (node?_of_mem h.nodup hn)

theorem store_blocks (h : f.Wired) : f.store.blocks = pure f.blocks := by
  rw [FunctionStore.blocks, order_store, keys, List.mapM_map]
  exact mapM_eq_pure fun n hn => by simp [h.fetch_arena_of_mem hn]

/-- The first block with a property is found, whichever property it is. -/
theorem store_findBlock? (h : f.Wired) (p : BlockKey → Block → Bool) :
    f.store.findBlock? p =
      pure ((f.nodes.find? fun n => p n.key n.block).map fun n => (n.key, n.block)) := by
  rw [FunctionStore.findBlock?, order_store, keys]
  exact findSomeM?_map_eq_pure fun n hn => by simp [h.fetch_arena_of_mem hn]

theorem store_blockNamed? (h : f.Wired) (name : String) :
    f.store.blockNamed? name = pure (f.blockNamed? name) := by
  simp [FunctionStore.blockNamed?, h.store_findBlock?, blockNamed?, Function.comp_def]

theorem store_entryBlock? (h : f.Wired) : f.store.entryBlock? = pure f.entryBlock? := by
  simp [FunctionStore.entryBlock?, h.store_findBlock?, entryBlock?, Function.comp_def]

theorem store_lastBlock? (f : Function) : f.store.lastBlock? = f.lastBlock? :=
  List.getLast?_map

theorem store_contains (h : f.Wired) (key : BlockKey) :
    f.store.contains key = f.contains key := by
  rw [FunctionStore.contains, h.resolve?_store, Option.isSome_map, contains]

/-- What is in the slot of a handle is what the node of the handle has. -/
theorem resolve?_bind_slots {α : Type} (h : f.Wired) (p : Node → α) (key : BlockKey) :
    (f.store.resolve? key).bind (f.slots p).get? = (f.node? key).map p := by
  rw [h.resolve?_store]
  cases hn : f.node? key with
  | none => rfl
  | some n => exact h.get?_slots_of_node? hn

theorem store_block? (h : f.Wired) (key : BlockKey) : f.store.block? key = f.block? key :=
  h.resolve?_bind_slots (·.block) key

theorem store_successorsOf (h : f.Wired) (key : BlockKey) :
    f.store.successorsOf key = f.successors key :=
  congrArg (Option.getD · []) (h.resolve?_bind_slots (·.successors) key)

theorem store_predecessorsOf (h : f.Wired) (key : BlockKey) :
    f.store.predecessorsOf key = f.predecessors key :=
  congrArg (Option.getD · []) (h.resolve?_bind_slots (·.predecessors) key)

theorem store_outDegree (h : f.Wired) (key : BlockKey) :
    f.store.outDegree key = f.outDegree key :=
  congrArg List.length (h.store_successorsOf key)

theorem store_inDegree (h : f.Wired) (key : BlockKey) : f.store.inDegree key = f.inDegree key :=
  congrArg List.length (h.store_predecessorsOf key)

theorem store_edges (h : f.Wired) : f.store.edges = f.edges := by
  simp only [FunctionStore.edges, h.store_successorsOf, edges]
  rfl

/-- The edges are counted slot by slot here, and node by node there. -/
theorem store_edgeCount (h : f.Wired) : f.store.edgeCount = f.edgeCount := by
  have hperm := (h.values_slots_perm (p := (·.successors))).map List.length
  have hsum : ∀ l : List (List Edge),
      l.foldr (fun edges n => edges.length + n) 0 = (l.map List.length).sum := by
    intro l
    induction l with
    | nil => rfl
    | cons edges l ih => rw [List.foldr_cons, List.map_cons, List.sum_cons, ih]
  calc f.store.edgeCount = (f.store.successors.values.map List.length).sum := hsum _
    _ = ((f.nodes.map (·.successors)).map List.length).sum := hperm.sum_eq
    _ = (f.keys.map f.outDegree).sum := by
        rw [keys, List.map_map, List.map_map]
        refine congrArg List.sum (List.map_congr_left fun n hn => ?_)
        simp [outDegree, successors_of_node? (node?_of_mem h.nodup hn)]
    _ = f.edgeCount := (edgeCount_eq_sum h.nodup).symm

theorem store_dump (h : f.Wired) : f.store.dump = pure f.dump := by
  simp [FunctionStore.dump, h.store_blocks, Function.dump, blocks, Function.comp_def]

/-! ## Soundness -/

/-- The marks of a walk are its handles here, and its nodes there. -/
theorem decide_not_mem_map_key (seen : List Node) (key : BlockKey) :
    decide (key ∉ seen.map (·.key)) = seen.all (·.key ≠ key) := by
  rw [Bool.eq_iff_iff]
  simp

/-- The walk through the slots goes where the walk through the nodes goes. -/
theorem store_walk (h : f.Wired) (hw : f.Walking entry seen stack) {visits : List Node}
    (hv : f.walk seen stack = .ok visits) :
    f.store.walk (seen.map (·.key)) (f.tour ⟨seen, none⟩) stack =
      pure (visits.map (·.key), f.tour ⟨visits, none⟩) := by
  fun_induction f.walk seen stack with
  | case1 seen =>
      obtain rfl := Except.ok.inj hv
      rw [FunctionStore.walk]
  | case2 seen key stack hs ih =>
      have hmem : key ∈ seen.map (·.key) := by simpa using hs
      rw [FunctionStore.walk, dif_pos hmem]
      exact ih (hw.skip hmem) hv
  | case3 seen key stack hs hn =>
      exact absurd (hw.live key List.mem_cons_self) (node?_eq_none_iff.mp hn)
  | case4 seen key stack hs n hn targets seen' ih =>
      obtain rfl := key_of_node? hn
      have hmem : n.key ∉ seen.map (·.key) := by simpa using hs
      have hsucc : f.store.successors.get? n.key.serial = some n.successors :=
        h.get?_slots_of_node? hn
      have hkeys : seen.map (·.key) ++ [n.key] = seen'.map (·.key) := by simp [seen']
      have htour : f.tour ⟨seen, none⟩ ++ [.visited n.block.name f.name] =
          f.tour ⟨seen', none⟩ := by
        simp [seen', tour]
      have htargets : f.store.unseenTargets (seen'.map (·.key)) n.key =
          targets.filter fun t => seen'.all (·.key ≠ t) := by
        simp only [FunctionStore.unseenTargets, hsucc, Option.getD_some, decide_not_mem_map_key]
        rfl
      rw [FunctionStore.walk, dif_neg hmem, h.fetch_arena hn, pure_bind, name_store, htour]
      simp only [hkeys, htargets]
      exact ih (hw.visit h hmem hn) hv

/-- The first block that is not marked is the first one unseen. -/
theorem store_findBlock?_unmarked (h : f.Wired) (visits : List Node) :
    f.store.findBlock? (fun key _ => key ∉ visits.map (·.key)) =
      pure ((f.unseen visits).head?.map fun n => (n.key, n.block)) := by
  simp only [h.store_findBlock?, decide_not_mem_map_key, unseen, List.head?_filter]

theorem mapM_name_arena (h : f.Wired) {ns : List Node} (hns : ∀ n ∈ ns, n ∈ f.nodes) :
    (ns.map (·.key)).mapM (fun key => return (← f.store.arena.fetch key.serial).name) =
      (pure (ns.map (·.block.name)) : Run (List String)) := by
  rw [List.mapM_map]
  exact mapM_eq_pure fun n hn => by simp [h.fetch_arena_of_mem (hns n hn)]

theorem store_inspect (h : f.Wired) :
    ∃ i, f.inspect = .ok i ∧ f.store.inspect = pure (f.tour i, i.defect) := by
  cases hf : f.isEmpty with
  | true =>
      refine ⟨{}, by simp [inspect, hf], ?_⟩
      simp [FunctionStore.inspect, isEmpty_keys, hf, tour]
  | false =>
      have hentries : (f.blocks.filter (·.2.isEntry)).map (·.1) = f.entries.map (·.key) := by
        simp [blocks, entries, List.filter_map, Function.comp_def]
      have hnodes : ∀ n ∈ f.entries, n ∈ f.nodes := fun n hn => List.mem_of_mem_filter hn
      have hnames := h.mapM_name_arena hnodes
      simp only [FunctionStore.inspect, inspect, order_store, isEmpty_keys, hf, h.store_blocks,
        pure_bind, hentries]
      cases he : f.entries with
      | nil => exact ⟨_, rfl, rfl⟩
      | cons e es =>
          have hmem : e ∈ f.nodes := hnodes e (he ▸ List.mem_cons_self)
          cases es with
          | nil =>
              have hinit := Walking.init (List.mem_map_of_mem (f := (·.key)) hmem)
              obtain ⟨visits, hv, -⟩ := hinit.walk_eq_ok h
              have hwalk : f.store.walk [] [] [e.key] = _ := h.store_walk hinit hv
              have hl : (visits.map (·.key)).length < f.keys.length ↔ visits.length < f.size := by
                simp [keys, size]
              simp only [hv, List.map_cons, List.map_nil]
              refine ⟨_, rfl, ?_⟩
              simp only [Bool.false_eq_true, if_false, hwalk, pure_bind,
                h.store_findBlock?_unmarked, hl]
              by_cases hlt : visits.length < f.size
              · simp only [hlt, if_true]
                cases (f.unseen visits).head? with
                | none => rfl
                | some n => simp [h.fetch_arena_of_mem hmem, tour]
              · simp [hlt, tour]
          | cons e' es =>
              refine ⟨_, rfl, ?_⟩
              simp only [he, Bool.false_eq_true, if_false, List.map_cons] at hnames ⊢
              rw [hnames, pure_bind, List.length_cons, List.length_cons, List.length_map]
              rfl

/-! ## Export -/

/-- The counter goes on no further than there are ids that are taken. -/
theorem freeId_candidate {taken : List String} {name : String} (hl : taken.length + 1 < 2 ^ 31)
    (k : Nat) (hbefore : ∀ j < k, Dot.candidate name j ∈ taken) :
    Dot.freeId taken name (Dot.candidate name k) (k + 1) = pure (Dot.freshId taken name k) := by
  rw [Dot.freeId, Dot.freshId_eq]
  by_cases hmem : Dot.candidate name k ∈ taken
  · have hnext : ∀ j < k + 1, Dot.candidate name j ∈ taken := by
      intro j hj
      rcases Nat.lt_succ_iff_lt_or_eq.mp hj with hj | rfl
      · exact hbefore j hj
      · exact hmem
    have hlength := Dot.le_length_of_taken hnext
    rw [if_pos hmem, if_pos (by omega), if_pos hmem]
    exact freeId_candidate hl (k + 1) hnext
  · rw [if_neg hmem, if_neg hmem]
termination_by taken.length - k

theorem freeIds_eq_pure {taken : List String} {ns : List Node}
    (hl : taken.length + ns.length < 2 ^ 31) :
    Dot.freeIds taken (ns.map fun n => (n.key, n.block)) = pure (Dot.distinctIds taken ns) := by
  induction ns generalizing taken with
  | nil => rfl
  | cons n ns ih =>
      rw [List.length_cons] at hl
      have hid : Dot.freeId taken n.block.name n.block.name 1 =
          pure (Dot.freshId taken n.block.name 0) :=
        freeId_candidate (by omega) 0 fun j hj => absurd hj (Nat.not_lt_zero j)
      rw [List.map_cons, Dot.freeIds, hid, pure_bind, ih, pure_bind]
      · rfl
      · rw [List.length_append, List.length_singleton]
        omega

theorem store_dotIds (h : f.Wired) (hs : f.size < 2 ^ 31) : f.store.dotIds = pure f.dotIds := by
  rw [FunctionStore.dotIds, h.store_blocks, pure_bind]
  exact freeIds_eq_pure (by simpa [size] using hs)

theorem fetchId_eq_pure (hk : key ∈ f.keys) : Dot.fetchId f.dotIds key = pure (f.dotId key) := by
  rw [Dot.fetchId, lookup_dotIds hk]

theorem store_dotBody (h : f.Wired) (hs : f.size < 2 ^ 31) (style : Dot.Style) (lead : String) :
    f.store.dotBody style lead = pure (f.dotStatements style lead) := by
  rw [FunctionStore.dotBody, h.store_dotIds hs, pure_bind, h.store_blocks, pure_bind, blocks,
    List.mapM_map, mapM_eq_pure (h := fun n => n.block.dotNode (lead ++ f.dotId n.key) style),
    pure_bind, h.store_edges,
    mapM_eq_pure
      (h := fun p => p.2.dotEdge (lead ++ f.dotId p.1) (lead ++ f.dotId p.2.target) style)]
  · rfl
  · intro p hp
    obtain ⟨hsrc, he⟩ := mem_edges_iff.mp hp
    simp [fetchId_eq_pure hsrc, fetchId_eq_pure (h.target_mem he)]
  · intro n hn
    simp [fetchId_eq_pure (mem_keys_iff.mpr ⟨n, hn, rfl⟩)]

theorem store_dotLines (h : f.Wired) (hs : f.size < 2 ^ 31) (style : Dot.Style) (lead : String) :
    ∃ text, f.dotLines style lead = .ok text ∧ f.store.dotLines style lead = pure text := by
  refine ⟨Dot.lines (f.dotStatements style lead), ?_, ?_⟩
  · rw [dotLines, h.dotBody_eq_ok]
    rfl
  · rw [FunctionStore.dotLines, h.store_dotBody hs, pure_bind]

theorem store_dot (h : f.Wired) (hs : f.size < 2 ^ 31) (style : Dot.Style) :
    ∃ text, f.dot style = .ok text ∧ f.store.dot style = pure text := by
  obtain ⟨body, hf, hstore⟩ := h.store_dotLines hs style ""
  refine ⟨_, by rw [dot, hf]; rfl, ?_⟩
  rw [FunctionStore.dot, hstore, pure_bind, name_store]

theorem store_dotCluster (h : f.Wired) (hs : f.size < 2 ^ 31) (style : Dot.Style) (index : Nat) :
    ∃ text, f.dotCluster style index = .ok text ∧
      f.store.dotCluster style index = pure text := by
  obtain ⟨body, hf, hstore⟩ := h.store_dotLines hs style s!"f{index}::"
  refine ⟨_, by rw [dotCluster, hf]; rfl, ?_⟩
  rw [FunctionStore.dotCluster, hstore, pure_bind, name_store]

end Wired

/-! ## All questions -/

/-- Every question that is asked of the slots of a function is answered, and as the function itself
answers it. -/
structure Answered (f : Function) : Prop where
  contains : ∀ key, f.store.contains key = f.contains key
  block? : ∀ key, f.store.block? key = f.block? key
  blocks : f.store.blocks = pure f.blocks
  blockNamed? : ∀ name, f.store.blockNamed? name = pure (f.blockNamed? name)
  entryBlock? : f.store.entryBlock? = pure f.entryBlock?
  lastBlock? : f.store.lastBlock? = f.lastBlock?
  successors : ∀ key, f.store.successorsOf key = f.successors key
  predecessors : ∀ key, f.store.predecessorsOf key = f.predecessors key
  outDegree : ∀ key, f.store.outDegree key = f.outDegree key
  inDegree : ∀ key, f.store.inDegree key = f.inDegree key
  edges : f.store.edges = f.edges
  edgeCount : f.store.edgeCount = f.edgeCount
  inspect : ∃ i, f.inspect = .ok i ∧ f.store.inspect = pure (f.tour i, i.defect)
  dump : f.store.dump = pure f.dump
  connected : ∀ src dst tag g, f.connect src dst tag = .ok g →
    f.store.connect src dst tag = pure (g.store, .ok ())
  /-- What is refused leaves the slots as they are. -/
  refused : ∀ src dst tag reason, f.connect src dst tag = .error reason →
    f.store.connect src dst tag = pure (f.store, .error reason)
  dotIds : f.size < 2 ^ 31 → f.store.dotIds = pure f.dotIds
  dotLines : f.size < 2 ^ 31 → ∀ style lead, ∃ text, f.dotLines style lead = .ok text ∧
    f.store.dotLines style lead = pure text
  dot : f.size < 2 ^ 31 → ∀ style, ∃ text, f.dot style = .ok text ∧ f.store.dot style = pure text

theorem Wired.answered (h : f.Wired) : f.Answered where
  contains := h.store_contains
  block? := h.store_block?
  blocks := h.store_blocks
  blockNamed? := h.store_blockNamed?
  entryBlock? := h.store_entryBlock?
  lastBlock? := store_lastBlock? f
  successors := h.store_successorsOf
  predecessors := h.store_predecessorsOf
  outDegree := h.store_outDegree
  inDegree := h.store_inDegree
  edges := h.store_edges
  edgeCount := h.store_edgeCount
  inspect := h.store_inspect
  dump := h.store_dump
  connected _ _ _ _ hc := h.store_connect_of_ok hc
  refused _ _ _ _ hc := h.store_connect_of_error hc
  dotIds := h.store_dotIds
  dotLines := h.store_dotLines
  dot := h.store_dot

end Function

end FlowGraph
