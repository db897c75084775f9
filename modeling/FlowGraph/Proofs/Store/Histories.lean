import FlowGraph.Proofs.Store.Answers

/-!
Every history of a function runs through in its slots, the building of graphs included, and leaves
there what the function has become.
-/
namespace FlowGraph

/-! ## Building a graph -/

namespace Dot.Building

variable {b : Building}

/-- A graph half built, with the function in its slots. -/
def store (b : Building) : StoreBuilding := ⟨b.function.store, b.known⟩

theorem store_store : b.store.store = b.function.store := rfl

theorem store_mention (h : b.function.Wired) (id name : String) :
    b.store.mention id name = pure ((b.mention id name).1.store, (b.mention id name).2) := by
  rw [StoreBuilding.mention, mention, store]
  cases b.known.lookup id with
  | some key => rfl
  | none =>
      simp only [h.store_createBlock, pure_bind]
      rfl

theorem store_take (h : b.function.Wired) (s : Statement) :
    b.store.take s = pure ((b.take s).1.store, (b.take s).2) := by
  cases s with
  | «attribute» a => rfl
  | defaults target attributes => rfl
  | node id attributes =>
      rw [StoreBuilding.take, store_mention h, pure_bind]
      rfl
  | edge src dst attributes =>
      have hs := Function.Wired.kept.toBuilt.mention h src src
      have hd := Function.Wired.kept.toBuilt.mention hs dst dst
      simp only [StoreBuilding.take, store_mention h, pure_bind, store_mention hs, store_store,
        take]
      cases hc : (((b.mention src src).1.mention dst dst).1.function.connect (b.mention src src).2
          ((b.mention src src).1.mention dst dst).2 (edgeTag attributes)) with
      | ok g =>
          rw [hd.store_connect_of_ok hc]
          rfl
      | error reason =>
          rw [hd.store_connect_of_error hc]
          rfl

theorem store_takeAll (h : b.function.Wired) (ss : List Statement) :
    b.store.takeAll ss = pure ((b.takeAll ss).1.store, (b.takeAll ss).2) := by
  induction ss generalizing b with
  | nil => rfl
  | cons s ss ih =>
      have hs := Function.Wired.kept.toBuilt.take h s
      rw [StoreBuilding.takeAll, store_take h, pure_bind, takeAll]
      cases hb : b.take s with
      | mk b' failure =>
          cases failure with
          | none => exact ih (hb ▸ hs)
          | some e => rfl

end Dot.Building

namespace Function.Wired

variable {f : Function}

theorem store_populate (h : f.Wired) (g : Dot.Graph) :
    f.store.populate g = pure ((g.populate f).1.function.store, (g.populate f).2) := by
  have hall : Dot.StoreBuilding.takeAll { store := f.store } g.statements = _ :=
    Dot.Building.store_takeAll (b := { function := f }) h g.statements
  rw [FunctionStore.populate, hall, pure_bind]
  rfl

/-! ## One edit after the other -/

theorem store_deleteBlockNamed? (h : f.Wired) (name : String) :
    f.store.deleteBlockNamed? name =
      pure ((f.deleteBlockNamed? name).map fun (b, g) => (b, g.store)) := by
  rw [FunctionStore.deleteBlockNamed?, h.store_blockNamed?, pure_bind, deleteBlockNamed?]
  cases f.blockNamed? name with
  | none => rfl
  | some key => exact congrArg pure (h.store_deleteBlock? key)

theorem store_apply (h : f.Wired) (e : Edit) : f.store.apply e = pure (f.apply e).store := by
  cases e with
  | create name =>
      rw [FunctionStore.apply, h.store_createBlock, pure_bind]
      rfl
  | delete key =>
      rw [FunctionStore.apply, h.store_deleteBlock?, Function.apply]
      cases f.deleteBlock? key <;> rfl
  | deleteNamed name =>
      rw [FunctionStore.apply, h.store_deleteBlockNamed?, pure_bind, Function.apply]
      cases f.deleteBlockNamed? name <;> rfl
  | connect src dst tag =>
      rw [FunctionStore.apply, Function.apply]
      cases hc : f.connect src dst tag with
      | ok g =>
          rw [h.store_connect_of_ok hc]
          rfl
      | error reason =>
          rw [h.store_connect_of_error hc]
          rfl
  | disconnect src tag =>
      rw [FunctionStore.apply, h.store_disconnect?, Function.apply]
      cases f.disconnect? src tag <;> rfl
  | change key change =>
      rw [FunctionStore.apply, h.store_editBlock?, Function.apply]
      cases f.editBlock? key change <;> rfl
  | populate g =>
      rw [FunctionStore.apply, h.store_populate, pure_bind]
      rfl

theorem store_run (h : f.Wired) (history : List Edit) :
    f.store.run history = pure (f.run history).store := by
  induction history generalizing f with
  | nil => rfl
  | cons e history ih =>
      rw [FunctionStore.run, h.store_apply, pure_bind, run_cons]
      exact ih (kept.apply h e)

end Function.Wired

/-! ## Slots that belong together -/

/-- The handles in creation order are those of the filled slots, of the blocks and of both sides of
the edges alike, and both sides of the edges tell of the same ones. -/
structure FunctionStore.Coherent (s : FunctionStore) : Prop where
  order_nodup : s.order.Nodup
  owned : ∀ key ∈ s.order, key.function = s.uid
  arena_iff : ∀ i, (s.arena.get? i).isSome ↔ ⟨s.uid, i⟩ ∈ s.order
  successors_iff : ∀ i, (s.successors.get? i).isSome ↔ ⟨s.uid, i⟩ ∈ s.order
  predecessors_iff : ∀ i, (s.predecessors.get? i).isSome ↔ ⟨s.uid, i⟩ ∈ s.order
  resolve_iff : ∀ key, (s.resolve? key).isSome ↔ key ∈ s.order
  target_live : ∀ i edges, s.successors.get? i = some edges → ∀ e ∈ edges, e.target ∈ s.order
  source_live : ∀ i sources, s.predecessors.get? i = some sources → ∀ src ∈ sources, src ∈ s.order
  balanced : ∀ i j edges sources, s.successors.get? i = some edges →
    s.predecessors.get? j = some sources →
      edges.countP (·.target = ⟨s.uid, j⟩) = sources.count ⟨s.uid, i⟩
  tags_nodup : ∀ i edges, s.successors.get? i = some edges → (edges.map (·.tag)).Nodup

namespace Function.Wired

variable {f : Function} {i : Nat}

theorem isSome_slots_iff {α : Type} {p : Node → α} (h : f.Wired) :
    ((f.slots p).get? i).isSome ↔ ⟨f.uid, i⟩ ∈ f.keys := by
  rw [h.get?_slots, Option.isSome_map, Option.isSome_iff_ne_none, ne_eq, node?_eq_none_iff,
    not_not]

theorem successors_of_slot {edges : List Edge} (h : f.Wired)
    (he : f.store.successors.get? i = some edges) : f.successors ⟨f.uid, i⟩ = edges := by
  obtain ⟨n, hn, rfl⟩ := Option.map_eq_some_iff.mp (h.get?_slots.symm.trans he)
  exact successors_of_node? hn

theorem predecessors_of_slot {sources : List BlockKey} (h : f.Wired)
    (hs : f.store.predecessors.get? i = some sources) : f.predecessors ⟨f.uid, i⟩ = sources := by
  obtain ⟨n, hn, rfl⟩ := Option.map_eq_some_iff.mp (h.get?_slots.symm.trans hs)
  exact predecessors_of_node? hn

theorem coherent_store (h : f.Wired) : f.store.Coherent where
  order_nodup := h.nodup
  owned key hk := (h.minted key hk).1
  arena_iff i := h.isSome_slots_iff
  successors_iff i := h.isSome_slots_iff
  predecessors_iff i := h.isSome_slots_iff
  resolve_iff key := by
    rw [h.resolve?_store, Option.isSome_map, Option.isSome_iff_ne_none, ne_eq, node?_eq_none_iff,
      not_not, order_store]
  target_live i edges hedges e he := h.target_mem (h.successors_of_slot hedges ▸ he)
  source_live i sources hsources src hsrc := h.source_mem (h.predecessors_of_slot hsources ▸ hsrc)
  balanced i j edges sources hedges hsources := by
    have hb := h.consistent.balanced ⟨f.uid, i⟩ ⟨f.uid, j⟩
    rwa [h.successors_of_slot hedges, h.predecessors_of_slot hsources] at hb
  tags_nodup i edges hedges := h.successors_of_slot hedges ▸ h.tags ⟨f.uid, i⟩

end Function.Wired

/-- No history tears the slots apart, whatever handles it is given. -/
theorem FunctionStore.coherent_run (uid : Uid) (name : String) (owner : Uid)
    (history : List Function.Edit) :
    ∃ s, (FunctionStore.empty uid name owner).run history = pure s ∧ s.Coherent := by
  have h := Function.Wired.empty uid name owner
  exact ⟨_, h.store_run history, (Function.Wired.kept.run h history).coherent_store⟩

end FlowGraph
