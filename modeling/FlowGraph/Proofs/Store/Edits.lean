import FlowGraph.Proofs.Function.Consistent
import FlowGraph.Store.Function
import Mathlib

/-!
A function and its slots go through the same edits. No edit panics, and what it leaves in the slots
is the function that it leads to.
-/
namespace FlowGraph

@[simp] theorem Slots.size_foldl_change {α β : Type} {change : α → α} (serial : β → Nat)
    (l : List β) (s : Slots α) :
    (l.foldl (fun slots b => slots.change (serial b) change) s).size = s.size := by
  induction l generalizing s with
  | nil => rfl
  | cons b l ih => rw [List.foldl_cons, ih, Slots.size_change]

/-- A change that may be made twice is made to every slot that is named. -/
theorem Slots.get?_foldl_change {α β : Type} {change : α → α}
    (hc : ∀ a, change (change a) = change a) (serial : β → Nat) (l : List β) (s : Slots α)
    (i : Nat) :
    (l.foldl (fun slots b => slots.change (serial b) change) s).get? i =
      if i ∈ l.map serial then (s.get? i).map change else s.get? i := by
  induction l generalizing s with
  | nil => rfl
  | cons b l ih =>
      rw [List.foldl_cons, ih, Slots.get?_change, List.map_cons]
      by_cases hb : i = serial b <;> by_cases hl : i ∈ l.map serial <;>
        simp [hb, hl, Option.map_map, Function.comp_def, hc]

namespace Function

variable {α : Type} {f g : Function} {n : Node} {p : Node → α} {b : Block} {e : Edge}
  {key src dst : BlockKey} {name tag : String} {i : Nat}

/-! ## Slots -/

/-- Something of each block, in its slot. -/
def slots (f : Function) (p : Node → α) : Slots α :=
  ⟨(List.range f.nextSerial).map fun i => (f.node? ⟨f.uid, i⟩).map p⟩

/-- The function in its slots. -/
def store (f : Function) : FunctionStore where
  uid := f.uid
  name := f.name
  owner := f.owner
  arena := f.slots (·.block)
  order := f.keys
  successors := f.slots (·.successors)
  predecessors := f.slots (·.predecessors)

@[simp] theorem name_store : f.store.name = f.name := rfl

@[simp] theorem order_store : f.store.order = f.keys := rfl

@[simp] theorem size_slots : (f.slots p).size = f.nextSerial := by
  simp [slots, Slots.size]

/-- Where only the blocks differ, only what is in the slots does. -/
theorem store_ext (hg : g = { f with nodes := g.nodes }) {arena : Slots Block}
    {order : List BlockKey} {successors : Slots (List Edge)} {predecessors : Slots (List BlockKey)}
    (ha : g.slots (·.block) = arena) (ho : g.keys = order)
    (hs : g.slots (·.successors) = successors) (hp : g.slots (·.predecessors) = predecessors) :
    g.store = { f.store with arena, order, successors, predecessors } := by
  subst ha ho hs hp
  rw [hg]
  rfl

theorem isEmpty_keys : f.keys.isEmpty = f.isEmpty := by
  simp [keys, isEmpty]

namespace Wired

/-- A live handle is told by its serial number. -/
theorem slot_eq_iff (h : f.Wired) (hk : key ∈ f.keys) : ⟨f.uid, i⟩ = key ↔ i = key.serial := by
  obtain ⟨function, serial⟩ := key
  obtain ⟨rfl, -⟩ := h.minted _ hk
  simp

/-- Among live handles a handle is there if its serial number is. -/
theorem serial_mem_iff (h : f.Wired) {l : List BlockKey} (hl : ∀ k ∈ l, k ∈ f.keys) :
    i ∈ l.map (·.serial) ↔ ⟨f.uid, i⟩ ∈ l := by
  rw [List.mem_map]
  constructor
  · rintro ⟨k, hk, rfl⟩
    rwa [(h.slot_eq_iff (hl k hk)).mpr rfl]
  · intro hi
    exact ⟨_, hi, rfl⟩

theorem get?_slots (h : f.Wired) : (f.slots p).get? i = (f.node? ⟨f.uid, i⟩).map p := by
  by_cases hi : i < f.nextSerial
  · simp [slots, Slots.get?, hi]
  · have hnone : f.node? ⟨f.uid, i⟩ = none :=
      node?_eq_none_iff.mpr fun hk => hi (h.minted _ hk).2
    simp [slots, Slots.get?, hi, hnone]

theorem get?_slots_of_node? (h : f.Wired) (hn : f.node? key = some n) :
    (f.slots p).get? key.serial = some (p n) := by
  rw [h.get?_slots, (h.slot_eq_iff (mem_keys_of_node? hn)).mpr rfl, hn, Option.map_some]

theorem fetch_arena (h : f.Wired) (hn : f.node? key = some n) :
    f.store.arena.fetch key.serial = pure n.block :=
  Slots.fetch_eq_ok (h.get?_slots_of_node? hn)

/-- The filled slots hold what is of the blocks, maybe in another order. -/
theorem values_slots_perm (h : f.Wired) : (f.slots p).values.Perm (f.nodes.map p) := by
  have hvalues : (f.slots p).values =
      ((List.range f.nextSerial).filterMap fun i => f.node? ⟨f.uid, i⟩).map p := by
    simp only [slots, Slots.values, List.filterMap_map, List.map_filterMap]
    rfl
  have hnodup : ((List.range f.nextSerial).filterMap fun i => f.node? ⟨f.uid, i⟩).Nodup := by
    refine List.nodup_range.filterMap fun i j n hi hj => ?_
    exact congrArg BlockKey.serial ((key_of_node? hi).symm.trans (key_of_node? hj))
  rw [hvalues]
  refine ((List.perm_ext_iff_of_nodup hnodup (h.nodup.of_map _)).mpr fun n => ?_).map p
  simp only [List.mem_filterMap, List.mem_range]
  constructor
  · rintro ⟨i, -, hn⟩
    exact mem_nodes_of_node? hn
  · intro hn
    obtain ⟨hfunction, hserial⟩ := h.minted n.key (List.mem_map_of_mem hn)
    exact ⟨n.key.serial, hserial, hfunction ▸ node?_of_mem h.nodup hn⟩

theorem slots_congr (h : f.Wired) (hg : g.Wired) (hframe : g = { f with nodes := g.nodes })
    (hp : ∀ u, (g.node? u).map p = (f.node? u).map p) : g.slots p = f.slots p := by
  have huid : g.uid = f.uid := by rw [hframe]
  refine Slots.ext_get? ?_ fun i => ?_
  · rw [size_slots, size_slots, hframe]
  · rw [hg.get?_slots, h.get?_slots, huid, hp]

theorem slots_change (h : f.Wired) (hg : g.Wired) (hframe : g = { f with nodes := g.nodes })
    (hk : key ∈ f.keys) {c : α → α}
    (hp : ∀ u, (g.node? u).map p = ((f.node? u).map p).map fun a => if u = key then c a else a) :
    g.slots p = (f.slots p).change key.serial c := by
  have huid : g.uid = f.uid := by rw [hframe]
  refine Slots.ext_get? ?_ fun i => ?_
  · rw [Slots.size_change, size_slots, size_slots, hframe]
  · rw [hg.get?_slots, huid, hp, Slots.get?_change, h.get?_slots]
    by_cases hi : i = key.serial
    · simp [hi, (h.slot_eq_iff hk).mpr rfl]
    · simp [hi, (h.slot_eq_iff hk).not.mpr hi, Function.comp_def]

theorem resolve?_store (h : f.Wired) (key : BlockKey) :
    f.store.resolve? key = (f.node? key).map fun _ => key.serial := by
  rw [FunctionStore.resolve?]
  cases hn : f.node? key with
  | some n =>
      refine if_pos ⟨(h.minted key (mem_keys_of_node? hn)).1, ?_⟩
      rw [store, h.get?_slots_of_node? hn, Option.isSome_some]
  | none =>
      refine if_neg ?_
      rintro ⟨hf, hsome⟩
      obtain ⟨function, serial⟩ := key
      obtain rfl : function = f.uid := hf
      simp [store, h.get?_slots, hn] at hsome

/-! ## Edits -/

theorem slots_createBlock (h : f.Wired) :
    (f.createBlock name).1.slots p = (f.slots p).put f.nextSerial
      (p { key := ⟨f.uid, f.nextSerial⟩
           block := { name, flags := { entry := f.isEmpty }, owner := f.uid } }) := by
  have hfresh : f.node? ⟨f.uid, f.nextSerial⟩ = none := node?_eq_none_iff.mpr h.fresh
  refine Slots.ext_get? (by simp) fun i => ?_
  rw [h.createBlock.get?_slots, Slots.get?_put, h.get?_slots, uid_createBlock, node?_createBlock]
  by_cases hi : i = f.nextSerial <;> simp [hi, hfresh]

theorem store_createBlock (h : f.Wired) (name : String) :
    f.store.createBlock name = pure ((f.createBlock name).1.store, (f.createBlock name).2) := by
  rw [FunctionStore.createBlock, Slots.fetch_eq_ok (Slots.get?_put.trans (if_pos rfl))]
  simp only [store, size_slots, h.slots_createBlock, keys_createBlock, isEmpty_keys]
  rfl

/-- The slot of a deleted block is empty, and of the others only those of its neighbours change. -/
theorem slots_deleteBlock (h : f.Wired) (hd : f.deleteBlock? key = some (b, g))
    {l : List BlockKey} (hl : ∀ k ∈ l, k ∈ f.keys) {c : α → α} (hc : ∀ a, c (c a) = c a)
    (hp : ∀ u ≠ key, (g.node? u).map p =
      ((f.node? u).map p).map fun a => if u ∈ l then c a else a) :
    g.slots p = l.foldl (fun slots k => slots.change k.serial c)
      ((f.slots p).clear key.serial) := by
  obtain ⟨gone, hgone, -⟩ := deleteBlock?_eq_some_iff.mp hd
  have hk : key ∈ f.keys := mem_keys_of_node? hgone
  have hnone : g.node? key = none := node?_eq_none_iff.mpr (by simp [keys_deleteBlock hd])
  refine Slots.ext_get? (by simp [nextSerial_deleteBlock hd]) fun i => ?_
  rw [(h.deleteBlock hd).get?_slots, uid_deleteBlock hd, Slots.get?_foldl_change hc,
    Slots.get?_clear, h.get?_slots]
  by_cases hi : i = key.serial
  · simp [hi, (h.slot_eq_iff hk).mpr rfl, hnone]
  · rw [hp _ ((h.slot_eq_iff hk).not.mpr hi), if_neg hi]
    by_cases hm : ⟨f.uid, i⟩ ∈ l <;> simp [h.serial_mem_iff hl, hm, Function.comp_def]

section deleted

variable (h : f.Wired) (hd : f.deleteBlock? key = some (b, g)) (hn : f.node? key = some n)
include h hd

theorem arena_deleteBlock : g.slots (·.block) = (f.slots (·.block)).clear key.serial := by
  refine h.slots_deleteBlock hd (l := []) (c := id) (by simp) (fun _ => rfl) fun u hu => ?_
  simp [node?_deleteBlock hd hu, Function.comp_def]

include hn

/-- The sources of edges to the block lose these edges. -/
theorem slots_successors_deleteBlock :
    g.slots (·.successors) = n.predecessors.foldl
      (fun slots src => slots.change src.serial (·.filter (·.target ≠ key)))
      ((f.slots (·.successors)).clear key.serial) := by
  refine h.slots_deleteBlock hd (fun k hk => ?_) (by simp) fun u hu => ?_
  · exact h.source_mem (predecessors_of_node? hn ▸ hk)
  · simp [node?_deleteBlock hd hu, predecessors_of_node? hn, Function.comp_def]

/-- The targets of its edges lose their entries for the block. -/
theorem slots_predecessors_deleteBlock :
    g.slots (·.predecessors) = n.successors.foldl
      (fun slots e => slots.change e.target.serial (·.filter (· ≠ key)))
      ((f.slots (·.predecessors)).clear key.serial) := by
  rw [h.slots_deleteBlock hd (l := n.successors.map (·.target)) (c := (·.filter (· ≠ key))) ?_
    (by simp) ?_, List.foldl_map]
  · intro k hk
    obtain ⟨e, he, rfl⟩ := List.mem_map.mp hk
    exact h.target_mem (successors_of_node? hn ▸ he)
  · intro u hu
    simp [node?_deleteBlock hd hu, successors_of_node? hn, Function.comp_def]

end deleted

theorem store_deleteBlock? (h : f.Wired) (key : BlockKey) :
    f.store.deleteBlock? key = (f.deleteBlock? key).map fun (b, g) => (b, g.store) := by
  cases hn : f.node? key with
  | none => simp [FunctionStore.deleteBlock?, h.resolve?_store, deleteBlock?, hn]
  | some n =>
      obtain ⟨g, hd⟩ : ∃ g, f.deleteBlock? key = some (n.block, g) := by simp [deleteBlock?, hn]
      have hframe : g = { f with nodes := g.nodes } := by
        obtain ⟨-, -, -, rfl⟩ := deleteBlock?_eq_some_iff.mp hd
        rfl
      have hstore := store_ext hframe (h.arena_deleteBlock hd) (keys_deleteBlock hd)
        (h.slots_successors_deleteBlock hd hn) (h.slots_predecessors_deleteBlock hd hn)
      rw [FunctionStore.deleteBlock?, h.resolve?_store, hn, hd]
      simp only [Option.map_some, hstore]
      simp only [store, h.get?_slots_of_node? hn, Option.bind_eq_bind, Option.bind_some,
        Option.getD_some, Option.pure_def]

/-- A new edge is in the slots of its two ends. -/
theorem store_of_connect (h : f.Wired) (hc : f.connect src dst tag = .ok g) :
    g.store =
      { f.store with
        successors := f.store.successors.change src.serial (· ++ [⟨tag, dst⟩])
        predecessors := f.store.predecessors.change dst.serial (· ++ [src]) } := by
  obtain ⟨hs, hd, -, hg⟩ := connect_eq_ok_iff.mp hc
  have hframe : g = { f with nodes := g.nodes } := by
    rw [hg]
    rfl
  refine store_ext hframe ?_ (keys_connect hc) ?_ ?_
  · exact h.slots_congr (h.connect hc) hframe (by simp [node?_connect hc, Function.comp_def])
  · exact h.slots_change (h.connect hc) hframe hs (by simp [node?_connect hc, Function.comp_def])
  · exact h.slots_change (h.connect hc) hframe hd (by simp [node?_connect hc, Function.comp_def])

/-- The slots of the two ends are found exactly if the handles resolve. -/
theorem store_connect_eq (h : f.Wired) (hs : f.node? src = some n) (hd : dst ∈ f.keys) :
    f.store.connect src dst tag =
      if n.successors.any (·.tag = tag) then
        pure (f.store, .error (.duplicateTag f.name n.block.name tag))
      else
        pure
          ({ f.store with
              successors := f.store.successors.change src.serial (· ++ [⟨tag, dst⟩])
              predecessors := f.store.predecessors.change dst.serial (· ++ [src]) }, .ok ()) := by
  obtain ⟨target, ht⟩ := exists_node? hd
  have hsucc : f.store.successors.get? src.serial = some n.successors := h.get?_slots_of_node? hs
  simp only [FunctionStore.connect, h.resolve?_store, hs, ht, Option.map_some, hsucc,
    h.fetch_arena hs, h.fetch_arena ht, pure_bind]
  rfl

theorem store_connect_of_ok (h : f.Wired) (hc : f.connect src dst tag = .ok g) :
    f.store.connect src dst tag = pure (g.store, .ok ()) := by
  obtain ⟨hsrc, hdst, hfree, -⟩ := connect_eq_ok_iff.mp hc
  obtain ⟨n, hn⟩ := exists_node? hsrc
  have hany : ¬ n.successors.any (·.tag = tag) := by
    simpa [successors_of_node? hn] using hfree
  rw [h.store_connect_eq hn hdst, if_neg hany, h.store_of_connect hc]

/-- An edge that is refused leaves no trace in the slots. -/
theorem store_connect_of_error {reason : EditError} (h : f.Wired)
    (hc : f.connect src dst tag = .error reason) :
    f.store.connect src dst tag = pure (f.store, .error reason) := by
  by_cases hlive : src ∈ f.keys ∧ dst ∈ f.keys
  · obtain ⟨hsrc, hdst⟩ := hlive
    obtain ⟨n, hn⟩ := exists_node? hsrc
    by_cases hany : n.successors.any (·.tag = tag)
    · obtain ⟨e, he, htag⟩ := List.any_eq_true.mp hany
      rw [connect_of_tag_mem hn hdst he (by simpa using htag)] at hc
      rw [h.store_connect_eq hn hdst, if_pos hany, Except.error.inj hc]
    · have hok := connect_eq_ok_iff.mpr ⟨hsrc, hdst, by simpa [successors_of_node? hn] using hany,
        rfl⟩
      simp [hok] at hc
  · have hgone : src ∉ f.keys ∨ dst ∉ f.keys := by rwa [not_and_or] at hlive
    rw [connect_of_not_mem hgone] at hc
    rw [← Except.error.inj hc, FunctionStore.connect, h.resolve?_store, h.resolve?_store]
    rcases hgone with hgone | hgone
    · rw [node?_eq_none_iff.mpr hgone]
      rfl
    · rw [node?_eq_none_iff.mpr hgone]
      cases f.node? src <;> rfl

/-- An edge that is removed leaves the slots of its two ends. -/
theorem store_of_disconnect (h : f.Wired) (hd : f.disconnect? src tag = some (e, g)) :
    g.store =
      { f.store with
        successors := f.store.successors.change src.serial (·.eraseP (·.tag = tag))
        predecessors := f.store.predecessors.change e.target.serial (·.erase src) } := by
  obtain ⟨hfind, hg⟩ := disconnect?_eq_some_iff.mp hd
  have he : e ∈ f.successors src := List.mem_of_find?_eq_some hfind
  have hframe : g = { f with nodes := g.nodes } := by
    rw [hg]
    rfl
  refine store_ext hframe ?_ (keys_disconnect hd) ?_ ?_
  · exact h.slots_congr (h.disconnect hd) hframe (by simp [node?_disconnect hd, Function.comp_def])
  · exact h.slots_change (h.disconnect hd) hframe (mem_keys_of_mem_successors he)
      (by simp [node?_disconnect hd, Function.comp_def])
  · exact h.slots_change (h.disconnect hd) hframe (h.target_mem he)
      (by simp [node?_disconnect hd, Function.comp_def])

theorem store_disconnect? (h : f.Wired) (src : BlockKey) (tag : String) :
    f.store.disconnect? src tag = (f.disconnect? src tag).map fun (e, g) => (e, g.store) := by
  cases hs : f.node? src with
  | none => simp [FunctionStore.disconnect?, h.resolve?_store, disconnect?, hs]
  | some source =>
      have hsucc : f.store.successors.get? src.serial = some source.successors :=
        h.get?_slots_of_node? hs
      rw [FunctionStore.disconnect?, h.resolve?_store, hs, Option.map_some]
      simp only [Option.bind_eq_bind, Option.bind_some, hsucc]
      cases he : source.successors.find? (·.tag = tag) with
      | none => simp [disconnect?, hs, he]
      | some e =>
          have hd := disconnect?_eq_some_iff.mpr ⟨(successors_of_node? hs).symm ▸ he, rfl⟩
          simp only [hd, Option.bind_some, Option.map_some, Option.pure_def,
            h.store_of_disconnect hd]

/-- Only the slot of the block itself changes. -/
theorem store_of_editBlock {change : BlockEdit} (h : f.Wired)
    (hc : f.editBlock? key change = some g) :
    g.store = { f.store with arena := f.store.arena.change key.serial (·.edit change) } := by
  obtain ⟨hk, hg⟩ := editBlock?_eq_some_iff.mp hc
  have hframe : g = { f with nodes := g.nodes } := by
    rw [hg]
    rfl
  refine store_ext hframe ?_ (keys_editBlock hc) ?_ ?_
  · refine h.slots_change (h.editBlock hc) hframe hk fun u => ?_
    by_cases hu : u = key <;> simp [node?_editBlock hc, hu, Function.comp_def]
  · refine h.slots_congr (h.editBlock hc) hframe fun u => ?_
    by_cases hu : u = key <;> simp [node?_editBlock hc, hu, Function.comp_def]
  · refine h.slots_congr (h.editBlock hc) hframe fun u => ?_
    by_cases hu : u = key <;> simp [node?_editBlock hc, hu, Function.comp_def]

theorem store_editBlock? (h : f.Wired) (key : BlockKey) (change : BlockEdit) :
    f.store.editBlock? key change = (f.editBlock? key change).map store := by
  cases hn : f.node? key with
  | none => simp [FunctionStore.editBlock?, h.resolve?_store, editBlock?, hn]
  | some n =>
      have hc : f.editBlock? key change = _ :=
        editBlock?_eq_some_iff.mpr ⟨mem_keys_of_node? hn, rfl⟩
      rw [FunctionStore.editBlock?, h.resolve?_store, hn, hc, Option.map_some, Option.map_some,
        h.store_of_editBlock hc]
      rfl

end Wired

end Function

end FlowGraph
