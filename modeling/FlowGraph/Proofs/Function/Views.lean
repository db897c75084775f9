import FlowGraph.Function.Edit
import Mathlib.Data.List.Nodup

/-!
A function seen through its handles and through the two sides of its edges, and what each edit does
to these views. Later proofs know the edits by these equations only.
-/
namespace FlowGraph.Function

variable {f g : Function} {n : Node} {e : Edge} {b : Block} {key src dst u v : BlockKey}
  {name tag : String}

/-! ## Looking up -/

theorem key_of_node? (h : f.node? u = some n) : n.key = u := by
  simpa using List.find?_some h

theorem mem_nodes_of_node? (h : f.node? u = some n) : n ∈ f.nodes :=
  List.mem_of_find?_eq_some h

theorem mem_keys_iff : u ∈ f.keys ↔ ∃ n ∈ f.nodes, n.key = u := by
  simp [keys]

theorem node?_eq_none_iff : f.node? u = none ↔ u ∉ f.keys := by
  simp [node?, mem_keys_iff]

theorem block?_eq_none_iff : f.block? u = none ↔ u ∉ f.keys := by
  rw [block?, Option.map_eq_none_iff, node?_eq_none_iff]

theorem exists_node? (h : u ∈ f.keys) : ∃ n, f.node? u = some n := by
  cases hn : f.node? u with
  | none => exact absurd h (node?_eq_none_iff.mp hn)
  | some n => exact ⟨n, rfl⟩

theorem mem_keys_of_node? (h : f.node? u = some n) : u ∈ f.keys :=
  mem_keys_iff.mpr ⟨n, mem_nodes_of_node? h, key_of_node? h⟩

/-- With distinct handles every node is the one that its handle finds. -/
theorem node?_of_mem (hd : f.keys.Nodup) (hn : n ∈ f.nodes) : f.node? n.key = some n := by
  obtain ⟨m, hm⟩ := exists_node? (mem_keys_iff.mpr ⟨n, hn, rfl⟩)
  rw [hm, List.inj_on_of_nodup_map hd (mem_nodes_of_node? hm) hn (key_of_node? hm)]

theorem block?_of_node? (h : f.node? u = some n) : f.block? u = some n.block := by
  rw [block?, h, Option.map_some]

theorem mem_keys_of_block? (h : f.block? u = some b) : u ∈ f.keys := by
  by_contra hu
  simp [block?_eq_none_iff.mpr hu] at h

theorem successors_of_node? (h : f.node? u = some n) : f.successors u = n.successors := by
  simp [successors, h]

theorem predecessors_of_node? (h : f.node? u = some n) : f.predecessors u = n.predecessors := by
  simp [predecessors, h]

theorem successors_of_not_mem (h : u ∉ f.keys) : f.successors u = [] := by
  simp [successors, node?_eq_none_iff.mpr h]

theorem predecessors_of_not_mem (h : u ∉ f.keys) : f.predecessors u = [] := by
  simp [predecessors, node?_eq_none_iff.mpr h]

theorem mem_keys_of_mem_successors (h : e ∈ f.successors u) : u ∈ f.keys := by
  by_contra hu
  simp [successors_of_not_mem hu] at h

theorem mem_keys_of_mem_predecessors (h : v ∈ f.predecessors u) : u ∈ f.keys := by
  by_contra hu
  simp [predecessors_of_not_mem hu] at h

theorem mem_edges_iff : (u, e) ∈ f.edges ↔ u ∈ f.keys ∧ e ∈ f.successors u := by
  simp [edges]

/-! ## Changing one node -/

section update

variable {change : Node → Node}

theorem keys_update (hc : ∀ n, (change n).key = n.key) : (f.update key change).keys = f.keys := by
  simp only [keys, update, List.map_map]
  refine List.map_congr_left fun n _ => ?_
  by_cases h : n.key = key <;> simp [h, hc]

theorem node?_update (hc : ∀ n, (change n).key = n.key) :
    (f.update key change).node? u = (f.node? u).map fun n => if u = key then change n else n := by
  have hp : (fun n : Node => decide ((if n.key = key then change n else n).key = u)) =
      fun n => decide (n.key = u) := by
    funext n
    by_cases h : n.key = key <;> simp [h, hc]
  simp only [node?, update, List.find?_map, Function.comp_def, hp]
  cases hn : f.nodes.find? (·.key = u) with
  | none => rfl
  | some n =>
      have hk : n.key = u := by simpa using List.find?_some hn
      simp [hk]

theorem blocks_update (hc : ∀ n, (change n).key = n.key ∧ (change n).block = n.block) :
    (f.update key change).blocks = f.blocks := by
  simp only [blocks, update, List.map_map]
  refine List.map_congr_left fun n _ => ?_
  by_cases h : n.key = key <;> simp [h, hc]

end update

/-! ## Creating a block -/

@[simp] theorem keys_createBlock :
    (f.createBlock name).1.keys = f.keys ++ [⟨f.uid, f.nextSerial⟩] := by
  simp [createBlock, keys]

theorem blocks_createBlock :
    (f.createBlock name).1.blocks = f.blocks ++
      [(⟨f.uid, f.nextSerial⟩, { name, flags := { entry := f.isEmpty }, owner := f.uid })] := by
  simp [createBlock, blocks]

@[simp] theorem uid_createBlock : (f.createBlock name).1.uid = f.uid := rfl

@[simp] theorem nextSerial_createBlock : (f.createBlock name).1.nextSerial = f.nextSerial + 1 := rfl

/-- A block that was there is found as before, and the new handle finds a block without edges. -/
theorem node?_createBlock :
    (f.createBlock name).1.node? u = (f.node? u).or
      (if u = ⟨f.uid, f.nextSerial⟩ then
        some { key := u, block := { name, flags := { entry := f.isEmpty }, owner := f.uid } }
      else none) := by
  by_cases hu : u = ⟨f.uid, f.nextSerial⟩
  · simp [node?, createBlock, hu]
  · simp [node?, createBlock, hu, Ne.symm hu]

theorem block?_createBlock :
    (f.createBlock name).1.block? u = (f.block? u).or
      (if u = ⟨f.uid, f.nextSerial⟩ then
        some { name, flags := { entry := f.isEmpty }, owner := f.uid }
      else none) := by
  rw [block?, block?, node?_createBlock]
  cases f.node? u with
  | some n => rfl
  | none => by_cases hu : u = ⟨f.uid, f.nextSerial⟩ <;> simp [hu]

@[simp] theorem successors_createBlock : (f.createBlock name).1.successors u = f.successors u := by
  rw [successors, successors, node?_createBlock]
  cases f.node? u with
  | some n => rfl
  | none => by_cases hu : u = ⟨f.uid, f.nextSerial⟩ <;> simp [hu]

@[simp] theorem predecessors_createBlock :
    (f.createBlock name).1.predecessors u = f.predecessors u := by
  rw [predecessors, predecessors, node?_createBlock]
  cases f.node? u with
  | some n => rfl
  | none => by_cases hu : u = ⟨f.uid, f.nextSerial⟩ <;> simp [hu]

/-! ## Deleting a block -/

section deleteBlock

theorem deleteBlock?_eq_some_iff :
    f.deleteBlock? key = some (b, g) ↔ ∃ gone, f.node? key = some gone ∧ b = gone.block ∧
      g = { f with nodes := (f.nodes.filter (·.key ≠ key)).map (·.without gone) } := by
  cases hn : f.node? key with
  | none => simp [deleteBlock?, hn]
  | some gone => simp [deleteBlock?, hn, eq_comm]

variable (h : f.deleteBlock? key = some (b, g))
include h

theorem keys_deleteBlock : g.keys = f.keys.filter (· ≠ key) := by
  obtain ⟨gone, -, -, rfl⟩ := deleteBlock?_eq_some_iff.1 h
  simp [keys, List.filter_map, Function.comp_def, Node.without]

theorem blocks_deleteBlock : g.blocks = f.blocks.filter (·.1 ≠ key) := by
  obtain ⟨gone, -, -, rfl⟩ := deleteBlock?_eq_some_iff.1 h
  simp [blocks, List.filter_map, Function.comp_def, Node.without]

theorem uid_deleteBlock : g.uid = f.uid := by
  obtain ⟨gone, -, -, rfl⟩ := deleteBlock?_eq_some_iff.1 h
  rfl

theorem nextSerial_deleteBlock : g.nextSerial = f.nextSerial := by
  obtain ⟨gone, -, -, rfl⟩ := deleteBlock?_eq_some_iff.1 h
  rfl

/-- Only the neighbours of the deleted block lose edges. -/
theorem node?_deleteBlock (hu : u ≠ key) :
    g.node? u = (f.node? u).map fun n =>
      { n with
        successors := if u ∈ f.predecessors key then n.successors.filter (·.target ≠ key)
          else n.successors
        predecessors :=
          if (f.successors key).any (·.target = u) then n.predecessors.filter (· ≠ key)
          else n.predecessors } := by
  obtain ⟨gone, hgone, -, rfl⟩ := deleteBlock?_eq_some_iff.1 h
  have hp : (fun n : Node => decide (n.key ≠ key ∧ n.key = u)) = fun n => decide (n.key = u) := by
    funext n
    by_cases h : n.key = u <;> simp [h, hu]
  rw [predecessors_of_node? hgone, successors_of_node? hgone]
  simp only [node?, List.find?_map, List.find?_filter, Function.comp_def, Node.without,
    decide_eq_true_eq, hp]
  cases hn : f.nodes.find? (·.key = u) with
  | none => rfl
  | some n =>
      have hk : n.key = u := by simpa using List.find?_some hn
      simp [hk, key_of_node? hgone]

theorem block?_deleteBlock (hu : u ≠ key) : g.block? u = f.block? u := by
  rw [block?, node?_deleteBlock h hu, Option.map_map]
  rfl

theorem successors_deleteBlock (hu : u ≠ key) :
    g.successors u = if u ∈ f.predecessors key then (f.successors u).filter (·.target ≠ key)
      else f.successors u := by
  rw [successors, successors, node?_deleteBlock h hu]
  cases f.node? u <;> simp

theorem predecessors_deleteBlock (hu : u ≠ key) :
    g.predecessors u =
      if (f.successors key).any (·.target = u) then (f.predecessors u).filter (· ≠ key)
      else f.predecessors u := by
  rw [predecessors, predecessors, node?_deleteBlock h hu]
  cases f.node? u <;> simp

end deleteBlock

/-! ## Adding an edge -/

section connect

theorem connect_eq_ok_iff :
    f.connect src dst tag = .ok g ↔ src ∈ f.keys ∧ dst ∈ f.keys ∧
      (∀ e ∈ f.successors src, e.tag ≠ tag) ∧
      g = (f.update src fun n => { n with successors := n.successors ++ [⟨tag, dst⟩] }).update
        dst fun n => { n with predecessors := n.predecessors ++ [src] } := by
  cases hs : f.node? src with
  | none => simp [connect, hs, node?_eq_none_iff.mp hs]
  | some source =>
      cases ht : f.node? dst with
      | none => simp [connect, hs, ht, node?_eq_none_iff.mp ht]
      | some target =>
          simp only [connect, hs, ht, mem_keys_of_node? hs, mem_keys_of_node? ht,
            successors_of_node? hs, true_and]
          have hiff : source.successors.any (·.tag = tag) = false ↔
              ∀ e ∈ source.successors, e.tag ≠ tag := by simp
          rw [← hiff]
          cases source.successors.any (·.tag = tag) with
          | true => simp
          | false => simp only [Bool.false_eq_true, ↓reduceIte, Except.ok.injEq, true_and, eq_comm]

/-- Handles that do not resolve are refused before the tag is looked at. -/
theorem connect_of_not_mem (h : src ∉ f.keys ∨ dst ∉ f.keys) :
    f.connect src dst tag = .error (.undefinedBlock f.name) := by
  rcases h with h | h
  · simp [connect, node?_eq_none_iff.mpr h]
  · cases hs : f.node? src <;> simp [connect, hs, node?_eq_none_iff.mpr h]

theorem connect_of_tag_mem (hs : f.node? src = some n) (hd : dst ∈ f.keys)
    (he : e ∈ n.successors) (ht : e.tag = tag) :
    f.connect src dst tag = .error (.duplicateTag f.name n.block.name tag) := by
  obtain ⟨target, htarget⟩ := exists_node? hd
  have hany : n.successors.any (·.tag = tag) := List.any_eq_true.mpr ⟨e, he, decide_eq_true ht⟩
  simp only [connect, hs, htarget, hany, ↓reduceIte]

variable (h : f.connect src dst tag = .ok g)
include h

theorem keys_connect : g.keys = f.keys := by
  obtain ⟨-, -, -, rfl⟩ := connect_eq_ok_iff.1 h
  rw [keys_update, keys_update]
  · intro n; rfl
  · intro n; rfl

theorem blocks_connect : g.blocks = f.blocks := by
  obtain ⟨-, -, -, rfl⟩ := connect_eq_ok_iff.1 h
  rw [blocks_update, blocks_update]
  · intro n; exact ⟨rfl, rfl⟩
  · intro n; exact ⟨rfl, rfl⟩

theorem uid_connect : g.uid = f.uid := by
  obtain ⟨-, -, -, rfl⟩ := connect_eq_ok_iff.1 h
  rfl

theorem nextSerial_connect : g.nextSerial = f.nextSerial := by
  obtain ⟨-, -, -, rfl⟩ := connect_eq_ok_iff.1 h
  rfl

theorem node?_connect :
    g.node? u = (f.node? u).map fun n =>
      { n with
        successors := if u = src then n.successors ++ [⟨tag, dst⟩] else n.successors
        predecessors := if u = dst then n.predecessors ++ [src] else n.predecessors } := by
  obtain ⟨-, -, -, rfl⟩ := connect_eq_ok_iff.1 h
  rw [node?_update, node?_update, Option.map_map]
  · congr 1
    funext n
    simp only [Function.comp_apply]
    split <;> split <;> rfl
  · intro n; rfl
  · intro n; rfl

theorem block?_connect : g.block? u = f.block? u := by
  rw [block?, node?_connect h, Option.map_map]
  rfl

theorem successors_connect :
    g.successors u = if u = src then f.successors src ++ [⟨tag, dst⟩] else f.successors u := by
  obtain ⟨source, hs⟩ := exists_node? (connect_eq_ok_iff.1 h).1
  rw [successors, node?_connect h]
  by_cases hu : u = src
  · simp [hu, hs, successors]
  · cases hn : f.node? u <;> simp [hu, hn, successors]

theorem predecessors_connect :
    g.predecessors u = if u = dst then f.predecessors dst ++ [src] else f.predecessors u := by
  obtain ⟨target, hd⟩ := exists_node? (connect_eq_ok_iff.1 h).2.1
  rw [predecessors, node?_connect h]
  by_cases hu : u = dst
  · simp [hu, hd, predecessors]
  · cases hn : f.node? u <;> simp [hu, hn, predecessors]

end connect

/-! ## Removing an edge -/

section disconnect

theorem disconnect?_eq_some_iff :
    f.disconnect? src tag = some (e, g) ↔ (f.successors src).find? (·.tag = tag) = some e ∧
      g = (f.update src fun n => { n with successors := n.successors.eraseP (·.tag = tag) }).update
        e.target fun n => { n with predecessors := n.predecessors.erase src } := by
  cases hs : f.node? src with
  | none => simp [disconnect?, hs, successors]
  | some source =>
      cases he : source.successors.find? (·.tag = tag) with
      | none => simp [disconnect?, hs, he, successors]
      | some d =>
          simp only [disconnect?, hs, he, successors, Option.bind_eq_bind, Option.bind_some,
            Option.map_some, Option.getD_some, Option.pure_def, Option.some.injEq, Prod.mk.injEq]
          constructor
          · rintro ⟨rfl, rfl⟩
            exact ⟨rfl, rfl⟩
          · rintro ⟨rfl, rfl⟩
            exact ⟨rfl, rfl⟩

variable (h : f.disconnect? src tag = some (e, g))
include h

theorem keys_disconnect : g.keys = f.keys := by
  obtain ⟨-, rfl⟩ := disconnect?_eq_some_iff.1 h
  rw [keys_update, keys_update]
  · intro n; rfl
  · intro n; rfl

theorem blocks_disconnect : g.blocks = f.blocks := by
  obtain ⟨-, rfl⟩ := disconnect?_eq_some_iff.1 h
  rw [blocks_update, blocks_update]
  · intro n; exact ⟨rfl, rfl⟩
  · intro n; exact ⟨rfl, rfl⟩

theorem uid_disconnect : g.uid = f.uid := by
  obtain ⟨-, rfl⟩ := disconnect?_eq_some_iff.1 h
  rfl

theorem nextSerial_disconnect : g.nextSerial = f.nextSerial := by
  obtain ⟨-, rfl⟩ := disconnect?_eq_some_iff.1 h
  rfl

theorem node?_disconnect :
    g.node? u = (f.node? u).map fun n =>
      { n with
        successors := if u = src then n.successors.eraseP (·.tag = tag) else n.successors
        predecessors := if u = e.target then n.predecessors.erase src else n.predecessors } := by
  obtain ⟨-, rfl⟩ := disconnect?_eq_some_iff.1 h
  rw [node?_update, node?_update, Option.map_map]
  · congr 1
    funext n
    simp only [Function.comp_apply]
    split <;> split <;> rfl
  · intro n; rfl
  · intro n; rfl

theorem block?_disconnect : g.block? u = f.block? u := by
  rw [block?, node?_disconnect h, Option.map_map]
  rfl

theorem successors_disconnect :
    g.successors u = if u = src then (f.successors src).eraseP (·.tag = tag)
      else f.successors u := by
  rw [successors, node?_disconnect h]
  by_cases hu : u = src
  · subst hu
    cases hn : f.node? u <;> simp [hn, successors]
  · cases hn : f.node? u <;> simp [hu, hn, successors]

theorem predecessors_disconnect :
    g.predecessors u = if u = e.target then (f.predecessors u).erase src
      else f.predecessors u := by
  rw [predecessors, node?_disconnect h]
  cases hn : f.node? u with
  | none => simp [predecessors, hn]
  | some n => simp only [predecessors, hn, Option.map_some, Option.getD_some]

end disconnect

/-! ## Changing a block -/

section editBlock

variable {change : BlockEdit}

theorem editBlock?_eq_some_iff :
    f.editBlock? key change = some g ↔ key ∈ f.keys ∧
      g = f.update key fun n => { n with block := n.block.edit change } := by
  cases hn : f.node? key with
  | none => simp [editBlock?, hn, node?_eq_none_iff.mp hn]
  | some n => simp [editBlock?, hn, mem_keys_of_node? hn, eq_comm]

variable (h : f.editBlock? key change = some g)
include h

theorem keys_editBlock : g.keys = f.keys := by
  obtain ⟨-, rfl⟩ := editBlock?_eq_some_iff.1 h
  rw [keys_update]
  intro n; rfl

theorem blocks_editBlock :
    g.blocks = f.blocks.map fun p => if p.1 = key then (p.1, p.2.edit change) else p := by
  obtain ⟨-, rfl⟩ := editBlock?_eq_some_iff.1 h
  simp only [blocks, update, List.map_map]
  refine List.map_congr_left fun n _ => ?_
  by_cases hn : n.key = key <;> simp [hn]

theorem uid_editBlock : g.uid = f.uid := by
  obtain ⟨-, rfl⟩ := editBlock?_eq_some_iff.1 h
  rfl

theorem nextSerial_editBlock : g.nextSerial = f.nextSerial := by
  obtain ⟨-, rfl⟩ := editBlock?_eq_some_iff.1 h
  rfl

theorem node?_editBlock :
    g.node? u = (f.node? u).map fun n =>
      if u = key then { n with block := n.block.edit change } else n := by
  obtain ⟨-, rfl⟩ := editBlock?_eq_some_iff.1 h
  rw [node?_update]
  intro n; rfl

theorem block?_editBlock :
    g.block? u = (f.block? u).map fun b => if u = key then b.edit change else b := by
  rw [block?, node?_editBlock h, Option.map_map, block?, Option.map_map]
  congr 1
  funext n
  by_cases hu : u = key <;> simp [hu]

theorem successors_editBlock : g.successors u = f.successors u := by
  rw [successors, successors, node?_editBlock h]
  by_cases hu : u = key <;> cases f.node? u <;> simp [hu]

theorem predecessors_editBlock : g.predecessors u = f.predecessors u := by
  rw [predecessors, predecessors, node?_editBlock h]
  by_cases hu : u = key <;> cases f.node? u <;> simp [hu]

end editBlock

end FlowGraph.Function
