import FlowGraph.Proofs.Module.Apart
import FlowGraph.Proofs.Store.Histories
import FlowGraph.Store.Module

/-!
Modules and functions that are kept in slots. Whatever is done to them and whatever is asked, every
lookup that has to succeed does: no history panics and no question does.
-/
namespace FlowGraph

/-- The handles in creation order are those of the filled slots, and what is in them are functions
of this module whose own slots belong together. -/
structure ModuleStore.Coherent (s : ModuleStore) : Prop where
  order_nodup : s.order.Nodup
  functions_iff : ∀ key, (s.function? key).isSome ↔ key ∈ s.order
  function : ∀ key f, s.function? key = some f → f.Coherent ∧ f.owner = s.uid

namespace Module

variable {m n : Module} {f g : Function} {x : Member} {key k : FunctionKey} {uid : Uid}
  {name source : String}

/-! ## Functions and handles -/

theorem function?_of_mem (hd : m.keys.Nodup) (hx : x ∈ m.members) :
    m.function? x.key = some x.function := by
  obtain ⟨before, after, hsplit⟩ := List.append_of_mem hx
  exact function?_of_split hd hsplit

theorem function?_deleteFunction (hd : m.deleteFunction? key = some (f, n)) (k : FunctionKey) :
    n.function? k = if k = key then none else m.function? k := by
  obtain ⟨_, -, heq⟩ := Option.bind_eq_some_iff.mp hd
  obtain ⟨-, rfl⟩ := Prod.mk.inj (Option.some.inj heq)
  by_cases hk : k = key
  · subst hk
    simp [function?]
  · have hp : (fun x : Member => decide (x.key ≠ key ∧ x.key = k)) =
        fun x => decide (x.key = k) := by
      funext x
      by_cases hx : x.key = k <;> simp [hx, hk]
    simp only [hk, if_false, function?, List.find?_filter, decide_eq_true_eq, hp]

theorem keys_replace (m : Module) (key : FunctionKey) (g : Function) :
    (m.replace key g).keys = m.keys := by
  simp only [keys, replace, List.map_map]
  refine List.map_congr_left fun x _ => ?_
  by_cases hx : x.key = key <;> simp [hx]

theorem function?_replace (m : Module) (key k : FunctionKey) (g : Function) :
    (m.replace key g).function? k =
      (m.function? k).map fun f => if k = key then g else f := by
  have hkey : ∀ x : Member, (if x.key = key then { x with function := g } else x).key = x.key := by
    intro x
    split <;> rfl
  simp only [function?, replace, List.find?_map, Function.comp_def, hkey]
  cases hx : m.members.find? (·.key = k) with
  | none => rfl
  | some x =>
      obtain rfl : x.key = k := by simpa using List.find?_some hx
      by_cases hk : x.key = key <;> simp [hk]

theorem Reachable.apart (h : m.Reachable) : m.Apart := by
  obtain ⟨uid, name, history, rfl⟩ := h
  exact ((Ledger.empty uid name).run history).apart

/-! ## Slots -/

/-- The functions in their slots. -/
def slots (m : Module) : Slots FunctionStore :=
  ⟨(List.range m.nextSerial).map fun i => (m.function? ⟨i⟩).map (·.store)⟩

/-- The module in its slots. -/
def store (m : Module) : ModuleStore where
  uid := m.uid
  name := m.name
  functions := m.slots
  order := m.keys

@[simp] theorem order_store (m : Module) : m.store.order = m.keys := rfl

@[simp] theorem size_slots (m : Module) : m.slots.size = m.nextSerial := by
  simp [slots, Slots.size]

theorem Minted.get?_slots (h : m.Minted) (key : FunctionKey) :
    m.slots.get? key.serial = (m.function? key).map (·.store) := by
  by_cases hi : key.serial < m.nextSerial
  · simp [slots, Slots.get?, hi]
  · have hnone : m.function? key = none := by
      rw [function?_eq_none_iff, keys, List.mem_map]
      rintro ⟨x, hx, rfl⟩
      exact hi (h x hx)
    simp [slots, Slots.get?, hi, hnone]

theorem Minted.store_function? (h : m.Minted) (key : FunctionKey) :
    m.store.function? key = (m.function? key).map (·.store) :=
  h.get?_slots key

theorem store_lastFunction? (m : Module) : m.store.lastFunction? = m.lastFunction? :=
  List.getLast?_map

theorem Minted.fetch_functions (h : m.Minted) (hf : m.function? key = some f) :
    m.store.functions.fetch key.serial = pure f.store :=
  Slots.fetch_eq_ok (by rw [store, h.get?_slots, hf, Option.map_some])

theorem Reachable.fetch_functions (h : m.Reachable) (hx : x ∈ m.members) :
    m.store.functions.fetch x.key.serial = pure x.function.store :=
  h.minted.fetch_functions (function?_of_mem h.apart.keys_nodup hx)

theorem Reachable.wired (h : m.Reachable) (hx : x ∈ m.members) : x.function.Wired :=
  (h.function hx).wired

theorem Reachable.wired_of_function? (h : m.Reachable) (hf : m.function? key = some f) :
    f.Wired := by
  obtain ⟨x, hx, rfl⟩ := Option.map_eq_some_iff.mp hf
  exact h.wired (List.mem_of_find?_eq_some hx)

/-! ## Edits -/

theorem store_push (h : m.Minted) (f : Function) :
    (m.push f).store =
      { m.store with
        functions := m.slots.put m.nextSerial f.store
        order := m.keys ++ [⟨m.nextSerial⟩] } := by
  refine ModuleStore.ext rfl rfl (Slots.ext_get? ?_ fun i => ?_) (by simp [store, keys, push])
  · simp [store, push]
  · rw [store, (h.push f).get?_slots ⟨i⟩, Slots.get?_put, h.get?_slots ⟨i⟩]
    by_cases hi : i = m.nextSerial
    · subst hi
      rw [h.function?_push, if_pos rfl, Option.map_some]
    · rw [function?_push_of_ne (by simpa using hi), if_neg hi]

theorem store_createFunction (h : m.Minted) (uid : Uid) (name : String) :
    m.store.createFunction uid name =
      pure ((m.createFunction uid name).1.store, (m.createFunction uid name).2) := by
  rw [ModuleStore.createFunction, Slots.fetch_eq_ok (Slots.get?_put.trans (if_pos rfl)),
    createFunction_eq, store_push h]
  simp only [store, size_slots]
  rfl

theorem store_of_deleteFunction (h : m.Minted) (hd : m.deleteFunction? key = some (f, n)) :
    n.store =
      { m.store with
        functions := m.store.functions.clear key.serial
        order := m.store.order.filter (· ≠ key) } := by
  have hget := function?_deleteFunction hd
  have hn := h.deleteFunction hd
  obtain ⟨_, -, heq⟩ := Option.bind_eq_some_iff.mp hd
  obtain ⟨-, rfl⟩ := Prod.mk.inj (Option.some.inj heq)
  refine ModuleStore.ext rfl rfl (Slots.ext_get? (by simp [store]) fun i => ?_) ?_
  · rw [store, hn.get?_slots ⟨i⟩, hget, store, Slots.get?_clear, h.get?_slots ⟨i⟩]
    by_cases hi : i = key.serial
    · subst hi
      simp
    · have hne : (⟨i⟩ : FunctionKey) ≠ key := by
        rintro rfl
        exact hi rfl
      simp [hi, hne]
  · simp [store, keys, List.filter_map, Function.comp_def]

theorem store_deleteFunction? (h : m.Minted) (key : FunctionKey) :
    m.store.deleteFunction? key = (m.deleteFunction? key).map fun (f, n) => (f.store, n.store) := by
  rw [ModuleStore.deleteFunction?, h.store_function?]
  cases hf : m.function? key with
  | none => simp [deleteFunction?, hf]
  | some f =>
      obtain ⟨n, hd⟩ : ∃ n, m.deleteFunction? key = some (f, n) := by simp [deleteFunction?, hf]
      simp only [hd, Option.map_some, Option.bind_eq_bind, Option.bind_some, Option.pure_def,
        store_of_deleteFunction h hd]

theorem store_functionNamed? (h : m.Reachable) (name : String) :
    m.store.functionNamed? name = pure (m.functionNamed? name) := by
  refine findSomeM?_map_eq_pure fun x hx => ?_
  by_cases hname : x.function.name = name <;>
    simp [h.fetch_functions hx, hname]

theorem store_deleteFunctionNamed? (h : m.Reachable) (name : String) :
    m.store.deleteFunctionNamed? name =
      pure ((m.deleteFunctionNamed? name).map fun (f, n) => (f.store, n.store)) := by
  rw [ModuleStore.deleteFunctionNamed?, store_functionNamed? h, pure_bind, deleteFunctionNamed?]
  cases m.functionNamed? name with
  | none => rfl
  | some key => exact congrArg pure (store_deleteFunction? h.minted key)

theorem store_replace (h : m.Minted) (hf : m.function? key = some f) (g : Function) :
    (m.replace key g).store = m.store.replace key g.store := by
  refine ModuleStore.ext rfl rfl (Slots.ext_get? ?_ fun i => ?_) (keys_replace m key g)
  · have hlt : key.serial < m.nextSerial := by
      by_contra hge
      have hnone := h.get?_slots key
      simp [hf, slots, Slots.get?, hge] at hnone
    rw [store, ModuleStore.replace, store, Slots.size_put, size_slots, size_slots]
    exact (Nat.max_eq_left hlt).symm
  · rw [store, ModuleStore.replace, store, (h.replace key g).get?_slots ⟨i⟩, function?_replace,
      Slots.get?_put, h.get?_slots ⟨i⟩]
    by_cases hi : i = key.serial
    · subst hi
      simp [hf]
    · have hne : (⟨i⟩ : FunctionKey) ≠ key := by
        rintro rfl
        exact hi rfl
      simp [hi, hne]

theorem store_load (h : m.Minted) (uid : Uid) (source : String) :
    ∃ loading, m.load uid source = .ok loading ∧
      m.store.load uid source = pure (loading.module.store, loading.outcome) := by
  cases hread : Dot.Graph.read source with
  | error e =>
      refine ⟨_, load_of_read_error hread, ?_⟩
      rw [ModuleStore.load, hread]
  | ok graph =>
      have hcreate : m.store.createFunction uid graph.name =
          pure ((m.push (.empty uid graph.name m.uid)).store, ⟨m.nextSerial⟩) :=
        store_createFunction h uid graph.name
      cases hbuild : graph.populate (.empty uid graph.name m.uid) with
      | mk b failure =>
          have hpopulate := (Function.Wired.empty uid graph.name m.uid).store_populate graph
          rw [hbuild] at hpopulate
          have hreplace : (m.push (.empty uid graph.name m.uid)).store.replace ⟨m.nextSerial⟩
              b.function.store = (m.push b.function).store := by
            rw [← store_replace (h.push _) (h.function?_push _), h.replace_push]
          rw [ModuleStore.load, hread]
          simp only [hcreate, pure_bind, (h.push _).fetch_functions (h.function?_push _), hpopulate,
            hreplace]
          cases failure with
          | none => exact ⟨_, h.load_of_built hread hbuild, rfl⟩
          | some e =>
              refine ⟨_, h.load_of_refused hread hbuild, ?_⟩
              simp only [store_deleteFunction? (h.push _), h.deleteFunction?_push, Option.map_some,
                Option.getD_some]

theorem store_apply (h : m.Reachable) (e : Edit) : m.store.apply e = pure (m.apply e).store := by
  cases e with
  | create uid name =>
      rw [ModuleStore.apply, store_createFunction h.minted, pure_bind]
      rfl
  | delete key =>
      rw [ModuleStore.apply, store_deleteFunction? h.minted, Module.apply]
      cases m.deleteFunction? key <;> rfl
  | deleteNamed name =>
      rw [ModuleStore.apply, store_deleteFunctionNamed? h, pure_bind, Module.apply]
      cases m.deleteFunctionNamed? name <;> rfl
  | load uid source =>
      obtain ⟨loading, hload, hstore⟩ := store_load h.minted uid source
      rw [ModuleStore.apply, hstore, pure_bind, Module.apply, hload]
  | edit key e =>
      rw [ModuleStore.apply, Module.apply, h.minted.store_function?]
      cases hf : m.function? key with
      | none => rfl
      | some f =>
          simp only [Option.map_some, (h.wired_of_function? hf).store_apply, pure_bind]
          rw [← store_replace h.minted hf]
          rfl

theorem store_run (h : m.Reachable) (history : List Edit) :
    m.store.run history = pure (m.run history).store := by
  induction history generalizing m with
  | nil => rfl
  | cons e history ih =>
      rw [ModuleStore.run, store_apply h, pure_bind]
      exact ih (h.apply e)

theorem Reachable.coherent_store (h : m.Reachable) : m.store.Coherent where
  order_nodup := h.apart.keys_nodup
  functions_iff key := by
    rw [h.minted.store_function?, Option.isSome_map, Option.isSome_iff_ne_none, ne_eq,
      function?_eq_none_iff, not_not, order_store]
  function key s hs := by
    rw [h.minted.store_function?] at hs
    obtain ⟨f, hf, rfl⟩ := Option.map_eq_some_iff.mp hs
    obtain ⟨x, hx, rfl⟩ := Option.map_eq_some_iff.mp hf
    have hmem := List.mem_of_find?_eq_some hx
    exact ⟨(h.wired hmem).coherent_store, h.apart.owner_eq x hmem⟩

/-! ## Questions -/

theorem store_members (h : m.Reachable) :
    m.store.members = pure (m.members.map fun x => (x.key, x.function.store)) := by
  rw [ModuleStore.members, order_store, keys, List.mapM_map]
  exact mapM_eq_pure fun x hx => by simp [h.fetch_functions hx]

/-- The functions are checked one by one, and none of them keeps the next from being checked. -/
theorem store_inspectAll (h : m.Reachable) :
    ∃ i : Member → Inspection,
      (∀ x ∈ m.members, x.function.inspect = .ok (i x)) ∧
      m.inspectAll = .ok (m.members.map fun x => (x.key, i x)) ∧
      m.store.inspectAll =
        pure (m.members.map fun x => (x.key, x.function.tour (i x), (i x).defect)) := by
  have : Inhabited Inspection := ⟨{}⟩
  choose! i hi hstore using fun x (hx : x ∈ m.members) => (h.wired hx).store_inspect
  refine ⟨i, hi, ?_, ?_⟩
  · exact mapM_eq_pure fun x hx => by rw [hi x hx]; rfl
  · rw [ModuleStore.inspectAll, store_members h, pure_bind, List.mapM_map]
    exact mapM_eq_pure fun x hx => by simp [hstore x hx]

theorem store_dump (h : m.Reachable) : m.store.dump = pure m.dump := by
  rw [ModuleStore.dump, store_members h, pure_bind, List.mapM_map,
    mapM_eq_pure (h := fun x => x.function.dump)]
  · rfl
  · exact fun x hx => (h.wired hx).store_dump

theorem store_dot (h : m.Reachable) (hs : ∀ x ∈ m.members, x.function.size < 2 ^ 31)
    (style : Dot.Style) : ∃ text, m.dot style = .ok text ∧ m.store.dot style = pure text := by
  have hmem : ∀ p ∈ m.members.zipIdx, p.1 ∈ m.members := fun p hp =>
    List.mem_of_getElem? (List.mem_zipIdx_iff_getElem?.mp hp)
  choose! t ht hstore using fun p (hp : p ∈ m.members.zipIdx) =>
    (h.wired (hmem p hp)).store_dotCluster (hs p.1 (hmem p hp)) style p.2
  refine ⟨_, by rw [dot, mapM_eq_pure ht]; rfl, ?_⟩
  rw [ModuleStore.dot, store_members h, pure_bind, List.zipIdx_map, List.mapM_map,
    mapM_eq_pure (h := t)]
  · rfl
  · exact hstore

end Module

/-- No history tears the slots of a module apart, nor those of a function in it. -/
theorem ModuleStore.coherent_run (uid : Uid) (name : String) (history : List Module.Edit) :
    ∃ s, (ModuleStore.empty uid name).run history = pure s ∧ s.Coherent :=
  ⟨_, Module.store_run ⟨uid, name, [], rfl⟩ history,
    Module.Reachable.coherent_store ⟨uid, name, history, rfl⟩⟩

/-- Every question that is asked of the slots of a module is answered, and as the module itself
answers it. -/
structure Module.Answered (m : Module) : Prop where
  function? : ∀ key, m.store.function? key = (m.function? key).map (·.store)
  lastFunction? : m.store.lastFunction? = m.lastFunction?
  members : m.store.members = pure (m.members.map fun x => (x.key, x.function.store))
  functionNamed? : ∀ name, m.store.functionNamed? name = pure (m.functionNamed? name)
  functions : ∀ x ∈ m.members, x.function.Answered
  inspectAll : ∃ i : Member → Inspection,
    (∀ x ∈ m.members, x.function.inspect = .ok (i x)) ∧
    m.inspectAll = .ok (m.members.map fun x => (x.key, i x)) ∧
    m.store.inspectAll =
      pure (m.members.map fun x => (x.key, x.function.tour (i x), (i x).defect))
  dump : m.store.dump = pure m.dump
  dot : (∀ x ∈ m.members, x.function.size < 2 ^ 31) → ∀ style, ∃ text,
    m.dot style = .ok text ∧ m.store.dot style = pure text

theorem Module.Reachable.answered {m : Module} (h : m.Reachable) : m.Answered where
  function? := h.minted.store_function?
  lastFunction? := store_lastFunction? m
  members := store_members h
  functionNamed? := store_functionNamed? h
  functions _ hx := (h.wired hx).answered
  inspectAll := store_inspectAll h
  dump := store_dump h
  dot := store_dot h

/-- No lookup panics. Every history of a function or of a module runs through in the slots, with
whatever handles, deletions and failed loads, and every question that is asked afterwards is
answered; numbers behind the names of blocks need fewer than `2 ^ 31` blocks. -/
theorem every_lookup_succeeds :
    (∀ uid name owner history,
      (FunctionStore.empty uid name owner).run history =
        pure ((Function.empty uid name owner).run history).store ∧
      ((Function.empty uid name owner).run history).Answered) ∧
    ∀ uid name history,
      (ModuleStore.empty uid name).run history =
        pure ((Module.empty uid name).run history).store ∧
      ((Module.empty uid name).run history).Answered := by
  refine ⟨fun uid name owner history => ?_, fun uid name history => ?_⟩
  · have h := Function.Wired.empty uid name owner
    exact ⟨h.store_run history, (Function.Wired.kept.run h history).answered⟩
  · have h : (Module.empty uid name).Reachable := ⟨uid, name, [], rfl⟩
    exact ⟨Module.store_run h history, Module.Reachable.answered ⟨uid, name, history, rfl⟩⟩

/-- The slots alone promise nothing: a handle whose slot is empty stops every check. -/
example :
    let s : FunctionStore := { uid := ⟨1⟩, name := "f", owner := ⟨0⟩, order := [⟨⟨1⟩, 0⟩] }
    s.blocks = throw .emptySlot ∧ s.inspect = throw .emptySlot ∧ s.dotIds = throw .emptySlot :=
  ⟨rfl, rfl, rfl⟩

end FlowGraph
