import FlowGraph.Proofs.Dot.Layout

/-!
How blocks are called in the export. A block is called by its name, or by its name and the least
number that is free, and what comes behind a block has no say.
-/
namespace FlowGraph

namespace Dot

variable {taken earlier : List String} {name : String} {ns : List Node} {n : Node} {i : Nat}

/-- The id of a block of that name behind blocks with the ids `earlier`. No number is larger than
there are earlier blocks. -/
inductive Called (earlier : List String) (name : String) : String → Prop where
  | byName : name ∉ earlier → Called earlier name name
  | byNumber (n : Nat) : name ∈ earlier → 1 ≤ n → n ≤ earlier.length →
      name ++ "." ++ toString n ∉ earlier →
      (∀ k, 1 ≤ k → k < n → name ++ "." ++ toString k ∈ earlier) →
      Called earlier name (name ++ "." ++ toString n)

/-- A candidate that is taken is passed over, and striking it out changes nothing. -/
theorem freshId_eq (taken : List String) (name : String) (n : Nat) :
    freshId taken name n =
      if candidate name n ∈ taken then freshId taken name (n + 1) else candidate name n := by
  split
  · next hmem =>
      obtain ⟨m, hnm, heq, hfree, hbefore⟩ := freshId_spec taken name n
      obtain ⟨m', hnm', heq', hfree', hbefore'⟩ := freshId_spec taken name (n + 1)
      have hne : m ≠ n := fun h => hfree (h ▸ hmem)
      rw [heq, heq']
      -- Both searches stop at the least free candidate behind `n`.
      rcases Nat.lt_trichotomy m m' with hlt | rfl | hlt
      · exact absurd (hbefore' m (by omega) hlt) hfree
      · rfl
      · exact absurd (hbefore m' (by omega) hlt) hfree'
  · next hfree => rw [freshId, if_neg hfree]

/-- As many candidates are taken as there are ids, at most. -/
theorem le_length_of_taken {m : Nat} (h : ∀ k < m, candidate name k ∈ taken) :
    m ≤ taken.length := by
  have hnodup : ((List.range m).map (candidate name)).Nodup :=
    List.nodup_range.map fun _ _ => candidate_inj
  have hsub : (List.range m).map (candidate name) ⊆ taken := by
    intro id hid
    obtain ⟨k, hk, rfl⟩ := List.mem_map.mp hid
    exact h k (List.mem_range.mp hk)
  simpa using (hnodup.subperm hsub).length_le

theorem called_freshId (earlier : List String) (name : String) :
    Called earlier name (freshId earlier name 0) := by
  obtain ⟨m, -, heq, hfree, hbefore⟩ := freshId_spec earlier name 0
  have hbound := le_length_of_taken fun k hk => hbefore k (Nat.zero_le k) hk
  rw [heq]
  cases m with
  | zero => exact .byName hfree
  | succ m =>
      refine .byNumber (m + 1) (hbefore 0 (Nat.le_refl 0) (Nat.succ_pos m)) (Nat.succ_pos m) hbound
        hfree fun k hk hkm => ?_
      obtain ⟨k, rfl⟩ := Nat.exists_eq_add_of_le' hk
      exact hbefore (k + 1) (Nat.zero_le _) hkm

/-! ## One id after the other -/

theorem distinctIds_append (taken : List String) (ns ms : List Node) :
    distinctIds taken (ns ++ ms) =
      distinctIds taken ns ++ distinctIds (taken ++ (distinctIds taken ns).map (·.2)) ms := by
  induction ns generalizing taken with
  | nil => simp [distinctIds]
  | cons n ns ih => simp [distinctIds, ih]

theorem take_distinctIds (taken : List String) (ns : List Node) (i : Nat) :
    (distinctIds taken ns).take i = distinctIds taken (ns.take i) := by
  induction ns generalizing taken i with
  | nil => simp [distinctIds]
  | cons n ns ih =>
      cases i with
      | zero => rfl
      | succ i => simp [distinctIds, ih]

theorem getElem?_distinctIds (taken : List String) (h : ns[i]? = some n) :
    (distinctIds taken ns)[i]? = some (n.key,
      freshId (taken ++ ((distinctIds taken ns).take i).map (·.2)) n.block.name 0) := by
  induction ns generalizing taken i with
  | nil => simp at h
  | cons m ns ih =>
      cases i with
      | zero =>
          obtain rfl : m = n := by simpa using h
          simp [distinctIds]
      | succ i => simpa [distinctIds] using ih (taken ++ [freshId taken m.block.name 0]) h

end Dot

namespace Function

variable {f g : Function} {name : String} {i : Nat}

theorem exists_dotId_called {key : BlockKey} {b : Block} (h : f.blocks[i]? = some (key, b)) :
    ∃ id, f.dotIds[i]? = some (key, id) ∧
      Dot.Called ((f.dotIds.take i).map (·.2)) b.name id := by
  rw [blocks, List.getElem?_map] at h
  obtain ⟨n, hn, heq⟩ := Option.map_eq_some_iff.mp h
  obtain ⟨rfl, rfl⟩ := Prod.mk.inj heq
  have hid := Dot.getElem?_distinctIds [] hn
  rw [List.nil_append] at hid
  exact ⟨_, hid, Dot.called_freshId _ _⟩

/-- Blocks that begin alike have ids that begin alike. -/
theorem take_dotIds_eq (h : g.labels.take i = f.labels.take i) :
    g.dotIds.take i = f.dotIds.take i := by
  rw [labels, labels, ← List.map_take, ← List.map_take] at h
  have hsame : Dot.distinctIds [] (g.nodes.take i) =
      (Dot.distinctIds [] (f.nodes.take i)).map fun p => (id p.1, p.2) :=
    Dot.distinctIds_rename h
  rw [dotIds, dotIds, Dot.take_distinctIds, Dot.take_distinctIds, hsame]
  exact List.map_id _

theorem exists_dotIds_createBlock (f : Function) (name : String) :
    ∃ id, (f.createBlock name).1.dotIds = f.dotIds ++ [((f.createBlock name).2, id)] := by
  refine ⟨Dot.freshId (f.dotIds.map (·.2)) name 0, ?_⟩
  simp [dotIds, createBlock, Dot.distinctIds_append, Dot.distinctIds]

/-- The ids in the export. -/
structure CallsApart (f : Function) : Prop where
  keys_eq : f.dotIds.map (·.1) = f.keys
  keys_nodup : f.keys.Nodup
  ids_nodup : (f.dotIds.map (·.2)).Nodup
  called : ∀ i key b, f.blocks[i]? = some (key, b) → ∃ id, f.dotIds[i]? = some (key, id) ∧
    Dot.Called ((f.dotIds.take i).map (·.2)) b.name id
  take_eq : ∀ (g : Function) i, g.labels.take i = f.labels.take i →
    g.dotIds.take i = f.dotIds.take i
  grown : ∀ name, ∃ id,
    (f.createBlock name).1.dotIds = f.dotIds ++ [((f.createBlock name).2, id)]

/-- Every block has an id of its own, which is the first of its candidates that no earlier block
has. It depends on the names of these blocks only, so a block that is created later changes no id. -/
theorem dotIds_apart (h : f.Reachable) : f.CallsApart where
  keys_eq := Dot.map_fst_distinctIds [] f.nodes
  keys_nodup := h.wired.nodup
  ids_nodup := Dot.nodup_append_distinctIds f.nodes List.nodup_nil
  called _ _ _ hb := exists_dotId_called hb
  take_eq _ _ hg := take_dotIds_eq hg
  grown := exists_dotIds_createBlock f

/-- A block has the name that the second of two blocks of one name would be called by. -/
theorem dotIds_apart_taken :
    let f := (empty ⟨1⟩ "f" ⟨0⟩).run
      [.create "x", .create "a", .create "a.1", .delete ⟨⟨1⟩, 0⟩, .create "a", .create "a.1",
        .create "a", .create ""]
    f.Reachable ∧ f.dotIds.map (·.2) = ["a", "a.1", "a.2", "a.1.1", "a.3", ""] ∧ f.CallsApart := by
  intro f
  have hf : f.Reachable := ⟨_, _, _, _, rfl⟩
  exact ⟨hf, by decide +kernel, dotIds_apart hf⟩

end Function

end FlowGraph
