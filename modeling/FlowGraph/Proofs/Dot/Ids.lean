import FlowGraph.Dot.Export
import FlowGraph.Proofs.Function.Consistent
import FlowGraph.Proofs.Lookup

/-!
The ids of an exported function. Every block gets the first of its candidates that no earlier block
has, so the ids differ, and no lookup in the export faults.
-/
namespace FlowGraph

namespace Dot

variable {taken : List String} {name : String} {n m : Nat}

/-! ## Candidates -/

/-- No two candidates are the same. -/
theorem candidate_inj (h : candidate name n = candidate name m) : n = m := by
  have hlong : ∀ k, candidate name (k + 1) ≠ name := by
    intro k hk
    have hlength := congrArg String.length hk
    have hdot : ".".length = 1 := rfl
    simp only [candidate, String.length_append, hdot] at hlength
    omega
  cases n with
  | zero =>
      cases m with
      | zero => rfl
      | succ m => exact absurd h.symm (hlong m)
  | succ n =>
      cases m with
      | zero => exact absurd h (hlong n)
      | succ m =>
          have hrepr : toString (n + 1) = toString (m + 1) := by
            simpa [candidate, String.append_assoc] using h
          exact Nat.repr_inj.mp hrepr

/-- The first candidate from `n` on that is not taken. -/
theorem freshId_spec (taken : List String) (name : String) (n : Nat) :
    ∃ m, n ≤ m ∧ freshId taken name n = candidate name m ∧ candidate name m ∉ taken ∧
      ∀ k, n ≤ k → k < m → candidate name k ∈ taken := by
  induction taken, n using freshId.induct name with
  | case1 taken n id hmem ih =>
      obtain ⟨m, hnm, heq, hfree, hbefore⟩ := ih
      -- A candidate that is struck out is none of the later ones.
      have hne : candidate name m ≠ id := fun h => by
        have := candidate_inj h
        omega
      refine ⟨m, by omega, ?_, ?_, ?_⟩
      · rw [freshId, if_pos hmem]
        exact heq
      · rwa [List.mem_erase_of_ne hne] at hfree
      · intro k hk hkm
        rcases Nat.eq_or_lt_of_le hk with rfl | hk
        · exact hmem
        · exact List.mem_of_mem_erase (hbefore k hk hkm)
  | case2 taken n id hmem =>
      refine ⟨n, Nat.le_refl n, ?_, hmem, fun k hk hkn => absurd hkn (Nat.not_lt.mpr hk)⟩
      rw [freshId, if_neg hmem]

theorem freshId_not_mem (taken : List String) (name : String) (n : Nat) :
    freshId taken name n ∉ taken := by
  obtain ⟨m, -, heq, hfree, -⟩ := freshId_spec taken name n
  rwa [heq]

/-! ## The ids of a list of nodes -/

theorem map_fst_distinctIds (taken : List String) (ns : List Node) :
    (distinctIds taken ns).map (·.1) = ns.map (·.key) := by
  induction ns generalizing taken with
  | nil => rfl
  | cons n ns ih => simp [distinctIds, ih]

/-- Ids are taken one after the other, and each of them only once. -/
theorem nodup_append_distinctIds (ns : List Node) (h : taken.Nodup) :
    (taken ++ (distinctIds taken ns).map (·.2)).Nodup := by
  induction ns generalizing taken with
  | nil => simpa [distinctIds] using h
  | cons n ns ih =>
      have hfresh := freshId_not_mem taken n.block.name 0
      have hnext : (taken ++ [freshId taken n.block.name 0]).Nodup :=
        List.nodup_append_comm.mp (List.nodup_cons.mpr ⟨hfresh, h⟩)
      simpa [distinctIds, List.append_assoc] using ih hnext

end Dot

/-! ## Checked maps -/

theorem mapM_eq_pure {m : Type → Type} [Monad m] [LawfulMonad m] {α β : Type} {l : List α}
    {k : α → m β} {h : α → β} (hk : ∀ a ∈ l, k a = pure (h a)) : l.mapM k = pure (l.map h) := by
  induction l with
  | nil => rfl
  | cons a l ih =>
      rw [List.mapM_cons, hk a List.mem_cons_self, pure_bind,
        ih fun b hb => hk b (List.mem_cons_of_mem a hb), pure_bind, List.map_cons]

namespace Function

variable {f : Function} {key u v : BlockKey} {style : Dot.Style} {lead : String}

/-- The id of a block in the export. -/
def dotId (f : Function) (key : BlockKey) : String := (f.dotIds.lookup key).getD ""

namespace Wired

theorem map_dotId (h : f.Wired) : f.keys.map f.dotId = f.dotIds.map (·.2) := by
  have hkeys : f.dotIds.map (·.1) = f.keys := Dot.map_fst_distinctIds [] f.nodes
  rw [← hkeys, List.map_map]
  refine List.map_congr_left fun p hp => ?_
  have hlookup := lookup_of_mem (hkeys ▸ h.nodup) hp
  simp [dotId, hlookup]

/-- Different blocks have different ids. -/
theorem nodup_map_dotId (h : f.Wired) : (f.keys.map f.dotId).Nodup := by
  rw [h.map_dotId]
  exact Dot.nodup_append_distinctIds f.nodes List.nodup_nil

theorem dotId_inj (h : f.Wired) (hu : u ∈ f.keys) (hv : v ∈ f.keys)
    (he : f.dotId u = f.dotId v) : u = v :=
  List.inj_on_of_nodup_map h.nodup_map_dotId hu hv he

theorem lookup_dotIds (hkey : key ∈ f.keys) : f.dotIds.lookup key = some (f.dotId key) := by
  have hkeys : f.dotIds.map (·.1) = f.keys := Dot.map_fst_distinctIds [] f.nodes
  cases hl : f.dotIds.lookup key with
  | some id => simp [dotId, hl]
  | none =>
      rw [← hkeys] at hkey
      exact absurd hkey (not_mem_of_lookup hl)

theorem idOf_eq_ok (hkey : key ∈ f.keys) : Dot.idOf f.dotIds key = .ok (f.dotId key) := by
  simp [Dot.idOf, lookup_dotIds hkey]

end Wired

/-! ## The statements of the export -/

/-- The statements for the blocks and then for the edges. -/
def dotStatements (f : Function) (style : Dot.Style) (lead : String) : List Dot.Statement :=
  (f.nodes.map fun n => n.block.dotNode (lead ++ f.dotId n.key) style) ++
    f.edges.map fun p => p.2.dotEdge (lead ++ f.dotId p.1) (lead ++ f.dotId p.2.target) style

/-- Every handle that the export looks up is live. -/
theorem Wired.dotBody_eq_ok (h : f.Wired) (style : Dot.Style) (lead : String) :
    f.dotBody style lead = .ok (f.dotStatements style lead) := by
  rw [dotBody, mapM_eq_pure (h := fun n => n.block.dotNode (lead ++ f.dotId n.key) style),
    pure_bind,
    mapM_eq_pure (h := fun p => p.2.dotEdge (lead ++ f.dotId p.1) (lead ++ f.dotId p.2.target) style)]
  · rfl
  · intro p hp
    obtain ⟨hsrc, he⟩ := mem_edges_iff.mp hp
    simp only [idOf_eq_ok hsrc, idOf_eq_ok (h.target_mem he)]
    rfl
  · intro n hn
    rw [idOf_eq_ok (mem_keys_iff.mpr ⟨n, hn, rfl⟩)]
    rfl

end Function

end FlowGraph
