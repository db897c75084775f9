import Mathlib.Data.List.Nodup

/-! Lists of pairs as tables: what is looked up is in the list, and the other way round. -/
namespace FlowGraph

variable {α β : Type} [BEq α] [LawfulBEq α] {l : List (α × β)} {k : α} {b : β}

theorem mem_of_lookup (h : l.lookup k = some b) : (k, b) ∈ l := by
  obtain ⟨before, after, rfl, -⟩ := List.lookup_eq_some_iff.mp h
  exact List.mem_append_right _ List.mem_cons_self

theorem not_mem_of_lookup (h : l.lookup k = none) : k ∉ l.map (·.1) := by
  rintro hmem
  obtain ⟨p, hp, rfl⟩ := List.mem_map.mp hmem
  simpa using List.lookup_eq_none_iff.mp h p hp

theorem isSome_lookup_iff : (l.lookup k).isSome ↔ k ∈ l.map (·.1) := by
  cases hl : l.lookup k with
  | none => simpa using not_mem_of_lookup hl
  | some b => simpa using ⟨b, mem_of_lookup hl⟩

theorem lookup_of_mem {p : α × β} (hl : (l.map (·.1)).Nodup) (hp : p ∈ l) :
    l.lookup p.1 = some p.2 := by
  obtain ⟨as, bs, rfl⟩ := List.append_of_mem hp
  refine List.lookup_eq_some_iff.mpr ⟨as, bs, rfl, fun q hq => ?_⟩
  rw [List.map_append, List.map_cons, List.nodup_append] at hl
  have hne := hl.2.2 q.1 (List.mem_map_of_mem hq) p.1 List.mem_cons_self
  simpa using Ne.symm hne

theorem lookup_map_replace [DecidableEq α] (l : List (α × β)) (k a : α) (b : β) :
    (l.map fun p => (p.1, if p.1 = a then b else p.2)).lookup k =
      (l.lookup k).map fun old => if k = a then b else old := by
  induction l with
  | nil => rfl
  | cons p l ih =>
      rw [List.map_cons, List.lookup_cons, List.lookup_cons, ih]
      cases hk : k == p.1 with
      | false => rfl
      | true => rw [eq_of_beq hk, Option.map_some]

end FlowGraph
