import FlowGraph.Proofs.Function.Consistent

/-!
The entry of a function that is marked by the function alone. Only a block that comes into an empty
function is marked, so as long as nobody marks or unmarks blocks by hand no block but the first is
an entry.
-/
namespace FlowGraph

/-- The change is of an exit flag or of an address. -/
def BlockEdit.SparesEntry : BlockEdit → Prop
  | .entry _ => False
  | _ => True

theorem BlockEdit.SparesEntry.isEntry_edit {c : BlockEdit} (h : c.SparesEntry) (b : Block) :
    (b.edit c).isEntry = b.isEntry := by
  cases c with
  | entry set => exact h.elim
  | _ => rfl

namespace Function

variable {f : Function} {n : Node}

/-- No block behind the first one is flagged as entry. -/
def EntryLeads (f : Function) : Prop := ∀ p ∈ f.blocks.tail, p.2.isEntry = false

namespace EntryLeads

theorem empty (uid : Uid) (name : String) (owner : Uid) :
    (Function.empty uid name owner).EntryLeads := by
  simp [EntryLeads, Function.empty, blocks]

theorem kept : KeptUnder BlockEdit.SparesEntry EntryLeads where
  create {f name} h := by
    rw [EntryLeads, blocks_createBlock]
    cases hn : f.nodes with
    | nil => simp [blocks, hn]
    | cons n ns =>
        have hne : f.blocks ≠ [] := by simp [blocks, hn]
        intro p hp
        rw [List.tail_append_of_ne_nil hne] at hp
        rcases List.mem_append.mp hp with hp | hp
        · exact h p hp
        · obtain rfl := List.mem_singleton.mp hp
          simp [Block.isEntry, isEmpty, hn]
  connect h hc := by rwa [EntryLeads, blocks_connect hc]
  delete h hd p hp := by
    rw [blocks_deleteBlock hd] at hp
    exact h p (List.filter_sublist.tail.subset hp)
  disconnect h hd := by rwa [EntryLeads, blocks_disconnect hd]
  change hs h hc p hp := by
    rw [blocks_editBlock hc, ← List.map_tail] at hp
    obtain ⟨q, hq, rfl⟩ := List.mem_map.mp hp
    split
    · exact (hs.isEntry_edit q.2).trans (h q hq)
    · exact h q hq

/-- The entries of a function that has blocks are its first block or none. -/
theorem entries_eq (h : f.EntryLeads) {ns : List Node} (hn : f.nodes = n :: ns) :
    f.entries = if n.block.isEntry then [n] else [] := by
  have hrest : ns.filter (·.block.isEntry) = [] := by
    refine List.filter_eq_nil_iff.mpr fun m hm => ?_
    have hp : (m.key, m.block) ∈ f.blocks.tail := by
      rw [blocks, hn]
      exact List.mem_map_of_mem hm
    simpa using h _ hp
  rw [entries, hn, List.filter_cons, hrest]

theorem entries_le (h : f.EntryLeads) : f.entries.length ≤ 1 := by
  cases hn : f.nodes with
  | nil => simp [entries, hn]
  | cons n ns =>
      rw [h.entries_eq hn]
      split <;> simp

theorem head?_keys {n : Node} (h : f.EntryLeads) (hn : n ∈ f.entries) :
    f.keys.head? = some n.key := by
  cases hnodes : f.nodes with
  | nil => simp [entries, hnodes] at hn
  | cons m ms =>
      rw [h.entries_eq hnodes] at hn
      split at hn
      · rw [List.mem_singleton.mp hn, keys, hnodes]
        rfl
      · exact absurd hn List.not_mem_nil

theorem entryBlock?_eq (h : f.EntryLeads) : f.entryBlock? = none ∨ f.entryBlock? = f.keys.head? := by
  have hfind : f.entryBlock? = f.entries.head?.map (·.key) := by
    rw [entryBlock?, entries, List.head?_filter]
  cases hentry : f.entries.head? with
  | none => exact .inl (by rw [hfind, hentry]; rfl)
  | some n =>
      refine .inr ?_
      rw [hfind, hentry, h.head?_keys (List.mem_of_head? hentry)]
      rfl

end EntryLeads

end Function

end FlowGraph
