import FlowGraph.Proofs.Function.Histories
import FlowGraph.Proofs.Function.Views
import Mathlib

/-!
The two sides of every edge agree. The invariant behind this is that a block has as many edges to
another as the other has entries for it; each primitive edit keeps it.
-/
namespace FlowGraph

/-! ## Counting in lists -/

/-- What is looked up first is what is erased. -/
theorem perm_cons_eraseP {α : Type} {p : α → Bool} {l : List α} {a : α} (h : l.find? p = some a) :
    l.Perm (a :: l.eraseP p) := by
  obtain ⟨hp, as, bs, rfl, has⟩ := List.find?_eq_some_iff_append.mp h
  have hn : ∀ b ∈ as, ¬ p b := fun b hb => by simpa using has b hb
  rw [List.eraseP_append_right _ hn, List.eraseP_cons_of_pos hp]
  exact List.perm_middle

/-- The elements of a list, counted one by one in a list that names each once. -/
theorem sum_count_eq_length {α : Type} [DecidableEq α] {ks l : List α} (hks : ks.Nodup)
    (hl : ∀ a ∈ l, a ∈ ks) : (ks.map l.count).sum = l.length := by
  have hs : ∀ a ∈ (l : Multiset α), a ∈ ks.toFinset := by simpa using hl
  rw [← List.sum_toFinset _ hks]
  simpa only [Multiset.coe_count, Multiset.coe_card] using Multiset.sum_count_eq_card hs

theorem sum_sum_comm {α : Type} (as bs : List α) (w : α → α → Nat) :
    (as.map fun a => (bs.map (w a)).sum).sum = (bs.map fun b => (as.map (w · b)).sum).sum :=
  Multiset.sum_map_sum_map (as : Multiset α) (bs : Multiset α)

namespace Function

variable {f g : Function} {e : Edge} {b : Block} {key src dst u v : BlockKey} {name tag : String}

/-- The targets of the edges of a block, in the order of the edges. -/
def targets (f : Function) (key : BlockKey) : List BlockKey := (f.successors key).map (·.target)

/-- The handles are distinct and made by this function, and the two sides of the edges agree. -/
structure Wired (f : Function) : Prop where
  nodup : f.keys.Nodup
  minted : ∀ k ∈ f.keys, k.function = f.uid ∧ k.serial < f.nextSerial
  balance : ∀ u v, (f.targets u).count v = (f.predecessors v).count u
  tags : ∀ u, ((f.successors u).map (·.tag)).Nodup

namespace Wired

theorem mem_predecessors_iff (h : f.Wired) : u ∈ f.predecessors v ↔ v ∈ f.targets u := by
  rw [← List.count_pos_iff, ← List.count_pos_iff, h.balance]

theorem mem_keys_of_mem_targets (h : f.Wired) (hv : v ∈ f.targets u) : v ∈ f.keys :=
  mem_keys_of_mem_predecessors (h.mem_predecessors_iff.mpr hv)

theorem target_mem (h : f.Wired) (he : e ∈ f.successors u) : e.target ∈ f.keys :=
  h.mem_keys_of_mem_targets (List.mem_map_of_mem he)

theorem source_mem (h : f.Wired) (hu : u ∈ f.predecessors v) : u ∈ f.keys := by
  obtain ⟨e, he, -⟩ := List.mem_map.mp (h.mem_predecessors_iff.mp hu)
  exact mem_keys_of_mem_successors he

/-- The next handle is new. -/
theorem fresh (h : f.Wired) : (⟨f.uid, f.nextSerial⟩ : BlockKey) ∉ f.keys := by
  intro hk
  exact Nat.lt_irrefl _ (h.minted _ hk).2

/-! ## Each primitive edit keeps the invariant -/

theorem empty (uid : Uid) (name : String) (owner : Uid) :
    (Function.empty uid name owner).Wired where
  nodup := List.nodup_nil
  minted := by simp [Function.empty, keys]
  balance u v := by simp [targets, successors, predecessors, node?, Function.empty]
  tags u := by simp [successors, node?, Function.empty]

theorem createBlock (h : f.Wired) : (f.createBlock name).1.Wired where
  nodup := by
    rw [keys_createBlock]
    exact List.nodup_append_comm.mp (List.nodup_cons.mpr ⟨h.fresh, h.nodup⟩)
  minted := by
    intro k hk
    rw [keys_createBlock, List.mem_append, List.mem_singleton] at hk
    rcases hk with hk | rfl
    · exact ⟨(h.minted k hk).1, Nat.lt_succ_of_lt (h.minted k hk).2⟩
    · exact ⟨rfl, Nat.lt_succ_self _⟩
  balance u v := by simpa [targets] using h.balance u v
  tags u := by simpa using h.tags u

/-- A deleted block leaves no edge to it, at whatever place the edge was. -/
theorem successors_deleteBlock (h : f.Wired) (hd : f.deleteBlock? key = some (b, g))
    (hu : u ≠ key) : g.successors u = (f.successors u).filter (·.target ≠ key) := by
  rw [Function.successors_deleteBlock hd hu]
  split
  · rfl
  · next hn =>
      rw [h.mem_predecessors_iff] at hn
      refine (List.filter_eq_self.mpr fun e he => ?_).symm
      have : e.target ≠ key := fun ht => hn (ht ▸ List.mem_map_of_mem he)
      simpa using this

theorem predecessors_deleteBlock (h : f.Wired) (hd : f.deleteBlock? key = some (b, g))
    (hu : u ≠ key) : g.predecessors u = (f.predecessors u).filter (· ≠ key) := by
  rw [Function.predecessors_deleteBlock hd hu]
  split
  · rfl
  · next hn =>
      refine (List.filter_eq_self.mpr fun k hk => ?_).symm
      have : k ≠ key := by
        rintro rfl
        obtain ⟨e, he, ht⟩ := List.mem_map.mp (h.mem_predecessors_iff.mp hk)
        exact hn (List.any_eq_true.mpr ⟨e, he, by simpa using ht⟩)
      simpa using this

theorem deleteBlock (h : f.Wired) (hd : f.deleteBlock? key = some (b, g)) : g.Wired where
  nodup := by
    rw [keys_deleteBlock hd]
    exact h.nodup.filter _
  minted := by
    intro k hk
    rw [keys_deleteBlock hd] at hk
    rw [uid_deleteBlock hd, nextSerial_deleteBlock hd]
    exact h.minted k (List.mem_of_mem_filter hk)
  balance u v := by
    have hgone : key ∉ g.keys := by simp [keys_deleteBlock hd]
    by_cases hu : u = key
    · subst hu
      by_cases hv : v = u
      · simp [hv, targets, successors_of_not_mem hgone, predecessors_of_not_mem hgone]
      · have hn : u ∉ g.predecessors v := by simp [h.predecessors_deleteBlock hd hv]
        simp [targets, successors_of_not_mem hgone, List.count_eq_zero_of_not_mem hn]
    · have ht : g.targets u = (f.targets u).filter (· ≠ key) := by
        simp [targets, h.successors_deleteBlock hd hu, List.filter_map, Function.comp_def]
      by_cases hv : v = key
      · subst hv
        have hn : v ∉ g.targets u := by simp [ht]
        simp [predecessors_of_not_mem hgone, List.count_eq_zero_of_not_mem hn]
      · rw [ht, h.predecessors_deleteBlock hd hv, List.count_filter (by simpa using hv),
          List.count_filter (by simpa using hu), h.balance]
  tags u := by
    by_cases hu : u = key
    · have hgone : u ∉ g.keys := by simp [keys_deleteBlock hd, hu]
      simp [successors_of_not_mem hgone]
    · rw [h.successors_deleteBlock hd hu]
      exact (h.tags u).sublist (List.filter_sublist.map _)

theorem connect (h : f.Wired) (hc : f.connect src dst tag = .ok g) : g.Wired where
  nodup := by rw [keys_connect hc]; exact h.nodup
  minted := by
    rw [keys_connect hc, uid_connect hc, nextSerial_connect hc]
    exact h.minted
  balance u v := by
    rw [targets, successors_connect hc, predecessors_connect hc]
    have hb := h.balance u v
    rw [targets] at hb
    by_cases hu : u = src <;> by_cases hv : v = dst
    · subst hu hv
      simp [hb]
    · subst hu
      simp [hb, hv, Ne.symm hv]
    · subst hv
      simp [hb, hu, Ne.symm hu]
    · simp [hb, hu, hv]
  tags u := by
    rw [successors_connect hc]
    by_cases hu : u = src
    · obtain ⟨-, -, hne, -⟩ := connect_eq_ok_iff.mp hc
      simp only [hu, ↓reduceIte, List.map_append, List.map_cons, List.map_nil]
      refine List.nodup_append_comm.mp (List.nodup_cons.mpr ⟨fun ht => ?_, h.tags src⟩)
      obtain ⟨e, he, ht⟩ := List.mem_map.mp ht
      exact hne e he ht
    · simpa [hu] using h.tags u

/-- One entry for the source goes, and one edge to the target. -/
theorem disconnect (h : f.Wired) (hd : f.disconnect? src tag = some (e, g)) : g.Wired where
  nodup := by rw [keys_disconnect hd]; exact h.nodup
  minted := by
    rw [keys_disconnect hd, uid_disconnect hd, nextSerial_disconnect hd]
    exact h.minted
  balance u v := by
    -- The edge that is erased is the one that is found, so no other target loses an edge.
    obtain ⟨he, -⟩ := disconnect?_eq_some_iff.mp hd
    have hperm := ((perm_cons_eraseP he).map (·.target)).count_eq v
    have hb := h.balance u v
    rw [targets] at hb
    rw [targets, successors_disconnect hd, predecessors_disconnect hd]
    simp only [List.map_cons, List.count_cons] at hperm
    by_cases hu : u = src <;> by_cases hv : v = e.target
    · subst hu hv
      simp only [↓reduceIte, beq_self_eq_true, List.count_erase_self] at hperm ⊢
      omega
    · subst hu
      simpa [hv, Ne.symm hv, hb] using hperm.symm
    · subst hv
      simpa [hu, List.count_erase_of_ne hu] using hb
    · simp [hu, hv, hb]
  tags u := by
    rw [successors_disconnect hd]
    by_cases hu : u = src
    · simp only [hu, ↓reduceIte]
      exact (h.tags src).sublist ((List.eraseP_sublist).map _)
    · simpa [hu] using h.tags u

theorem editBlock {change : BlockEdit} (h : f.Wired) (hc : f.editBlock? key change = some g) :
    g.Wired where
  nodup := by rw [keys_editBlock hc]; exact h.nodup
  minted := by
    rw [keys_editBlock hc, uid_editBlock hc, nextSerial_editBlock hc]
    exact h.minted
  balance u v := by
    rw [targets, successors_editBlock hc, predecessors_editBlock hc]
    exact h.balance u v
  tags u := by rw [successors_editBlock hc]; exact h.tags u

theorem kept : Kept Wired where
  create h := h.createBlock
  connect h hc := h.connect hc
  delete h hd := h.deleteBlock hd
  disconnect h hd := h.disconnect hd
  change h hc := h.editBlock hc

end Wired

theorem Reachable.wired (h : f.Reachable) : f.Wired := Wired.kept.reachable Wired.empty h

/-! ## What every history keeps -/

/-- The relation between blocks, handles and edges that a function never loses. -/
structure Consistent (f : Function) : Prop where
  keys_nodup : f.keys.Nodup
  /-- Creation order lists the live blocks, which are those with a list of edges on each side. -/
  live_iff : ∀ key, key ∈ f.keys ↔ ∃ n, f.node? key = some n ∧ f.block? key = some n.block ∧
    f.successors key = n.successors ∧ f.predecessors key = n.predecessors
  /-- A handle that is not listed finds no block and no edges. -/
  dead : ∀ key, key ∉ f.keys → f.block? key = none ∧ f.contains key = false ∧
    f.successors key = [] ∧ f.predecessors key = []
  owned : ∀ key ∈ f.keys, key.function = f.uid
  target_live : ∀ key, ∀ e ∈ f.successors key, e.target ∈ f.keys
  source_live : ∀ key, ∀ src ∈ f.predecessors key, src ∈ f.keys
  balanced : ∀ u v, (f.successors u).countP (·.target = v) = (f.predecessors v).count u
  tags_nodup : ∀ key, ((f.successors key).map (·.tag)).Nodup
  edgeCount_eq_edges : f.edgeCount = f.edges.length
  edgeCount_eq_out : f.edgeCount = (f.keys.map f.outDegree).sum
  edgeCount_eq_in : f.edgeCount = (f.keys.map f.inDegree).sum

theorem edgeCount_eq_sum (hd : f.keys.Nodup) : f.edgeCount = (f.keys.map f.outDegree).sum := by
  have hs : ∀ ns : List Node, ns.foldr (fun n total => n.successors.length + total) 0 =
      (ns.map (·.successors.length)).sum := by
    intro ns
    induction ns with
    | nil => rfl
    | cons n ns ih => simp [ih]
  rw [edgeCount, hs, keys, List.map_map]
  congr 1
  refine List.map_congr_left fun n hn => ?_
  simp [outDegree, successors_of_node? (node?_of_mem hd hn)]

theorem length_edges : f.edges.length = (f.keys.map f.outDegree).sum := by
  simp only [edges, List.length_flatMap, List.length_map]
  rfl

/-- Every edge leaves one block and enters one block. -/
theorem Wired.sum_outDegree (h : f.Wired) :
    (f.keys.map f.outDegree).sum = (f.keys.map f.inDegree).sum := by
  -- Both degrees are counted pair by pair, and the balance equates the two sums of pairs.
  have hout : ∀ u, f.outDegree u = (f.keys.map (f.targets u).count).sum := by
    intro u
    rw [sum_count_eq_length h.nodup fun v hv => h.mem_keys_of_mem_targets hv]
    simp [outDegree, targets]
  have hin : ∀ v, f.inDegree v = (f.keys.map (f.predecessors v).count).sum := by
    intro v
    rw [sum_count_eq_length h.nodup fun u hu => h.source_mem hu, inDegree]
  rw [List.map_congr_left fun u _ => hout u, List.map_congr_left fun v _ => hin v, sum_sum_comm]
  simp only [h.balance]

theorem Wired.consistent (h : f.Wired) : f.Consistent where
  keys_nodup := h.nodup
  live_iff key := by
    constructor
    · intro hk
      obtain ⟨n, hn⟩ := exists_node? hk
      exact ⟨n, hn, block?_of_node? hn, successors_of_node? hn, predecessors_of_node? hn⟩
    · rintro ⟨n, hn, -⟩
      exact mem_keys_of_node? hn
  dead key hk := by
    have hn := node?_eq_none_iff.mpr hk
    exact ⟨by simp [block?, hn], by simp [contains, hn], successors_of_not_mem hk,
      predecessors_of_not_mem hk⟩
  owned key hk := (h.minted key hk).1
  target_live _ _ he := h.target_mem he
  source_live _ _ hu := h.source_mem hu
  balanced u v := by
    rw [← h.balance, targets, List.count_eq_countP, List.countP_map]
    exact List.countP_congr fun e _ => by simp
  tags_nodup := h.tags
  edgeCount_eq_edges := by rw [edgeCount_eq_sum h.nodup, length_edges]
  edgeCount_eq_out := edgeCount_eq_sum h.nodup
  edgeCount_eq_in := by rw [edgeCount_eq_sum h.nodup, h.sum_outDegree]

/-- Whatever is done to a new function, and with whatever handles, it stays consistent. -/
theorem consistent_run (uid : Uid) (name : String) (owner : Uid) (history : List Edit) :
    ((empty uid name owner).run history).Consistent :=
  (Wired.kept.run (Wired.empty uid name owner) history).consistent

end Function

end FlowGraph
