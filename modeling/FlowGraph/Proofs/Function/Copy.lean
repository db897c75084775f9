import FlowGraph.Function.Layout
import FlowGraph.Proofs.Function.Consistent

/-!
Copies of a function: the same names, tags and order under new handles. The entries of a block in a
copy come in the order of the edges, which may be another one than in the original.
-/
namespace FlowGraph.Function

variable {f g : Function} {n : Node} {u v : BlockKey} {uid owner : Uid}

/-! ## Edges -/

/-- The edges differ in their sources or in their tags. -/
theorem Wired.nodup_edges (h : f.Wired) : (f.edges.map fun p => (p.1, p.2.tag)).Nodup := by
  have hmap : f.edges.map (fun p => (p.1, p.2.tag)) =
      f.keys.flatMap fun u => ((f.successors u).map (·.tag)).map (Prod.mk u) := by
    simp only [edges, List.map_flatMap, List.map_map]
    rfl
  rw [hmap, List.nodup_flatMap]
  refine ⟨fun u _ => (h.tags u).map (Prod.mk_right_injective u), ?_⟩
  refine h.nodup.imp fun {u v} huv p hu hv => ?_
  obtain ⟨_, -, rfl⟩ := List.mem_map.mp hu
  obtain ⟨_, -, heq⟩ := List.mem_map.mp hv
  exact huv (congrArg Prod.fst heq).symm

theorem filter_edges (hd : f.keys.Nodup) (u : BlockKey) :
    f.edges.filter (·.1 = u) = (f.successors u).map fun e => (u, e) := by
  have hother : ∀ ks : List BlockKey, u ∉ ks →
      (ks.flatMap fun k => (f.successors k).map fun e => (k, e)).filter (·.1 = u) = [] := by
    intro ks hu
    refine List.filter_eq_nil_iff.mpr fun p hp h => hu ?_
    obtain ⟨k, hk, hpk⟩ := List.mem_flatMap.mp hp
    obtain ⟨e, -, rfl⟩ := List.mem_map.mp hpk
    exact of_decide_eq_true h ▸ hk
  by_cases hu : u ∈ f.keys
  · obtain ⟨as, bs, hkeys⟩ := List.append_of_mem hu
    rw [hkeys, List.nodup_append] at hd
    have has : u ∉ as := fun h => hd.2.2 u h u List.mem_cons_self rfl
    have hbs : u ∉ bs := (List.nodup_cons.mp hd.2.1).1
    rw [edges, hkeys, List.flatMap_append, List.flatMap_cons, List.filter_append,
      List.filter_append, hother as has, hother bs hbs, List.nil_append, List.append_nil]
    refine List.filter_eq_self.mpr fun p hp => ?_
    obtain ⟨e, -, rfl⟩ := List.mem_map.mp hp
    exact decide_eq_true rfl
  · rw [edges, hother f.keys hu, successors_of_not_mem hu, List.map_nil]

/-- Up to order the entries of a block are the sources of the edges to it. -/
theorem Wired.perm_predecessors (h : f.Wired) (v : BlockKey) :
    (f.predecessors v).Perm ((f.edges.filter (·.2.target = v)).map (·.1)) := by
  refine List.perm_iff_count.mpr fun u => ?_
  calc (f.predecessors v).count u = (f.targets u).count v := (h.balance u v).symm
    _ = (f.successors u).countP (·.target = v) := by
      rw [targets, List.count_eq_countP, List.countP_map]
      exact List.countP_congr fun e _ => by simp
    _ = (f.edges.filter (·.1 = u)).countP (·.2.target = v) := by
      rw [filter_edges h.nodup, List.countP_map]
      rfl
    _ = ((f.edges.filter (·.2.target = v)).map (·.1)).count u := by
      rw [List.count_eq_countP, List.countP_map, List.countP_filter, List.countP_filter]
      exact List.countP_congr fun p _ => by simp [and_comm]

/-! ## Positions -/

theorem position?_of_mem (hu : u ∈ f.keys) : f.position? u = some (f.keys.idxOf u) :=
  List.findIdx?_eq_some_of_exists ⟨u, hu, decide_eq_true rfl⟩

/-- Handles that are told apart keep their positions under new names. -/
theorem idxOf_map {α β : Type} [DecidableEq α] [DecidableEq β] {h : α → β} {l : List α} {a : α}
    (hinj : ∀ c ∈ l, h c = h a → c = a) : (l.map h).idxOf (h a) = l.idxOf a := by
  induction l with
  | nil => rfl
  | cons c l ih =>
      have hrest := ih fun d hd => hinj d (List.mem_cons_of_mem c hd)
      rw [List.map_cons, List.idxOf_cons, List.idxOf_cons, hrest]
      by_cases hc : c = a
      · simp [hc]
      · have hne : h c ≠ h a := fun he => hc (hinj c List.mem_cons_self he)
        rw [beq_false_of_ne hc, beq_false_of_ne hne]

/-! ## Copies -/

/-- A function with the same names and edges as another, block by block, in which the first block
is the entry and nothing else is said of the blocks. -/
structure IsCopyOf (g f : Function) : Prop where
  layout_eq : g.layout = f.layout
  size_eq : g.size = f.size
  /-- At each position the entries are the same up to order. -/
  predecessors_perm : ∀ (i : Nat) (n n' : Node), f.nodes[i]? = some n → g.nodes[i]? = some n' →
    (n'.predecessors.map g.position?).Perm (n.predecessors.map f.position?)
  isEntry_iff : ∀ (i : Nat) (n' : Node), g.nodes[i]? = some n' → (n'.block.isEntry ↔ i = 0)
  plain : ∀ n' ∈ g.nodes, n'.block.isExit = false ∧ n'.block.start = 0 ∧ n'.block.stop = 0

/-- The handle of a block's copy. -/
def copyKey (f : Function) (uid : Uid) (u : BlockKey) : BlockKey := ⟨uid, f.keys.idxOf u⟩

def copyNode (f : Function) (uid : Uid) (n : Node) : Node where
  key := f.copyKey uid n.key
  block := { name := n.block.name, flags := { entry := f.keys.idxOf n.key == 0 }, owner := uid }
  successors := n.successors.map fun e => ⟨e.tag, f.copyKey uid e.target⟩
  predecessors := (f.edges.filter (·.2.target = n.key)).map fun p => f.copyKey uid p.1

/-- The copy that loading the function's text makes. -/
def copy (f : Function) (uid owner : Uid) : Function where
  uid := uid
  name := f.name
  owner := owner
  nextSerial := f.size
  nodes := f.nodes.map (f.copyNode uid)

theorem copyKey_inj (hu : u ∈ f.keys) (h : f.copyKey uid u = f.copyKey uid v) : u = v :=
  (List.idxOf_inj hu).mp (BlockKey.mk.inj h).2

theorem keys_copy : (f.copy uid owner).keys = f.keys.map (f.copyKey uid) := by
  simp [copy, copyNode, keys]

theorem position?_copy (hu : u ∈ f.keys) :
    (f.copy uid owner).position? (f.copyKey uid u) = f.position? u := by
  have hmem : f.copyKey uid u ∈ (f.copy uid owner).keys := by
    rw [keys_copy]
    exact List.mem_map_of_mem hu
  rw [position?_of_mem hmem, position?_of_mem hu, keys_copy,
    idxOf_map fun v hv h => copyKey_inj hv h]

namespace Wired

theorem layout_copy (h : f.Wired) : (f.copy uid owner).layout = f.layout := by
  simp only [layout, copy, List.map_map, Layout.mk.injEq, true_and]
  refine List.map_congr_left fun n hn => ?_
  simp only [Function.comp_apply, copyNode, List.map_map, Layout.Row.mk.injEq, true_and]
  refine List.map_congr_left fun e he => ?_
  rw [← successors_of_node? (node?_of_mem h.nodup hn)] at he
  exact congrArg (Prod.mk e.tag) (position?_copy (h.target_mem he))

theorem predecessors_copy (h : f.Wired) (hn : n ∈ f.nodes) :
    ((f.copyNode uid n).predecessors.map (f.copy uid owner).position?).Perm
      (n.predecessors.map f.position?) := by
  have hperm := (h.perm_predecessors n.key).map f.position?
  rw [predecessors_of_node? (node?_of_mem h.nodup hn)] at hperm
  refine List.Perm.trans (List.Perm.of_eq ?_) hperm.symm
  simp only [copyNode, List.map_map]
  refine List.map_congr_left fun p hp => ?_
  exact position?_copy (mem_edges_iff.mp (List.mem_of_mem_filter hp)).1

theorem isCopyOf_copy (h : f.Wired) (uid owner : Uid) : (f.copy uid owner).IsCopyOf f where
  layout_eq := h.layout_copy
  size_eq := by simp [copy, size]
  predecessors_perm i n n' hn hn' := by
    simp only [copy, List.getElem?_map, hn, Option.map_some, Option.some.injEq] at hn'
    subst hn'
    exact h.predecessors_copy (List.mem_of_getElem? hn)
  isEntry_iff i n' hn' := by
    simp only [copy, List.getElem?_map, Option.map_eq_some_iff] at hn'
    obtain ⟨n, hn, rfl⟩ := hn'
    obtain ⟨hi, rfl⟩ := List.getElem?_eq_some_iff.mp hn
    have hlt : i < f.keys.length := by simpa [keys] using hi
    have hidx := h.nodup.idxOf_getElem i hlt
    have hkey : f.keys[i] = f.nodes[i].key := by simp [keys]
    rw [hkey] at hidx
    simp [copyNode, Block.isEntry, hidx]
  plain n' hn' := by
    obtain ⟨n, -, rfl⟩ := List.mem_map.mp hn'
    exact ⟨rfl, rfl, rfl⟩

end Wired

end FlowGraph.Function
