import FlowGraph.Proofs.Function.Copy

/-!
What goes with a deleted block: the edges that leave it or lead to it, and nothing else. To delete a
block is the same as to remove its edges before, in whatever order, and then to delete the block
that is left alone.
-/
namespace FlowGraph

/-- What a filter drops anyway may be erased before. -/
theorem filter_eraseP {α : Type} {p q : α → Bool} {l : List α} (h : ∀ a ∈ l, p a → ¬ q a) :
    (l.eraseP p).filter q = l.filter q := by
  induction l with
  | nil => rfl
  | cons a l ih =>
      by_cases hp : p a
      · rw [List.eraseP_cons_of_pos hp, List.filter_cons_of_neg (h a List.mem_cons_self hp)]
      · rw [List.eraseP_cons_of_neg hp, List.filter_cons, List.filter_cons,
          ih fun b hb => h b (List.mem_cons_of_mem a hb)]

namespace Function

variable {f g : Function} {b : Block} {e : Edge} {key src u : BlockKey} {tag : String}

/-- The edges that leave a block or lead to it, each once. -/
def touching (f : Function) (key : BlockKey) : List (BlockKey × Edge) :=
  f.edges.filter fun p => p.1 = key ∨ p.2.target = key

/-- The edges of a block to itself. -/
def loops (f : Function) (key : BlockKey) : List Edge :=
  (f.successors key).filter (·.target = key)

theorem exists_deleteBlock (hk : key ∈ f.keys) :
    ∃ b g, f.deleteBlock? key = some (b, g) ∧ f.block? key = some b ∧
      g = { f with nodes := g.nodes } := by
  obtain ⟨gone, hgone⟩ := exists_node? hk
  exact ⟨gone.block, _, deleteBlock?_eq_some_iff.mpr ⟨gone, hgone, rfl, rfl⟩,
    block?_of_node? hgone, rfl⟩

/-! ## The edges that go -/

namespace Wired

variable (h : f.Wired)
include h

theorem edges_deleteBlock (hd : f.deleteBlock? key = some (b, g)) :
    g.edges = f.edges.filter fun p => ¬ (p.1 = key ∨ p.2.target = key) := by
  rw [edges, keys_deleteBlock hd, edges]
  induction f.keys with
  | nil => rfl
  | cons u us ih =>
      rw [List.flatMap_cons, List.filter_append, ← ih]
      by_cases hu : u = key
      · simp [hu]
      · simp [hu, h.successors_deleteBlock hd hu, List.filter_map, Function.comp_def]

/-- A loop leaves its block and leads to it. -/
theorem length_touching (key : BlockKey) :
    (f.touching key).length + (f.loops key).length = f.outDegree key + f.inDegree key := by
  have hboth : f.edges.filter (fun p => p.1 = key ∧ p.2.target = key) =
      (f.loops key).map fun e => (key, e) := by
    calc f.edges.filter (fun p => p.1 = key ∧ p.2.target = key)
      _ = (f.edges.filter (·.1 = key)).filter (·.2.target = key) := by
        simp [List.filter_filter, Bool.and_comm]
      _ = (f.loops key).map fun e => (key, e) := by
        rw [filter_edges h.nodup, List.filter_map]
        rfl
  have hout : (f.edges.filter (·.1 = key)).length = f.outDegree key := by
    rw [filter_edges h.nodup, List.length_map, outDegree]
  have hin : (f.edges.filter (·.2.target = key)).length = f.inDegree key := by
    rw [inDegree, (h.perm_predecessors key).length_eq, List.length_map]
  have hcount := congrArg Multiset.card (Multiset.filter_add_filter (fun p => p.1 = key)
    (fun p => p.2.target = key) (f.edges : Multiset (BlockKey × Edge)))
  simp only [Multiset.filter_coe, Multiset.coe_add, Multiset.coe_card, List.length_append] at hcount
  rw [hout, hin, hboth, List.length_map] at hcount
  exact hcount.symm

theorem edgeCount_deleteBlock (hd : f.deleteBlock? key = some (b, g)) :
    f.edgeCount = g.edgeCount + (f.touching key).length := by
  have hsplit := f.edges.length_eq_length_filter_add fun p => p.1 = key ∨ p.2.target = key
  rw [h.consistent.edgeCount_eq_edges, (h.deleteBlock hd).consistent.edgeCount_eq_edges,
    h.edges_deleteBlock hd, touching, hsplit, Nat.add_comm]
  simp

end Wired

/-- A deleted block is returned as it was. It goes from the creation order, its handle goes from the
lists of edges and entries of the others, and everything else stays as it was and in its order. A
loop is one edge, although it is counted among the outgoing and among the incoming ones. -/
theorem deleteBlock_exact (h : f.Reachable) (hk : key ∈ f.keys) :
    ∃ b g, f.deleteBlock? key = some (b, g) ∧ f.block? key = some b ∧
      g = { f with nodes := g.nodes } ∧ g.keys = f.keys.filter (· ≠ key) ∧
      (∀ u ≠ key, g.block? u = f.block? u ∧
        g.successors u = (f.successors u).filter (·.target ≠ key) ∧
        g.predecessors u = (f.predecessors u).filter (· ≠ key)) ∧
      f.edgeCount + (f.loops key).length =
        g.edgeCount + (f.inDegree key + f.outDegree key) := by
  obtain ⟨b, g, hd, hb, hg⟩ := exists_deleteBlock hk
  refine ⟨b, g, hd, hb, hg, keys_deleteBlock hd, fun u hu => ⟨block?_deleteBlock hd hu,
    h.wired.successors_deleteBlock hd hu, h.wired.predecessors_deleteBlock hd hu⟩, ?_⟩
  have hcount := h.wired.edgeCount_deleteBlock hd
  have htouching := h.wired.length_touching key
  omega

/-- The deleted block is the entry, has two loops, two edges to one block and two edges from
another, which lists them around an edge that stays. -/
theorem deleteBlock_exact_looped :
    let k (serial : Nat) : BlockKey := ⟨⟨1⟩, serial⟩
    let f := (empty ⟨1⟩ "f" ⟨0⟩).run
      [.create "a", .create "b", .create "c", .connect (k 0) (k 0) "x", .connect (k 0) (k 1) "y",
        .connect (k 0) (k 0) "z", .connect (k 0) (k 1) "", .connect (k 2) (k 0) "x",
        .connect (k 2) (k 1) "y", .connect (k 2) (k 0) "z", .change (k 1) (.stop 7)]
    f.Reachable ∧ k 0 ∈ f.keys ∧ f.edgeCount = 7 ∧ (f.loops (k 0)).length = 2 ∧
      ∃ b g, f.deleteBlock? (k 0) = some (b, g) ∧ f.block? (k 0) = some b ∧
        g = { f with nodes := g.nodes } ∧ g.keys = f.keys.filter (· ≠ k 0) ∧
        (∀ u ≠ k 0, g.block? u = f.block? u ∧
          g.successors u = (f.successors u).filter (·.target ≠ k 0) ∧
          g.predecessors u = (f.predecessors u).filter (· ≠ k 0)) ∧
        f.edgeCount + (f.loops (k 0)).length =
          g.edgeCount + (f.inDegree (k 0) + f.outDegree (k 0)) := by
  intro k f
  have hf : f.Reachable := ⟨_, _, _, _, rfl⟩
  have hk : k 0 ∈ f.keys := by decide
  exact ⟨hf, hk, by decide, by decide, deleteBlock_exact hf hk⟩

/-! ## Functions that look alike -/

/-- The nodes are known from the blocks and from the two sides of the edges. -/
theorem nodes_eq (hd : f.keys.Nodup) :
    f.nodes = f.blocks.map fun p => ⟨p.1, p.2, f.successors p.1, f.predecessors p.1⟩ := by
  rw [blocks, List.map_map]
  refine (List.map_id _).symm.trans (List.map_congr_left fun n hn => ?_)
  have hnode := node?_of_mem hd hn
  simp [successors_of_node? hnode, predecessors_of_node? hnode]

theorem nodes_eq_of_views (hf : f.keys.Nodup) (hg : g.keys.Nodup) (hb : g.blocks = f.blocks)
    (hs : ∀ u ∈ f.keys, g.successors u = f.successors u)
    (hp : ∀ u ∈ f.keys, g.predecessors u = f.predecessors u) : g.nodes = f.nodes := by
  rw [nodes_eq hf, nodes_eq hg, hb]
  refine List.map_congr_left fun p hmem => ?_
  have hkey : p.1 ∈ f.keys := by
    obtain ⟨n, hn, rfl⟩ := List.mem_map.mp hmem
    exact List.mem_map_of_mem hn
  rw [hs _ hkey, hp _ hkey]

/-! ## Edge by edge -/

/-- Removes edges one after the other, each called by its source and its tag, and tells which they
were. -/
def disconnectAll? (f : Function) : List (BlockKey × String) → Option (List Edge × Function)
  | [] => some ([], f)
  | (src, tag) :: rest => do
    let (e, g) ← f.disconnect? src tag
    let (es, g) ← g.disconnectAll? rest
    return (e :: es, g)

/-- The entry that is erased is one of those of the block, whichever it is. -/
theorem filter_predecessors_disconnect (hd : f.disconnect? src tag = some (e, g))
    (ht : src = key ∨ e.target = key) (hu : u ≠ key) :
    (g.predecessors u).filter (· ≠ key) = (f.predecessors u).filter (· ≠ key) := by
  rw [predecessors_disconnect hd]
  split
  · next htarget =>
      obtain rfl : src = key := ht.resolve_right (htarget ▸ hu)
      rw [List.erase_eq_eraseP]
      exact filter_eraseP fun v _ hv => by simpa using (beq_iff_eq.mp hv).symm
  · rfl

namespace Wired

variable (h : f.Wired)
include h

/-- An edge is found by its tag. -/
theorem find?_tag (he : e ∈ f.successors src) :
    (f.successors src).find? (·.tag = e.tag) = some e := by
  obtain ⟨as, bs, hsplit⟩ := List.append_of_mem he
  have htags := h.tags src
  rw [hsplit, List.map_append, List.map_cons, List.nodup_append] at htags
  rw [hsplit, List.find?_eq_some_iff_append]
  refine ⟨decide_eq_true rfl, as, bs, rfl, fun d hd => ?_⟩
  have hne := htags.2.2 d.tag (List.mem_map_of_mem hd) e.tag List.mem_cons_self
  simpa using hne

theorem exists_disconnect (he : e ∈ f.successors src) :
    ∃ g, f.disconnect? src e.tag = some (e, g) :=
  ⟨_, disconnect?_eq_some_iff.mpr ⟨h.find?_tag he, rfl⟩⟩

/-- One edge is removed, and the others stay. -/
theorem edges_disconnect (hd : f.disconnect? src tag = some (e, g)) :
    f.edges.Perm ((src, e) :: g.edges) := by
  obtain ⟨he, -⟩ := disconnect?_eq_some_iff.1 hd
  have hperm : (f.successors src).Perm (e :: g.successors src) := by
    rw [successors_disconnect hd, if_pos rfl]
    exact perm_cons_eraseP he
  have hother : ∀ us : List BlockKey, src ∉ us →
      (us.flatMap fun u => (g.successors u).map fun d => (u, d)) =
        us.flatMap fun u => (f.successors u).map fun d => (u, d) := by
    intro us hus
    refine List.flatMap_congr fun u hu => ?_
    rw [successors_disconnect hd, if_neg fun hsrc : u = src => hus (hsrc ▸ hu)]
  obtain ⟨as, bs, hkeys⟩ :=
    List.append_of_mem (mem_keys_of_mem_successors (List.mem_of_find?_eq_some he))
  have hnodup := h.nodup
  rw [hkeys, List.nodup_middle, List.nodup_cons, List.mem_append, not_or] at hnodup
  rw [edges, edges, keys_disconnect hd, hkeys, List.flatMap_append, List.flatMap_append,
    List.flatMap_cons, List.flatMap_cons, hother as hnodup.1.1, hother bs hnodup.1.2]
  exact (((hperm.map _).append_right _).append_left _).trans List.perm_middle

/-- Other edges of the source have other tags, and the one that is removed leads to the block. -/
theorem filter_successors_disconnect (hd : f.disconnect? src tag = some (e, g))
    (ht : src = key ∨ e.target = key) (hu : u ≠ key) :
    (g.successors u).filter (·.target ≠ key) = (f.successors u).filter (·.target ≠ key) := by
  obtain ⟨hfind, -⟩ := disconnect?_eq_some_iff.1 hd
  have htag : e.tag = tag := by simpa using List.find?_some hfind
  rw [successors_disconnect hd]
  split
  · next hsrc =>
      subst hsrc
      refine filter_eraseP fun d hmem hdtag => ?_
      obtain rfl : d = e := List.inj_on_of_nodup_map (h.tags u) hmem
        (List.mem_of_find?_eq_some hfind) (by simpa [htag] using hdtag)
      simpa using ht.resolve_left hu
  · rfl

/-- An edge that goes with a block may as well be removed before. -/
theorem deleteBlock?_disconnect (hd : f.disconnect? src tag = some (e, g))
    (ht : src = key ∨ e.target = key) : g.deleteBlock? key = f.deleteBlock? key := by
  obtain ⟨hfind, hg⟩ := disconnect?_eq_some_iff.1 hd
  have he := List.mem_of_find?_eq_some hfind
  have hk : key ∈ f.keys := by
    rcases ht with rfl | rfl
    · exact mem_keys_of_mem_successors he
    · exact h.target_mem he
  have hw := h.disconnect hd
  obtain ⟨b, r, hdel, hb, hr⟩ := exists_deleteBlock hk
  obtain ⟨b', r', hdel', hb', hr'⟩ := exists_deleteBlock (f := g) (keys_disconnect hd ▸ hk)
  obtain rfl : b' = b := by
    rw [block?_disconnect hd, hb] at hb'
    exact (Option.some.inj hb').symm
  have hgone : ∀ u ∈ r.keys, u ≠ key := by simp [keys_deleteBlock hdel]
  have hnodes : r'.nodes = r.nodes := by
    refine nodes_eq_of_views (h.deleteBlock hdel).nodup (hw.deleteBlock hdel').nodup ?_
      (fun u hu => ?_) (fun u hu => ?_)
    · rw [blocks_deleteBlock hdel, blocks_deleteBlock hdel', blocks_disconnect hd]
    · rw [h.successors_deleteBlock hdel (hgone u hu), hw.successors_deleteBlock hdel' (hgone u hu),
        h.filter_successors_disconnect hd ht (hgone u hu)]
    · rw [h.predecessors_deleteBlock hdel (hgone u hu),
        hw.predecessors_deleteBlock hdel' (hgone u hu),
        filter_predecessors_disconnect hd ht (hgone u hu)]
  rw [hdel, hdel', hr, hr', hnodes, hg]
  rfl

/-- The edges of a block can be removed in any order, each of them is found, and then the block is
alone. -/
theorem disconnectAll {ps : List (BlockKey × Edge)} (hps : ps.Perm (f.touching key)) :
    ∃ g, f.disconnectAll? (ps.map fun p => (p.1, p.2.tag)) = some (ps.map (·.2), g) ∧ g.Wired ∧
      g.keys = f.keys ∧ g.touching key = [] ∧ g.deleteBlock? key = f.deleteBlock? key := by
  induction ps generalizing f with
  | nil => exact ⟨f, rfl, h, rfl, List.nil_perm.mp hps, rfl⟩
  | cons p ps ih =>
      obtain ⟨src, e⟩ := p
      obtain ⟨hmem, ht⟩ := List.mem_filter.mp (hps.mem_iff.mp List.mem_cons_self)
      have ht := of_decide_eq_true ht
      obtain ⟨g, hd⟩ := h.exists_disconnect (mem_edges_iff.mp hmem).2
      have hrest : ps.Perm (g.touching key) := by
        have hfilter := (h.edges_disconnect hd).filter fun p => p.1 = key ∨ p.2.target = key
        rw [List.filter_cons, if_pos (decide_eq_true ht)] at hfilter
        exact (hps.trans hfilter).cons_inv
      obtain ⟨r, hrun, hw, hkeys, halone, hdel⟩ := ih (h.disconnect hd) hrest
      refine ⟨r, ?_, hw, hkeys.trans (keys_disconnect hd), halone,
        hdel.trans (h.deleteBlock?_disconnect hd ht)⟩
      simp [disconnectAll?, hd, hrun]

/-- No edge leaves or reaches a block whose edges are gone. -/
theorem alone_of_touching_eq_nil (ht : f.touching key = []) :
    f.successors key = [] ∧ f.predecessors key = [] := by
  have hnone : ∀ u, ∀ e ∈ f.successors u, u ≠ key ∧ e.target ≠ key := by
    intro u e he
    have hp := List.filter_eq_nil_iff.mp ht (u, e)
      (mem_edges_iff.mpr ⟨mem_keys_of_mem_successors he, he⟩)
    simpa using hp
  constructor
  · exact List.eq_nil_iff_forall_not_mem.mpr fun e he => (hnone key e he).1 rfl
  · refine List.eq_nil_iff_forall_not_mem.mpr fun u hu => ?_
    obtain ⟨e, he, hkey⟩ := List.mem_map.mp (h.mem_predecessors_iff.mp hu)
    exact (hnone u e he).2 hkey

end Wired

/-- To delete a block with all its edges is to remove these one by one, in any order, and then to
delete the block that is left alone. Each removal returns the edge that it was asked for. -/
theorem deleteBlock_edge_by_edge (h : f.Reachable) (hk : key ∈ f.keys)
    {ps : List (BlockKey × Edge)} (hps : ps.Perm (f.touching key)) :
    ∃ g b r, f.disconnectAll? (ps.map fun p => (p.1, p.2.tag)) = some (ps.map (·.2), g) ∧
      key ∈ g.keys ∧ g.successors key = [] ∧ g.predecessors key = [] ∧
      g.deleteBlock? key = some (b, r) ∧ f.deleteBlock? key = some (b, r) := by
  obtain ⟨g, hrun, hw, hkeys, hnone, hsame⟩ := h.wired.disconnectAll hps
  obtain ⟨hsucc, hpred⟩ := hw.alone_of_touching_eq_nil hnone
  obtain ⟨b, r, hdel, -⟩ := exists_deleteBlock hk
  exact ⟨g, b, r, hrun, hkeys ▸ hk, hsucc, hpred, hsame.trans hdel, hdel⟩

/-- The removals go back and forth between two loops, two edges to one block and two edges from it.
When `""` is removed, the entry that goes at `b` is the one that came with `y`. -/
theorem deleteBlock_edge_by_edge_mixed :
    let k (serial : Nat) : BlockKey := ⟨⟨1⟩, serial⟩
    let f := (empty ⟨1⟩ "f" ⟨0⟩).run
      [.create "a", .create "b", .connect (k 0) (k 0) "x", .connect (k 0) (k 1) "y",
        .connect (k 0) (k 0) "z", .connect (k 1) (k 1) "", .connect (k 0) (k 1) "",
        .connect (k 1) (k 0) "x", .connect (k 1) (k 0) "y"]
    let ps : List (BlockKey × Edge) :=
      [(k 0, ⟨"", k 1⟩), (k 1, ⟨"y", k 0⟩), (k 0, ⟨"z", k 0⟩), (k 1, ⟨"x", k 0⟩),
        (k 0, ⟨"y", k 1⟩), (k 0, ⟨"x", k 0⟩)]
    f.Reachable ∧ k 0 ∈ f.keys ∧ ps.Perm (f.touching (k 0)) ∧
      ∃ g b r, f.disconnectAll? (ps.map fun p => (p.1, p.2.tag)) = some (ps.map (·.2), g) ∧
        k 0 ∈ g.keys ∧ g.successors (k 0) = [] ∧ g.predecessors (k 0) = [] ∧
        g.deleteBlock? (k 0) = some (b, r) ∧ f.deleteBlock? (k 0) = some (b, r) := by
  intro k f ps
  have hf : f.Reachable := ⟨_, _, _, _, rfl⟩
  have hk : k 0 ∈ f.keys := by decide
  have hps : ps.Perm (f.touching (k 0)) := by decide +kernel
  exact ⟨hf, hk, hps, deleteBlock_edge_by_edge hf hk hps⟩

end Function

end FlowGraph
