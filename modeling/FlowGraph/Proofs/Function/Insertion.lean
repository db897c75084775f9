import FlowGraph.Proofs.Function.Deletion
import FlowGraph.Proofs.Store.Edits

/-!
One edge, added and removed. An edge is refused for a handle that does not resolve and for a tag in
use. It comes last at both of its ends, and its removal brings back what was there, as adding it
again does after its removal. Only the entries at its target may come out in another order.
-/
namespace FlowGraph

/-- What is found first goes, and nothing else is like it. -/
theorem eraseP_eq_filter {α β : Type} [DecidableEq β] {h : α → β} {l : List α} (hl : (l.map h).Nodup)
    (b : β) : l.eraseP (h · = b) = l.filter (h · ≠ b) := by
  induction l with
  | nil => rfl
  | cons a l ih =>
      obtain ⟨ha, hl⟩ := List.nodup_cons.mp hl
      by_cases hab : h a = b
      · have hall : l.filter (h · ≠ b) = l := by
          refine List.filter_eq_self.mpr fun c hc => decide_eq_true fun hcb => ha ?_
          exact hab ▸ hcb ▸ List.mem_map_of_mem hc
        rw [List.eraseP_cons_of_pos (p := (h · = b)) (decide_eq_true hab),
          List.filter_cons_of_neg (by simpa using hab), hall]
      · rw [List.eraseP_cons_of_neg (p := (h · = b)) (by simpa using hab),
          List.filter_cons_of_pos (by simpa using hab), ih hl]

namespace Function

variable {f g : Function} {e : Edge} {src dst : BlockKey} {name tag : String}

/-! ## When an edge is refused -/

/-- An edge is refused for one of its handles, or else for its tag, or else it is added. -/
theorem connect_cases (f : Function) (src dst : BlockKey) (tag : String) :
    ((src ∉ f.keys ∨ dst ∉ f.keys) ∧ f.connect src dst tag = .error (.undefinedBlock f.name)) ∨
      (dst ∈ f.keys ∧ ∃ b e, f.block? src = some b ∧ e ∈ f.successors src ∧ e.tag = tag ∧
        f.connect src dst tag = .error (.duplicateTag f.name b.name tag)) ∨
      ∃ g, f.connect src dst tag = .ok g := by
  by_cases hmem : src ∈ f.keys ∧ dst ∈ f.keys
  · obtain ⟨hsrc, hdst⟩ := hmem
    obtain ⟨n, hn⟩ := exists_node? hsrc
    by_cases htag : ∃ e ∈ f.successors src, e.tag = tag
    · obtain ⟨e, he, htag⟩ := htag
      have hrefused := connect_of_tag_mem hn hdst (successors_of_node? hn ▸ he) htag
      exact .inr (.inl ⟨hdst, n.block, e, block?_of_node? hn, he, htag, hrefused⟩)
    · push Not at htag
      exact .inr (.inr ⟨_, connect_eq_ok_iff.mpr ⟨hsrc, hdst, htag, rfl⟩⟩)
  · have hnone : src ∉ f.keys ∨ dst ∉ f.keys := by rwa [← not_and_or]
    exact .inl ⟨hnone, connect_of_not_mem hnone⟩

theorem connect_eq_undefined_iff :
    f.connect src dst tag = .error (.undefinedBlock f.name) ↔ src ∉ f.keys ∨ dst ∉ f.keys := by
  refine ⟨fun h => ?_, connect_of_not_mem⟩
  rcases connect_cases f src dst tag with ⟨hnone, -⟩ | ⟨-, b, e, -, -, -, hrefused⟩ | ⟨g, hg⟩
  · exact hnone
  · simp [h] at hrefused
  · simp [h] at hg

theorem connect_eq_duplicate_iff :
    f.connect src dst tag = .error (.duplicateTag f.name name tag) ↔
      dst ∈ f.keys ∧ (∃ b, f.block? src = some b ∧ b.name = name) ∧
        ∃ e ∈ f.successors src, e.tag = tag := by
  constructor
  · intro h
    rcases connect_cases f src dst tag with ⟨-, hrefused⟩ | ⟨hdst, b, e, hb, he, htag, hrefused⟩ | ⟨g, hg⟩
    · simp [h] at hrefused
    · have hname : name = b.name := by simpa [h] using hrefused
      exact ⟨hdst, ⟨b, hb, hname.symm⟩, e, he, htag⟩
    · simp [h] at hg
  · rintro ⟨hdst, ⟨b, hb, rfl⟩, e, he, htag⟩
    obtain ⟨n, hn⟩ := exists_node? (mem_keys_of_block? hb)
    obtain rfl : n.block = b := by simpa [block?, hn] using hb
    exact connect_of_tag_mem hn hdst (successors_of_node? hn ▸ he) htag

/-! ## What an edge changes -/

/-- `g` is `f` with one edge more, which is the last one at its source and has the last entry at
its target. -/
structure Gains (f : Function) (src : BlockKey) (e : Edge) (g : Function) : Prop where
  rest_eq : g = { f with nodes := g.nodes }
  blocks_eq : g.blocks = f.blocks
  successors_eq : ∀ u, g.successors u =
    if u = src then f.successors src ++ [e] else f.successors u
  predecessors_eq : ∀ u, g.predecessors u =
    if u = e.target then f.predecessors e.target ++ [src] else f.predecessors u

theorem gains_connect (h : f.connect src dst tag = .ok g) : f.Gains src ⟨tag, dst⟩ g where
  rest_eq := by
    obtain ⟨-, -, -, rfl⟩ := connect_eq_ok_iff.mp h
    rfl
  blocks_eq := blocks_connect h
  successors_eq u := successors_connect h
  predecessors_eq u := predecessors_connect h

/-- The functions are the same, but for the order of the entries of one block. -/
structure SameUpTo (f : Function) (key : BlockKey) (g : Function) : Prop where
  rest_eq : g = { f with nodes := g.nodes }
  blocks_eq : g.blocks = f.blocks
  successors_eq : ∀ u, g.successors u = f.successors u
  predecessors_eq : ∀ u ≠ key, g.predecessors u = f.predecessors u
  predecessors_perm : (g.predecessors key).Perm (f.predecessors key)

/-! ## There and back -/

/-- The edge that was added is the one with its tag. The entry that goes with it is the first one
of its source, which need not be the one that came. -/
theorem disconnect_connect (h : f.connect src dst tag = .ok g) :
    ∃ r, g.disconnect? src tag = some (⟨tag, dst⟩, r) ∧ f.SameUpTo dst r := by
  obtain ⟨-, -, hnew, -⟩ := connect_eq_ok_iff.mp h
  -- No older edge has the tag, so whatever looks for it passes them all.
  have hold : ∀ e ∈ f.successors src, ¬ decide (e.tag = tag) = true := by simpa using hnew
  have hlast : g.successors src = f.successors src ++ [⟨tag, dst⟩] := by
    rw [successors_connect h, if_pos rfl]
  have hfind : (g.successors src).find? (·.tag = tag) = some ⟨tag, dst⟩ := by
    rw [hlast, List.find?_append, List.find?_eq_none.mpr hold]
    simp
  obtain ⟨r, hr⟩ : ∃ r, g.disconnect? src tag = some (⟨tag, dst⟩, r) :=
    ⟨_, disconnect?_eq_some_iff.mpr ⟨hfind, rfl⟩⟩
  refine ⟨r, hr, ?_, ?_, fun u => ?_, fun u hu => ?_, ?_⟩
  · obtain ⟨-, rfl⟩ := disconnect?_eq_some_iff.mp hr
    rw [(gains_connect h).rest_eq]
    rfl
  · rw [blocks_disconnect hr, blocks_connect h]
  · rw [successors_disconnect hr]
    split
    · next husrc =>
        rw [hlast, List.eraseP_append_right _ hold, husrc]
        simp
    · next husrc => rw [successors_connect h, if_neg husrc]
  · rw [predecessors_disconnect hr, if_neg hu, predecessors_connect h, if_neg hu]
  · rw [predecessors_disconnect hr, if_pos rfl, predecessors_connect h, if_pos rfl]
    have hperm := (List.perm_append_singleton src (f.predecessors dst)).erase src
    rwa [List.erase_cons_head] at hperm

theorem Wired.edges_connect (hf : f.Wired) (h : f.connect src dst tag = .ok g) :
    g.edges.Perm ((src, ⟨tag, dst⟩) :: f.edges) := by
  -- Taking the edge away again leaves the old edges, and is known to take one edge away.
  obtain ⟨r, hr, hsame⟩ := disconnect_connect h
  have hkeys : r.keys = f.keys := by rw [keys_disconnect hr, keys_connect h]
  have hedges : r.edges = f.edges := by simp only [edges, hkeys, hsame.successors_eq]
  exact hedges ▸ (hf.connect h).edges_disconnect hr

/-- An edge that was removed can be added again, and comes last then. -/
theorem Wired.connect_disconnect (hf : f.Wired) (h : f.disconnect? src tag = some (e, g)) :
    ∃ r, g.connect src e.target tag = .ok r ∧ e.tag = tag ∧ r.blocks = f.blocks ∧
      r.edges.Perm f.edges ∧
      r.successors src = (f.successors src).filter (·.tag ≠ tag) ++ [e] := by
  obtain ⟨hfind, -⟩ := disconnect?_eq_some_iff.mp h
  have he := List.mem_of_find?_eq_some hfind
  obtain rfl : e.tag = tag := by simpa using List.find?_some hfind
  have hrest : g.successors src = (f.successors src).filter (·.tag ≠ e.tag) := by
    rw [successors_disconnect h, if_pos rfl, eraseP_eq_filter (hf.tags src)]
  have hfree : ∀ d ∈ g.successors src, d.tag ≠ e.tag := by simp [hrest]
  obtain ⟨r, hr⟩ : ∃ r, g.connect src e.target e.tag = .ok r := by
    refine ⟨_, connect_eq_ok_iff.mpr ⟨?_, ?_, hfree, rfl⟩⟩
    · rw [keys_disconnect h]
      exact mem_keys_of_mem_successors he
    · rw [keys_disconnect h]
      exact hf.target_mem he
  refine ⟨r, hr, rfl, ?_, ?_, ?_⟩
  · rw [blocks_connect hr, blocks_disconnect h]
  · exact ((hf.disconnect h).edges_connect hr).trans (hf.edges_disconnect h).symm
  · rw [successors_connect hr, if_pos rfl, hrest]

/-! ## One edge -/

/-- What adding an edge comes to, and how it and its removal undo each other. -/
structure Connects (f : Function) (src dst : BlockKey) (tag : String) : Prop where
  undefined_iff :
    f.connect src dst tag = .error (.undefinedBlock f.name) ↔ src ∉ f.keys ∨ dst ∉ f.keys
  /-- The refused edge is told by the block of its source and by its tag. -/
  duplicate_iff : ∀ name, f.connect src dst tag = .error (.duplicateTag f.name name tag) ↔
    dst ∈ f.keys ∧ (∃ b, f.block? src = some b ∧ b.name = name) ∧ ∃ e ∈ f.successors src, e.tag = tag
  /-- In memory an edge is added in place. What is refused leaves every slot as it was. -/
  refused : ∀ reason, f.connect src dst tag = .error reason →
    f.store.connect src dst tag = pure (f.store, .error reason)
  added : src ∈ f.keys → dst ∈ f.keys → (∀ e ∈ f.successors src, e.tag ≠ tag) →
    ∃ g r, f.connect src dst tag = .ok g ∧ f.Gains src ⟨tag, dst⟩ g ∧
      g.disconnect? src tag = some (⟨tag, dst⟩, r) ∧ f.SameUpTo dst r
  /-- Added again after its removal, the edge is the last one of its source. -/
  regained : ∀ e g, f.disconnect? src tag = some (e, g) →
    ∃ r, g.connect src e.target tag = .ok r ∧ e.tag = tag ∧ r.blocks = f.blocks ∧
      r.edges.Perm f.edges ∧ r.successors src = (f.successors src).filter (·.tag ≠ tag) ++ [e]

/-- Whatever the handles and the tag are, an edge is refused for the right reason and without a
trace, or it is added, and its removal undoes this. -/
theorem connect_exact (h : f.Reachable) (src dst : BlockKey) (tag : String) :
    f.Connects src dst tag where
  undefined_iff := connect_eq_undefined_iff
  duplicate_iff name := connect_eq_duplicate_iff
  refused reason hr := h.wired.store_connect_of_error hr
  added hsrc hdst hfree := by
    obtain ⟨g, hg⟩ : ∃ g, f.connect src dst tag = .ok g :=
      ⟨_, connect_eq_ok_iff.mpr ⟨hsrc, hdst, hfree, rfl⟩⟩
    obtain ⟨r, hr, hsame⟩ := disconnect_connect hg
    exact ⟨g, r, hg, gains_connect hg, hr, hsame⟩
  regained e g hd := h.wired.connect_disconnect hd

/-- A third edge from `a` to `b` comes and goes, and the entry that goes is the one of the first
edge. Then the first edge goes and comes again, behind the loop. -/
theorem connect_exact_parallel :
    let a : BlockKey := ⟨⟨1⟩, 0⟩
    let b : BlockKey := ⟨⟨1⟩, 1⟩
    let f := (empty ⟨1⟩ "f" ⟨0⟩).run
      [.create "a", .create "b", .connect a b "x", .connect b b "", .connect a b "y",
        .connect a a "z"]
    f.Reachable ∧ f.predecessors b = [a, b, a] ∧
      ((f.apply (.connect a b "")).apply (.disconnect a "")).predecessors b = [b, a, a] ∧
      f.Connects a b "" ∧
      (∃ g r, f.connect a b "" = .ok g ∧ f.Gains a ⟨"", b⟩ g ∧
        g.disconnect? a "" = some (⟨"", b⟩, r) ∧ f.SameUpTo b r) ∧
      ∃ g r, f.disconnect? a "x" = some (⟨"x", b⟩, g) ∧ g.connect a b "x" = .ok r ∧
        r.edges.Perm f.edges ∧ r.successors a = [⟨"y", b⟩, ⟨"z", a⟩, ⟨"x", b⟩] := by
  intro a b f
  have hf : f.Reachable := ⟨_, _, _, _, rfl⟩
  have hadded := (connect_exact hf a b "").added (by decide) (by decide) (by decide)
  have hx : (⟨"x", b⟩ : Edge) ∈ f.successors a := by decide
  obtain ⟨g, hg⟩ := hf.wired.exists_disconnect hx
  obtain ⟨r, hr, -, -, hperm, hlast⟩ := (connect_exact hf a b "x").regained _ g hg
  have horder : (f.successors a).filter (·.tag ≠ "x") ++ [⟨"x", b⟩] =
      [⟨"y", b⟩, ⟨"z", a⟩, ⟨"x", b⟩] := by decide
  exact ⟨hf, by decide, by decide, connect_exact hf a b "", hadded, g, r, hg, hr, hperm,
    hlast.trans horder⟩

end Function

end FlowGraph
