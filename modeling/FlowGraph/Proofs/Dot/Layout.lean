import FlowGraph.Proofs.Dot.RoundTrip
import FlowGraph.Proofs.Function.Renaming

/-!
The text of a function and its layout determine each other. Handles leave no trace in the text, since
ids are made from the names alone; and all that the layout holds is read back.
-/
namespace FlowGraph

variable {f g : Function} {u : BlockKey} {σ : BlockKey → BlockKey} {style : Dot.Style}

/-! ## Ids under other handles -/

theorem Dot.distinctIds_rename {taken : List String} {ns ns' : List Node}
    (h : ns'.map (fun n => (n.key, n.block.name)) = ns.map fun n => (σ n.key, n.block.name)) :
    Dot.distinctIds taken ns' = (Dot.distinctIds taken ns).map fun p => (σ p.1, p.2) := by
  induction ns generalizing taken ns' with
  | nil =>
      obtain rfl : ns' = [] := List.map_eq_nil_iff.mp h
      rfl
  | cons n ns ih =>
      obtain ⟨n', ns', rfl, hn, hns⟩ := List.map_eq_cons_iff.mp h
      obtain ⟨hkey, hname⟩ := Prod.mk.inj hn
      simp only [Dot.distinctIds, List.map_cons, hkey, hname, ih hns]

/-- Handles that are told apart find the same under new names. -/
theorem lookup_map_rename {α β : Type} [DecidableEq α] {h : α → α} {l : List (α × β)} {a : α}
    (hinj : ∀ p ∈ l, h p.1 = h a → p.1 = a) :
    (l.map fun p => (h p.1, p.2)).lookup (h a) = l.lookup a := by
  induction l with
  | nil => rfl
  | cons p l ih =>
      have hrest := ih fun q hq => hinj q (List.mem_cons_of_mem p hq)
      rw [List.map_cons, List.lookup_cons, List.lookup_cons, hrest]
      by_cases hp : a = p.1
      · simp [hp]
      · have hne : h a ≠ h p.1 := fun he => hp (hinj p List.mem_cons_self he.symm).symm
        rw [beq_false_of_ne hp, beq_false_of_ne hne]

namespace Function

namespace Renames

theorem dotIds_eq (h : f.Renames σ g) : g.dotIds = f.dotIds.map fun p => (σ p.1, p.2) := by
  have hlabels := h.labels_eq
  rw [labels, labels, List.map_map] at hlabels
  exact Dot.distinctIds_rename hlabels

theorem dotId_eq (h : f.Renames σ g) (hu : u ∈ f.keys) : g.dotId (σ u) = f.dotId u := by
  have hkeys : f.dotIds.map (·.1) = f.keys := Dot.map_fst_distinctIds [] f.nodes
  rw [dotId, h.dotIds_eq, lookup_map_rename, dotId]
  intro p hp he
  exact h.inj _ (hkeys ▸ List.mem_map_of_mem hp) _ hu he

/-- The statements of the export do not depend on the handles. -/
theorem dotStatements_eq (h : f.Renames σ g) (hf : f.Wired) (lead : String) :
    g.dotStatements style lead = f.dotStatements style lead := by
  have hnodes : ∀ f : Function,
      (f.nodes.map fun n => n.block.dotNode (lead ++ f.dotId n.key) style) =
        f.labels.map fun p => ({ name := p.2, owner := f.uid } : Block).dotNode
          (lead ++ f.dotId p.1) style := by
    intro f
    rw [labels, List.map_map]
    rfl
  rw [dotStatements, dotStatements, hnodes, hnodes, h.labels_eq, h.edges_eq, List.map_map,
    List.map_map]
  congr 1
  · refine List.map_congr_left fun p hp => ?_
    have hkey : p.1 ∈ f.keys := map_fst_labels (f := f) ▸ List.mem_map_of_mem hp
    rw [Function.comp_apply, h.dotId_eq hkey]
    rfl
  · refine List.map_congr_left fun p hp => ?_
    obtain ⟨hsrc, he⟩ := mem_edges_iff.mp hp
    simp only [Function.comp_apply, Edge.rename, Edge.dotEdge, h.dotId_eq hsrc,
      h.dotId_eq (hf.target_mem he)]

theorem dot_eq (h : f.Renames σ g) (hf : f.Wired) (hg : g.Wired) (style : Dot.Style) :
    g.dot style = f.dot style := by
  rw [dot, dot, dotLines, dotLines, hf.dotBody_eq_ok, hg.dotBody_eq_ok, h.dotStatements_eq hf,
    h.name_eq]

end Renames

/-! ## The layout in the text -/

/-- Functions that are exported alike have the same copy, and this has the layout of both. -/
theorem Wired.layout_eq_of_exported_eq (hf : f.Wired) (hg : g.Wired)
    (h : f.exported style = g.exported style) : f.layout = g.layout := by
  have hname : f.name = g.name := by simpa [exported] using congrArg Dot.Graph.id h
  have hsketch : f.sketch = g.sketch :=
    (hf.sketch_exported style).symm.trans
      ((congrArg Dot.Graph.sketch h).trans (hg.sketch_exported style))
  have hcopy : f.copy f.uid f.owner = g.copy f.uid f.owner := by
    rw [← hf.build_sketch, ← hg.build_sketch, hsketch, hname]
  rw [← hf.layout_copy, hcopy, hg.layout_copy]

/-- The text of a function tells its name, the names of its blocks in order and, block by block, its
edges with their tags and the positions of their targets, and it tells nothing else. -/
theorem dot_eq_iff_layout_eq (hf : f.Reachable) (hg : g.Reachable) (style : Dot.Style) :
    ∃ s t, f.dot style = .ok s ∧ g.dot style = .ok t ∧ (s = t ↔ f.layout = g.layout) := by
  obtain ⟨s, hs, hreads⟩ := hf.wired.read_dot style
  obtain ⟨t, ht, hreadt⟩ := hg.wired.read_dot style
  refine ⟨s, t, hs, ht, ?_, fun h => ?_⟩
  · rintro rfl
    exact hf.wired.layout_eq_of_exported_eq hg.wired (Except.ok.inj (hreads.symm.trans hreadt))
  · have hdot := (hf.wired.renames_of_layout_eq hg.wired h).dot_eq hf.wired hg.wired style
    exact Except.ok.inj (hs.symm.trans (hdot.symm.trans ht))

/-- Functions that differ in handles, deleted blocks, flags, addresses and the order of predecessors
share a text. Where the second and the third block change their names it is another one, although
`a.1` is written in both, once as a name and once as an id. -/
theorem dot_eq_iff_layout_eq_hidden :
    let f := (empty ⟨1⟩ "f" ⟨0⟩).run
      [.create "x", .create "a", .create "a", .delete ⟨⟨1⟩, 0⟩, .create "a.1",
        .connect ⟨⟨1⟩, 1⟩ ⟨⟨1⟩, 3⟩ "", .connect ⟨⟨1⟩, 2⟩ ⟨⟨1⟩, 3⟩ "", .change ⟨⟨1⟩, 2⟩ (.stop 7)]
    let g := (empty ⟨2⟩ "f" ⟨0⟩).run
      [.create "a", .create "a", .create "a.1", .connect ⟨⟨2⟩, 1⟩ ⟨⟨2⟩, 2⟩ "",
        .connect ⟨⟨2⟩, 0⟩ ⟨⟨2⟩, 2⟩ ""]
    let h := (empty ⟨2⟩ "f" ⟨0⟩).run
      [.create "a", .create "a.1", .create "a", .connect ⟨⟨2⟩, 1⟩ ⟨⟨2⟩, 2⟩ "",
        .connect ⟨⟨2⟩, 0⟩ ⟨⟨2⟩, 2⟩ ""]
    f.Reachable ∧ g.Reachable ∧ h.Reachable ∧ f.entries = [] ∧ g.entries.length = 1 ∧
      (f.predecessors ⟨⟨1⟩, 3⟩).map f.position? = [some 0, some 1] ∧
      (g.predecessors ⟨⟨2⟩, 2⟩).map g.position? = [some 1, some 0] ∧
      ∃ s t, f.dot {} = .ok s ∧ g.dot {} = .ok s ∧ h.dot {} = .ok t ∧ s ≠ t := by
  intro f g h
  have hf : f.Reachable := ⟨_, _, _, _, rfl⟩
  have hg : g.Reachable := ⟨_, _, _, _, rfl⟩
  have hh : h.Reachable := ⟨_, _, _, _, rfl⟩
  obtain ⟨s, s', hs, hs', hsame⟩ := dot_eq_iff_layout_eq hf hg {}
  obtain ⟨_, t, hs'', ht, hother⟩ := dot_eq_iff_layout_eq hg hh {}
  obtain rfl := hsame.mpr (by decide)
  obtain rfl := Except.ok.inj (hs'.symm.trans hs'')
  refine ⟨hf, hg, hh, by decide, by decide, by decide, by decide, s, t, hs, hs', ht, fun he => ?_⟩
  exact absurd (hother.mp he) (by decide)

end Function

end FlowGraph
