import FlowGraph.Proofs.Dot.RoundTrip
import FlowGraph.Proofs.Function.Entry
import FlowGraph.Proofs.Function.Renaming

/-!
A verdict survives export and loading, although the text says nothing of entries. The first block of
a loaded function becomes its entry, and an entry that is marked by the function alone is its first
block.
-/
namespace FlowGraph

namespace Function

variable {f : Function} {n : Node} {ns : List Node} {uid owner : Uid}

namespace Wired

theorem build_exported (h : f.Wired) (style : Dot.Style) (uid owner : Uid) :
    (f.exported style).sketch.build (.empty uid (f.exported style).name owner) =
      f.copy uid owner := by
  rw [h.sketch_exported, name_exported]
  exact h.build_sketch uid owner

/-- A copy is wired, for it is what a graph is built into. -/
theorem copy (h : f.Wired) (uid owner : Uid) : (f.copy uid owner).Wired := by
  have hempty := Wired.empty uid (f.exported {}).name owner
  obtain ⟨b, hbuild, hfollows⟩ :=
    Dot.Graph.populate_of_tagsDiffer hempty (h.tagsDiffer_exported {})
  have hb := Wired.kept.populate hempty (f.exported {})
  rwa [hbuild, hfollows.function_eq, h.build_exported] at hb

theorem entries_copy (h : f.Wired) (hn : f.nodes = n :: ns) :
    (f.copy uid owner).entries = [f.copyNode uid n] := by
  have hkeys : f.keys = n.key :: ns.map (·.key) := by rw [keys, hn, List.map_cons]
  have hfirst : (f.copyNode uid n).block.isEntry := by
    simp [copyNode, Block.isEntry, hkeys]
  have hrest : (ns.map (f.copyNode uid)).filter (·.block.isEntry) = [] := by
    refine List.filter_eq_nil_iff.mpr fun m' hm' => ?_
    obtain ⟨m, hm, rfl⟩ := List.mem_map.mp hm'
    have hne : n.key ≠ m.key := by
      intro he
      have hnotin := (List.nodup_cons.mp (hkeys ▸ h.nodup)).1
      exact hnotin (he ▸ List.mem_map_of_mem hm)
    simp [copyNode, Block.isEntry, hkeys, List.idxOf_cons, beq_false_of_ne hne]
  rw [entries, Function.copy, hn, List.map_cons, List.filter_cons, if_pos hfirst, hrest]

/-- A function whose entry leads has the same defect as its copy, unless it has lost its entry. -/
theorem inspect_copy (h : f.Wired) (hf : f.EntryLeads) (uid owner : Uid) :
    ∃ i j, f.inspect = .ok i ∧ (f.copy uid owner).inspect = .ok j ∧
      (i.defect = some (.noEntry f.name) ∨ j.defect = i.defect) := by
  cases hn : f.nodes with
  | nil =>
      have hentries : (f.copy uid owner).entries = [] := by simp [entries, Function.copy, hn]
      obtain ⟨i, j, hi, hj, hsame⟩ := h.renames_copy.inspect_eq h (h.copy uid owner)
        (by rw [hentries, entries, hn]; rfl)
      exact ⟨i, j, hi, hj, .inr hsame⟩
  | cons n ns =>
      have hentries := hf.entries_eq hn
      by_cases he : n.block.isEntry
      · rw [if_pos he] at hentries
        obtain ⟨i, j, hi, hj, hsame⟩ := h.renames_copy.inspect_eq h (h.copy uid owner)
          (by rw [h.entries_copy hn, hentries]; rfl)
        exact ⟨i, j, hi, hj, .inr hsame⟩
      · rw [if_neg he] at hentries
        obtain ⟨j, hj, -, -⟩ := inspect_of_entries_eq_singleton (h.copy uid owner) (h.entries_copy hn)
        refine ⟨{ defect := some (.noEntry f.name) }, j, ?_, hj, .inl rfl⟩
        simp [inspect, isEmpty, hn, hentries]

end Wired

end Function

/-- A function whose entry was marked by the function alone, exported and loaded again, is as sound
as it was. An unreachable block is reported with the same three names. -/
theorem Module.inspect_load_dot {history : List Function.Edit}
    (hh : ∀ e ∈ history, e.Allowed BlockEdit.SparesEntry) {m : Module} (hm : m.Reachable)
    (uid owner uid' : Uid) (name : String) (style : Dot.Style) :
    let f := (Function.empty uid name owner).run history
    ∃ text loading key g i j, f.dot style = .ok text ∧ m.load uid' text = .ok loading ∧
      loading.outcome = .ok key ∧ loading.module.function? key = some g ∧ f.inspect = .ok i ∧
      g.inspect = .ok j ∧ (i.defect = none → j.defect = none) ∧
      ∀ function entry block, i.defect = some (.unreachable function entry block) →
        j.defect = some (.unreachable function entry block) := by
  intro f
  have hf : f.Wired := Function.Wired.kept.run (Function.Wired.empty uid name owner) history
  have hlead : f.EntryLeads :=
    Function.EntryLeads.kept.run (Function.EntryLeads.empty uid name owner) hh
  obtain ⟨text, htext, hread⟩ := hf.read_dot style
  obtain ⟨loading, hload, houtcome, hfunction⟩ :=
    hm.minted.load_of_tagsDiffer uid' hread (hf.tagsDiffer_exported style)
  rw [hf.build_exported] at hfunction
  obtain ⟨i, j, hi, hj, hdefect⟩ := hf.inspect_copy hlead uid' m.uid
  refine ⟨text, loading, _, _, i, j, htext, hload, houtcome, hfunction, hi, hj, ?_, ?_⟩
  · intro hnone
    rcases hdefect with hlost | hsame
    · simp [hnone] at hlost
    · exact hsame.trans hnone
  · intro function entry block hunreachable
    rcases hdefect with hlost | hsame
    · simp [hunreachable] at hlost
    · exact hsame.trans hunreachable

/-- Two blocks of one name, and a graph that cannot be built to its end. The blocks that it leaves
behind are not reachable. -/
theorem Module.inspect_load_dot_half_built :
    let a : BlockKey := ⟨⟨1⟩, 0⟩
    let b : BlockKey := ⟨⟨1⟩, 1⟩
    let g : Dot.Graph := ⟨none, [.edge "p" "q" [⟨"label", "t"⟩], .edge "p" "r" [⟨"label", "t"⟩]]⟩
    let history : List Function.Edit :=
      [.create "a", .create "a", .connect a b "", .populate g, .change b (.exit true)]
    let f := (Function.empty ⟨1⟩ "f" ⟨0⟩).run history
    let m := (Module.empty ⟨2⟩ "m").run [.create ⟨3⟩ "g"]
    (∀ e ∈ history, e.Allowed BlockEdit.SparesEntry) ∧ m.Reachable ∧ f.size = 5 ∧
      ∃ text loading key g j, f.dot {} = .ok text ∧ m.load ⟨4⟩ text = .ok loading ∧
        loading.outcome = .ok key ∧ loading.module.function? key = some g ∧ g.inspect = .ok j ∧
        j.defect = some (.unreachable "f" "a" "p") := by
  intro a b g history f m
  have hh : ∀ e ∈ history, e.Allowed BlockEdit.SparesEntry := by
    simp [history, Function.Edit.Allowed, BlockEdit.SparesEntry]
  have hm : m.Reachable := ⟨_, _, _, rfl⟩
  have hdefect : f.inspect.map (·.defect) = .ok (some (.unreachable "f" "a" "p")) := by
    subst f
    cbv
  obtain ⟨text, loading, key, h, i, j, htext, hload, houtcome, hfunction, hi, hj, -, hsame⟩ :=
    Module.inspect_load_dot hh hm ⟨1⟩ ⟨0⟩ ⟨4⟩ "f" {}
  have hi' : i.defect = some (.unreachable "f" "a" "p") := by
    have hi : f.inspect = .ok i := hi
    rw [hi] at hdefect
    exact Except.ok.inj hdefect
  exact ⟨hh, hm, by decide, text, loading, key, h, j, htext, hload, houtcome, hfunction, hj,
    hsame _ _ _ hi'⟩

end FlowGraph
