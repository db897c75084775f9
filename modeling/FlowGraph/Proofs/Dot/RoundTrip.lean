import FlowGraph.Proofs.Dot.Exported
import FlowGraph.Proofs.Module.Loading

/-!
A function that is exported and loaded again is a copy of itself, whatever its names and tags are
and however it came to be.
-/
namespace FlowGraph

variable {f : Function} {n : Node} {u : BlockKey} {style : Dot.Style} {uid owner : Uid}

namespace Function

/-- What the export of a function describes. -/
def sketch (f : Function) : Dot.Sketch := ⟨f.nodes.map f.labelOf, f.edges.map f.linkOf⟩

theorem ids_sketch : f.sketch.ids = f.keys.map f.dotId := by
  simp [sketch, Dot.Sketch.ids, keys, labelOf]

namespace Wired

/-- Ids lie as the blocks do. -/
theorem idxOf_sketch (h : f.Wired) (hu : u ∈ f.keys) :
    f.sketch.ids.idxOf (f.dotId u) = f.keys.idxOf u := by
  rw [ids_sketch]
  exact idxOf_map fun v hv hid => h.dotId_inj hv hu hid

theorem key_sketch (h : f.Wired) (hu : u ∈ f.keys) :
    f.sketch.key (.empty uid f.name owner) (f.dotId u) = f.copyKey uid u := by
  rw [Dot.Sketch.key, h.idxOf_sketch hu]
  simp [Function.empty, copyKey]

theorem filter_links_src (h : f.Wired) (hu : u ∈ f.keys) :
    f.sketch.links.filter (·.src = f.dotId u) = (f.edges.filter (·.1 = u)).map f.linkOf := by
  rw [sketch, List.filter_map]
  refine congrArg (List.map f.linkOf) (List.filter_congr fun p hp => ?_)
  exact decide_eq_decide.mpr ⟨h.dotId_inj (mem_edges_iff.mp hp).1 hu, congrArg f.dotId⟩

theorem filter_links_dst (h : f.Wired) (hu : u ∈ f.keys) :
    f.sketch.links.filter (·.dst = f.dotId u) = (f.edges.filter (·.2.target = u)).map f.linkOf := by
  rw [sketch, List.filter_map]
  refine congrArg (List.map f.linkOf) (List.filter_congr fun p hp => ?_)
  exact decide_eq_decide.mpr
    ⟨h.dotId_inj (h.target_mem (mem_edges_iff.mp hp).2) hu, congrArg f.dotId⟩

theorem successors_sketch (h : f.Wired) (hn : n ∈ f.nodes) :
    (f.sketch.links.filter (·.src = f.dotId n.key)).map (fun l =>
      (⟨l.tag, f.sketch.key (.empty uid f.name owner) l.dst⟩ : Edge)) =
      n.successors.map fun e => ⟨e.tag, f.copyKey uid e.target⟩ := by
  have hnode := node?_of_mem h.nodup hn
  rw [h.filter_links_src (mem_keys_of_node? hnode), filter_edges h.nodup,
    successors_of_node? hnode, List.map_map, List.map_map]
  refine List.map_congr_left fun e he => ?_
  rw [← successors_of_node? hnode] at he
  exact congrArg (Edge.mk e.tag) (h.key_sketch (h.target_mem he))

theorem predecessors_sketch (h : f.Wired) (hu : u ∈ f.keys) :
    (f.sketch.links.filter (·.dst = f.dotId u)).map (fun l =>
      f.sketch.key (.empty uid f.name owner) l.src) =
      (f.edges.filter (·.2.target = u)).map fun p => f.copyKey uid p.1 := by
  rw [h.filter_links_dst hu, List.map_map]
  refine List.map_congr_left fun p hp => ?_
  exact h.key_sketch (mem_edges_iff.mp (List.mem_of_mem_filter hp)).1

theorem node_sketch (h : f.Wired) (hn : n ∈ f.nodes) :
    f.sketch.node (.empty uid f.name owner) (f.labelOf n) = f.copyNode uid n := by
  have hkey : n.key ∈ f.keys := mem_keys_iff.mpr ⟨n, hn, rfl⟩
  simp only [Dot.Sketch.node, copyNode, Node.mk.injEq]
  refine ⟨h.key_sketch hkey, ?_, h.successors_sketch hn, h.predecessors_sketch hkey⟩
  rw [labelOf, h.idxOf_sketch hkey]
  rfl

/-- Building the export of a function into an empty one makes the copy. -/
theorem build_sketch (h : f.Wired) (uid owner : Uid) :
    f.sketch.build (.empty uid f.name owner) = f.copy uid owner := by
  have hnodes : f.nodes.map (f.sketch.node (.empty uid f.name owner) ∘ f.labelOf) =
      f.nodes.map (f.copyNode uid) := List.map_congr_left fun n hn => h.node_sketch hn
  have hblocks : f.sketch.blocks = f.nodes.map f.labelOf := rfl
  rw [Dot.Sketch.build, hblocks, List.map_map, hnodes]
  simp [Function.empty, copy, size]

end Wired

end Function

/-- Export followed by loading succeeds and makes a copy. -/
theorem Module.load_dot {f : Function} {m : Module} (hf : f.Reachable) (hm : m.Reachable)
    (uid : Uid) (style : Dot.Style) :
    ∃ text loading key g, f.dot style = .ok text ∧ m.load uid text = .ok loading ∧
      loading.outcome = .ok key ∧ loading.module.function? key = some g ∧ g.IsCopyOf f := by
  have hw := hf.wired
  obtain ⟨text, htext, hread⟩ := hw.read_dot style
  obtain ⟨b, hbuild, hfollows⟩ := Dot.Graph.populate_of_tagsDiffer
    (Function.Wired.empty uid (f.exported style).name m.uid) (hw.tagsDiffer_exported style)
  obtain ⟨loading, hload, houtcome, hfunction⟩ := hm.minted.load_of_populate hread hbuild
  have hcopy : b.function = f.copy uid m.uid := by
    rw [hfollows.function_eq, hw.sketch_exported, Function.name_exported]
    exact hw.build_sketch uid m.uid
  exact ⟨text, loading, _, _, htext, hload, houtcome, hfunction, hcopy ▸ hw.isCopyOf_copy uid m.uid⟩

/-- Two blocks of one name, a loop, two edges between the same blocks, and characters that mean
something in the text. -/
theorem Module.load_dot_twins :
    let a : BlockKey := ⟨⟨1⟩, 0⟩
    let b : BlockKey := ⟨⟨1⟩, 1⟩
    let f := (Function.empty ⟨1⟩ "say \"f\"" ⟨0⟩).run
      [.create "BB-\n", .create "BB-\n", .connect a b "x -> y", .connect a b "", .connect a a "\\",
        .connect b a "];"]
    let m := (Module.empty ⟨2⟩ "m").run [.create ⟨3⟩ "g", .create ⟨4⟩ "h", .delete ⟨0⟩]
    f.Reachable ∧ m.Reachable ∧ f.keys = [a, b] ∧ f.edgeCount = 4 ∧
      ∃ text loading key g, f.dot {} = .ok text ∧ m.load ⟨5⟩ text = .ok loading ∧
        loading.outcome = .ok key ∧ loading.module.function? key = some g ∧ g.IsCopyOf f :=
  ⟨⟨_, _, _, _, rfl⟩, ⟨_, _, _, rfl⟩, by decide, by decide,
    load_dot ⟨_, _, _, _, rfl⟩ ⟨_, _, _, rfl⟩ ⟨5⟩ {}⟩

end FlowGraph
