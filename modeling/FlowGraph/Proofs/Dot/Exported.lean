import FlowGraph.Proofs.Dot.Ids
import FlowGraph.Proofs.Dot.Building
import FlowGraph.Proofs.Dot.Written
import FlowGraph.Proofs.Function.Copy

/-!
The graph that an exported function is read back as, and the sketch that this graph gives: one id
for each block, and one link for each edge.
-/
namespace FlowGraph

variable {f : Function} {u v : BlockKey} {style : Dot.Style}

/-! ## The text and the graph -/

namespace Function

/-- The graph in the text of the function. -/
def exported (f : Function) (style : Dot.Style) : Dot.Graph where
  id := some f.name
  statements := style.heading f.name ++ f.dotStatements style ""

theorem heading_isWritable : ∀ s ∈ style.heading f.name, s.IsWritable := by
  simp [Dot.Style.heading, Dot.Statement.IsWritable]

theorem dotStatements_isWritable (lead : String) :
    ∀ s ∈ f.dotStatements style lead, s.IsWritable := by
  intro s hs
  rcases List.mem_append.mp hs with hs | hs
  · obtain ⟨n, -, rfl⟩ := List.mem_map.mp hs
    trivial
  · obtain ⟨p, -, rfl⟩ := List.mem_map.mp hs
    trivial

/-- The export succeeds, and its text is read as the function's graph. -/
theorem Wired.read_dot (h : f.Wired) (style : Dot.Style) :
    ∃ text, f.dot style = .ok text ∧ Dot.Graph.read text = .ok (f.exported style) := by
  have hlines : f.dotLines style "" = .ok (Dot.lines (f.dotStatements style "")) := by
    rw [dotLines, h.dotBody_eq_ok]
    rfl
  refine ⟨_, ?_, Dot.Graph.read_written f.name heading_isWritable (dotStatements_isWritable "")⟩
  rw [dot, hlines]
  rfl

/-- What there is to say of the blocks and edges of a function, when its blocks are called so. -/
def content (f : Function) (style : Dot.Style) (ids : BlockKey → String) : List Dot.Statement :=
  (f.nodes.map fun n =>
    .node (ids n.key)
      [⟨"shape", style.nodeShape⟩, ⟨"style", style.nodeStyle⟩, ⟨"fillcolor", style.nodeFillColor⟩,
        ⟨"label", "BB-" ++ n.block.name⟩]) ++
    f.edges.map fun (src, e) =>
      .edge (ids src) (ids e.target)
        [⟨"style", style.edgeStyle⟩, ⟨"color", style.edgeColor⟩, ⟨"label", e.tag⟩]

theorem exported_eq : f.exported style =
    ⟨some f.name, [.attribute ⟨"label", f.name⟩, .attribute ⟨"style", style.graphStyle⟩,
      .attribute ⟨"color", style.graphColor⟩] ++ f.content style f.dotId⟩ := by
  simp [exported, Dot.Style.heading, dotStatements, content, Block.dotNode, Edge.dotEdge,
    Dot.nodeLabelLead]

theorem dotStatements_eq (lead : String) :
    f.dotStatements style lead = f.content style (lead ++ f.dotId ·) := rfl

/-- No name, tag, lead or value of a style leaves the quotes that it is written in. The text of a
function is read as the three statements of its heading and what there is to say of its blocks and
edges, and the statements alone, in braces, as the latter with the lead before every id. -/
theorem read_exported (h : f.Reachable) (style : Dot.Style) (lead : String) :
    ∃ ids text body, (∀ key ∈ f.keys, f.dotIds.lookup key = some (ids key)) ∧
      f.dot style = .ok text ∧ f.dotLines style lead = .ok body ∧
      Dot.Graph.read text =
        .ok ⟨some f.name, [.attribute ⟨"label", f.name⟩, .attribute ⟨"style", style.graphStyle⟩,
          .attribute ⟨"color", style.graphColor⟩] ++ f.content style ids⟩ ∧
      Dot.Graph.read ("digraph \x7b" ++ body ++ "\x7d") =
        .ok ⟨none, f.content style (lead ++ ids ·)⟩ := by
  have hw := h.wired
  obtain ⟨text, htext, hread⟩ := hw.read_dot style
  have hbody : f.dotLines style lead = .ok (Dot.lines (f.dotStatements style lead)) := by
    rw [dotLines, hw.dotBody_eq_ok]
    rfl
  have hbraced : Dot.Graph.read ("digraph \x7b" ++ Dot.lines (f.dotStatements style lead) ++ "\x7d") =
      .ok ⟨none, f.dotStatements style lead⟩ :=
    Dot.Graph.read_braced (dotStatements_isWritable lead)
  rw [exported_eq] at hread
  rw [dotStatements_eq] at hbody hbraced
  exact ⟨f.dotId, text, _, fun key hkey => Wired.lookup_dotIds hkey, htext, hbody, hread, hbraced⟩

/-- A name, a tag, a style and a lead that each try to end their quotes, and an id that needs a
number. -/
theorem read_exported_hostile :
    let a : BlockKey := ⟨⟨1⟩, 0⟩
    let b : BlockKey := ⟨⟨1⟩, 1⟩
    let f := (empty ⟨1⟩ "f\" \x7b \x7d" ⟨0⟩).run
      [.create "x\"];", .create "x\"];", .connect a b "\" -> \"", .connect b b "\\"]
    let style : Dot.Style := { nodeShape := "box, label=\"y\"", edgeColor := "\\\"" }
    let lead := "\\\"->\n"
    f.Reachable ∧ f.keys = [a, b] ∧ f.edges = [(a, ⟨"\" -> \"", b⟩), (b, ⟨"\\", b⟩)] ∧
      ∃ ids text body, (∀ key ∈ f.keys, f.dotIds.lookup key = some (ids key)) ∧
        f.dot style = .ok text ∧ f.dotLines style lead = .ok body ∧
        Dot.Graph.read text =
          .ok ⟨some f.name, [.attribute ⟨"label", f.name⟩, .attribute ⟨"style", style.graphStyle⟩,
            .attribute ⟨"color", style.graphColor⟩] ++ f.content style ids⟩ ∧
        Dot.Graph.read ("digraph \x7b" ++ body ++ "\x7d") =
          .ok ⟨none, f.content style (lead ++ ids ·)⟩ :=
  ⟨⟨_, _, _, _, rfl⟩, by decide, by decide, read_exported ⟨_, _, _, _, rfl⟩ _ _⟩

end Function

namespace Dot

theorem dropLead_append (lead name : String) : dropLead lead (lead ++ name) = name := by
  have h : lead.toList.isPrefixOf (lead ++ name).toList := by
    simp [List.isPrefixOf_iff_prefix]
  rw [dropLead, if_pos h, String.toList_append, ← String.length_toList, List.drop_left,
    String.ofList_toList]

end Dot

namespace Function

theorem name_exported : (f.exported style).name = f.name := by
  have hbody : (f.dotStatements style "").reverse.findSome? Dot.Statement.graphLabel? = none := by
    refine List.findSome?_eq_none_iff.mpr fun s hs => ?_
    rcases List.mem_append.mp (List.mem_reverse.mp hs) with hs | hs
    · obtain ⟨n, -, rfl⟩ := List.mem_map.mp hs
      rfl
    · obtain ⟨p, -, rfl⟩ := List.mem_map.mp hs
      rfl
  rw [Dot.Graph.name, exported, List.reverse_append, List.findSome?_append, hbody]
  rfl

/-! ## What the graph describes -/

/-- The link that an edge is exported as. -/
def linkOf (f : Function) (p : BlockKey × Edge) : Dot.Link :=
  ⟨f.dotId p.1, p.2.tag, f.dotId p.2.target⟩

/-- The id and the name that a block is exported with. -/
def labelOf (f : Function) (n : Node) : String × String := (f.dotId n.key, n.block.name)

theorem take_dotNode (k : Dot.Sketch) (n : Node) :
    k.take (n.block.dotNode ("" ++ f.dotId n.key) style) =
      k.mention (f.dotId n.key) n.block.name := by
  rw [String.empty_append]
  exact congrArg (k.mention _) (Dot.dropLead_append _ _)

theorem foldl_take_nodes {k : Dot.Sketch} {ns : List Node}
    (h : (k.ids ++ ns.map fun n => f.dotId n.key).Nodup) :
    (ns.map fun n => n.block.dotNode ("" ++ f.dotId n.key) style).foldl Dot.Sketch.take k =
      { k with blocks := k.blocks ++ ns.map f.labelOf } := by
  induction ns generalizing k with
  | nil => simp
  | cons n ns ih =>
      have hnew : f.dotId n.key ∉ k.ids := fun hmem =>
        (List.nodup_append.mp h).2.2 _ hmem _ List.mem_cons_self rfl
      have hids : (k.mention (f.dotId n.key) n.block.name).ids = k.ids ++ [f.dotId n.key] :=
        Dot.Sketch.ids_mention_of_not_mem hnew
      rw [List.map_cons, List.foldl_cons, take_dotNode, ih]
      · rw [Dot.Sketch.mention_of_not_mem hnew, List.map_cons, List.append_assoc]
        rfl
      · rwa [hids, List.append_assoc]

theorem foldl_take_edges {k : Dot.Sketch} {ps : List (BlockKey × Edge)}
    (h : ∀ p ∈ ps, f.dotId p.1 ∈ k.ids ∧ f.dotId p.2.target ∈ k.ids) :
    (ps.map fun p => p.2.dotEdge ("" ++ f.dotId p.1) ("" ++ f.dotId p.2.target) style).foldl
      Dot.Sketch.take k = { k with links := k.links ++ ps.map f.linkOf } := by
  induction ps generalizing k with
  | nil => simp
  | cons p ps ih =>
      obtain ⟨hsrc, hdst⟩ := h p List.mem_cons_self
      have htake : k.take (p.2.dotEdge ("" ++ f.dotId p.1) ("" ++ f.dotId p.2.target) style) =
          k.link (f.linkOf p) := by
        rw [String.empty_append, String.empty_append]
        simp only [Dot.Sketch.take, Edge.dotEdge, Dot.Sketch.mention_of_mem hsrc,
          Dot.Sketch.mention_of_mem hdst]
        rfl
      have hrest := ih (k := k.link (f.linkOf p)) fun q hq => h q (List.mem_cons_of_mem p hq)
      rw [List.map_cons, List.foldl_cons, htake, hrest, List.map_cons]
      simp [Dot.Sketch.link]

/-- The graph describes one id for each block and one link for each edge. -/
theorem Wired.sketch_exported (h : f.Wired) (style : Dot.Style) :
    (f.exported style).sketch = ⟨f.nodes.map f.labelOf, f.edges.map f.linkOf⟩ := by
  have hids : (f.nodes.map fun n => f.dotId n.key) = f.keys.map f.dotId := by
    rw [keys, List.map_map]
    rfl
  have hmem : ∀ {u}, u ∈ f.keys → f.dotId u ∈ (f.nodes.map f.labelOf).map (·.1) := by
    intro u hu
    rw [List.map_map]
    exact hids ▸ List.mem_map_of_mem hu
  rw [Dot.Graph.sketch, exported, List.foldl_append, dotStatements, List.foldl_append]
  have hheading : (style.heading f.name).foldl Dot.Sketch.take {} = {} := rfl
  rw [hheading, foldl_take_nodes, foldl_take_edges]
  · simp
  · intro p hp
    obtain ⟨hu, he⟩ := mem_edges_iff.mp hp
    exact ⟨hmem hu, hmem (h.target_mem he)⟩
  · rw [hids]
    exact h.nodup_map_dotId

theorem Wired.tagsDiffer_exported (h : f.Wired) (style : Dot.Style) :
    (f.exported style).TagsDiffer := by
  have hlinks : (f.exported style).links = f.edges.map f.linkOf := by
    have hsketch := Dot.Sketch.links_takeAll {} (f.exported style).statements
    rw [List.nil_append] at hsketch
    exact hsketch.symm.trans (congrArg Dot.Sketch.links (h.sketch_exported style))
  have hmap : (f.edges.map f.linkOf).map (fun l => (l.src, l.tag)) =
      (f.edges.map fun p => (p.1, p.2.tag)).map fun q => (f.dotId q.1, q.2) := by
    simp only [List.map_map]
    rfl
  rw [Dot.Graph.TagsDiffer, hlinks, hmap]
  refine h.nodup_edges.map_on ?_
  rintro ⟨u, t⟩ hu ⟨v, t'⟩ hv heq
  obtain ⟨p, hp, hpu⟩ := List.mem_map.mp hu
  obtain ⟨q, hq, hqv⟩ := List.mem_map.mp hv
  obtain ⟨rfl, rfl⟩ := Prod.mk.inj hpu
  obtain ⟨rfl, rfl⟩ := Prod.mk.inj hqv
  obtain ⟨hid, htag⟩ := Prod.mk.inj heq
  rw [h.dotId_inj (mem_edges_iff.mp hp).1 (mem_edges_iff.mp hq).1 hid]
  exact congrArg _ htag

end Function

end FlowGraph
