import FlowGraph.Proofs.Dot.Described

/-!
Nodes among edges. The statement that mentions an id first names its block, so the label of a node
counts unless an edge comes first, and a node can be moved past everything but the first mention of
its id.
-/
namespace FlowGraph.Dot

variable {f : Function} {g g' : Graph} {id : String} {attributes : List Attribute}
  {ss ts done rest : List Statement}

def Statement.declared? : Statement → Option String
  | .node id _ => some id
  | _ => none

namespace Graph

/-- No id has two nodes. -/
def DeclaresOnce (g : Graph) : Prop := (g.statements.filterMap Statement.declared?).Nodup

instance (g : Graph) : Decidable g.DeclaresOnce := inferInstanceAs (Decidable (List.Nodup _))

/-! ## Where the name comes from -/

theorem exists_first (h : id ∈ done.flatMap Statement.mentions) :
    ∃ s, done.find? (id ∈ ·.mentions) = some s := by
  obtain ⟨s, hs, hid⟩ := List.mem_flatMap.mp h
  rw [← Option.isSome_iff_exists, List.find?_isSome]
  exact ⟨s, hs, decide_eq_true hid⟩

/-- What comes after the first mention of an id has no say. -/
theorem blockName_of_mem (hg : g.statements = done ++ ss)
    (h : id ∈ done.flatMap Statement.mentions) :
    g.blockName id = (⟨g.id, done⟩ : Graph).blockName id := by
  obtain ⟨s, hs⟩ := exists_first h
  simp only [blockName, hg, List.find?_append, hs, Option.some_or]

theorem blockName_of_not_mem (hg : g.statements = done ++ ss)
    (h : id ∉ done.flatMap Statement.mentions) :
    g.blockName id = (⟨g.id, ss⟩ : Graph).blockName id := by
  have hnone : done.find? (id ∈ ·.mentions) = none := by
    simpa [List.find?_eq_none] using h
  simp only [blockName, hg, List.find?_append, hnone, Option.none_or]

theorem blockName_node (gid : Option String) (id : String) (attributes : List Attribute)
    (rest : List Statement) :
    (⟨gid, .node id attributes :: rest⟩ : Graph).blockName id = nodeName id attributes := by
  have hfind : (Statement.node id attributes :: rest).find? (id ∈ ·.mentions) =
      some (.node id attributes) := List.find?_cons_of_pos (by simp [Statement.mentions])
  simp only [blockName, hfind]

/-- Only edges mention an id before its single node. -/
theorem blockName_of_late (hg : g.statements = done ++ .node id attributes :: rest)
    (honce : g.DeclaresOnce) (h : id ∈ done.flatMap Statement.mentions) : g.blockName id = id := by
  obtain ⟨s, hfind⟩ := exists_first h
  have hmention : id ∈ s.mentions := by simpa using List.find?_some hfind
  simp only [blockName, hg, List.find?_append, hfind, Option.some_or]
  cases s with
  | «attribute» a => rfl
  | defaults target attributes => rfl
  | edge src dst attributes => rfl
  | node id' attributes' =>
      obtain rfl : id = id' := by simpa [Statement.mentions] using hmention
      have hdeclared : id ∈ done.filterMap Statement.declared? :=
        List.mem_filterMap.mpr ⟨_, List.mem_of_find?_eq_some hfind, rfl⟩
      rw [DeclaresOnce, hg, List.filterMap_append, List.nodup_append] at honce
      exact absurd rfl (honce.2.2 id hdeclared id (by simp [Statement.declared?]))

/-! ## Moving nodes -/

/-- A node passes a statement that does not mention its id, or any statement once the id is known.
-/
inductive Moved : List Statement → List Statement → Prop where
  | refl (ss : List Statement) : Moved ss ss
  | symm {ss ts : List Statement} : Moved ss ts → Moved ts ss
  | trans {ss ts us : List Statement} : Moved ss ts → Moved ts us → Moved ss us
  | past (done : List Statement) (s : Statement) (id : String) (attributes : List Attribute)
      (rest : List Statement) : id ∉ s.mentions ∨ id ∈ done.flatMap Statement.mentions →
      Moved (done ++ s :: .node id attributes :: rest) (done ++ .node id attributes :: s :: rest)

theorem find?_past {s : Statement} (h : id ∉ s.mentions ∨ id ∈ done.flatMap Statement.mentions)
    (u : String) :
    (done ++ s :: .node id attributes :: rest).find? (u ∈ ·.mentions) =
      (done ++ .node id attributes :: s :: rest).find? (u ∈ ·.mentions) := by
  rw [List.find?_append, List.find?_append]
  by_cases hu : u = id
  · subst hu
    rcases h with h | h
    · congr 1
      simp [List.find?_cons, h]
    · obtain ⟨t, hfind⟩ := exists_first h
      rw [hfind, Option.some_or, Option.some_or]
  · congr 1
    simp [List.find?_cons, Statement.mentions, hu]

namespace Moved

theorem perm (h : Moved ss ts) : ss.Perm ts := by
  induction h with
  | refl ss => exact .refl ss
  | symm _ ih => exact ih.symm
  | trans _ _ ih ih' => exact ih.trans ih'
  | past done s id attributes rest _ => exact .append_left done (.swap _ _ rest)

theorem find?_eq (h : Moved ss ts) (u : String) :
    ss.find? (u ∈ ·.mentions) = ts.find? (u ∈ ·.mentions) := by
  induction h with
  | refl ss => rfl
  | symm _ ih => exact ih.symm
  | trans _ _ ih ih' => exact ih.trans ih'
  | past done s id attributes rest h => exact find?_past h u

theorem links_eq (h : Moved ss ts) :
    ss.filterMap Statement.link? = ts.filterMap Statement.link? := by
  induction h with
  | refl ss => rfl
  | symm _ ih => exact ih.symm
  | trans _ _ ih ih' => exact ih.trans ih'
  | past done s id attributes rest _ =>
      simp only [List.filterMap_append, List.filterMap_cons, Statement.link?]

end Moved

theorem blockName_moved (h : Moved g.statements g'.statements) (id : String) :
    g'.blockName id = g.blockName id := by
  rw [blockName, blockName, h.find?_eq]

theorem links_moved (h : Moved g.statements g'.statements) : g'.links = g.links := h.links_eq.symm

theorem nodup_ids (g : Graph) : g.ids.Nodup := g.ids_sketch ▸ g.sound_sketch.nodup

theorem ids_moved (h : Moved g.statements g'.statements) : g'.ids.Perm g.ids := by
  refine (List.perm_ext_iff_of_nodup g'.nodup_ids g.nodup_ids).mpr fun id => ?_
  rw [mem_ids_iff, mem_ids_iff, (h.perm.flatMap_right Statement.mentions).mem_iff]

/-! ## Blocks -/

/-- A graph with one node at most for each id, built into a function without blocks. A block is
named by the label of its node if the node comes before every edge at its id, and by the id if an
edge comes first. Nodes that are moved without changing which it is change the order of the blocks
and nothing else. -/
theorem names_of_nodes (hf : f.Reachable) (he : f.keys = []) (honce : g.DeclaresOnce)
    (hok : (g.populate f).2 = none) :
    (∃ key, g.Describes (g.populate f).1.function key ∧
      ∀ done id attributes rest, g.statements = done ++ .node id attributes :: rest →
        ((g.populate f).1.function.block? (key id)).map (·.name) =
          some (if id ∈ done.flatMap Statement.mentions then id else nodeName id attributes)) ∧
      ∀ g' : Graph, Moved g.statements g'.statements → (g'.populate f).2 = none ∧
        (∃ key, g'.Describes (g'.populate f).1.function key) ∧ g'.ids.Perm g.ids ∧
        (∀ id, g'.blockName id = g.blockName id) ∧ g'.links = g.links := by
  have hbuilt : ∀ g : Graph, g.TagsDiffer → (g.populate f).2 = none ∧
      ∃ key, g.Describes (g.populate f).1.function key := by
    intro g hg
    obtain ⟨b, hb, hfollows⟩ := populate_of_tagsDiffer hf.wired hg
    rw [hb, hfollows.function_eq]
    exact ⟨rfl, _, describes_build hf.wired he g⟩
  have hg := (populate_eq_none_iff hf.wired).mp hok
  refine ⟨?_, fun g' hmoved => ?_⟩
  · obtain ⟨-, key, hdescribes⟩ := hbuilt g hg
    refine ⟨key, hdescribes, fun done id attributes rest hsplit => ?_⟩
    have hid : id ∈ g.ids := by
      rw [mem_ids_iff, hsplit]
      simp [Statement.mentions]
    rw [hdescribes.block_eq id hid, Option.map_some]
    split
    · next hlate => rw [blockName_of_late hsplit honce hlate]
    · next hfirst => rw [blockName_of_not_mem hsplit hfirst, blockName_node]
  · have hg' : g'.TagsDiffer := by
      rw [TagsDiffer, links_moved hmoved]
      exact hg
    obtain ⟨hok', hdescribes⟩ := hbuilt g' hg'
    exact ⟨hok', hdescribes, ids_moved hmoved, blockName_moved hmoved, links_moved hmoved⟩

/-- A node behind an edge that has nothing to do with it, and one behind an edge at its id. -/
theorem names_of_nodes_among_edges :
    let f := (Function.empty ⟨1⟩ "f" ⟨0⟩).run []
    let g : Graph := ⟨none, [.edge "a" "b" [], .node "c" [⟨"label", "BB-C"⟩],
      .node "b" [⟨"label", "BB-B"⟩], .edge "b" "c" []]⟩
    let g' : Graph := ⟨none, [.node "c" [⟨"label", "BB-C"⟩], .edge "a" "b" [],
      .node "b" [⟨"label", "BB-B"⟩], .edge "b" "c" []]⟩
    f.Reachable ∧ f.keys = [] ∧ g.DeclaresOnce ∧ (g.populate f).2 = none ∧
      (∃ key, g.Describes (g.populate f).1.function key ∧
        ((g.populate f).1.function.block? (key "c")).map (·.name) = some "C" ∧
        ((g.populate f).1.function.block? (key "b")).map (·.name) = some "b") ∧
      Moved g.statements g'.statements ∧ g'.ids.Perm g.ids := by
  intro f g g'
  have hf : f.Reachable := ⟨_, _, _, _, rfl⟩
  have hok : (g.populate f).2 = none := by decide
  have hmoved : Moved g.statements g'.statements := .past [] _ "c" _ _ (.inl (by decide))
  obtain ⟨⟨key, hdescribes, hnames⟩, hmove⟩ := names_of_nodes hf (by decide) (by decide) hok
  exact ⟨hf, by decide, by decide, hok,
    ⟨key, hdescribes, hnames [_] "c" _ _ rfl, hnames [_, _] "b" _ _ rfl⟩, hmoved,
    (hmove g' hmoved).2.2.1⟩

/-- The label of the only node at `b` is lost behind the edge, and kept ahead of it. -/
theorem label_lost_behind_edge :
    let f := Function.empty ⟨1⟩ "f" ⟨0⟩
    let late : Graph := ⟨some "f", [.edge "a" "b" [], .node "b" [⟨"label", "BB-B"⟩]]⟩
    let early : Graph := ⟨some "f", [.node "b" [⟨"label", "BB-B"⟩], .edge "a" "b" []]⟩
    late.DeclaresOnce ∧ f.keys = [] ∧ (late.populate f).2 = none ∧ (early.populate f).2 = none ∧
      nodeName "b" [⟨"label", "BB-B"⟩] = "B" ∧
      (late.populate f).1.function.nodes.map (·.block.name) = ["a", "b"] ∧
      (early.populate f).1.function.nodes.map (·.block.name) = ["B", "a"] := by
  decide

end Graph

end FlowGraph.Dot
