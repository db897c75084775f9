import FlowGraph.Proofs.Dot.Declared

/-!
A graph that is built into a function with blocks of its own. What was there stays as it was. A
graph with a repeated tag is built up to the edge that repeats it, whose ends still get their blocks.
-/
namespace FlowGraph.Dot

variable {f : Function} {g : Graph} {id src dst : String} {attributes : List Attribute}
  {done rest : List Statement}

namespace Graph

/-- The edge behind `done` is the first one that repeats a source and a tag. -/
structure ClashesAt (g : Graph) (done : List Statement) (src dst : String)
    (attributes : List Attribute) (rest : List Statement) : Prop where
  statements_eq : g.statements = done ++ .edge src dst attributes :: rest
  tagsDiffer : (⟨g.id, done⟩ : Graph).TagsDiffer
  repeated : ∃ l ∈ (⟨g.id, done⟩ : Graph).links, l.src = src ∧ l.tag = edgeTag attributes

theorem src_mem_of_repeated
    (h : ∃ l ∈ (⟨g.id, done⟩ : Graph).links, l.src = src ∧ l.tag = edgeTag attributes) :
    src ∈ (⟨g.id, done⟩ : Graph).sketch.ids := by
  obtain ⟨l, hl, rfl, -⟩ := h
  rw [← links_sketch] at hl
  exact (sound_sketch ⟨g.id, done⟩).src_mem l hl

/-- With its target met, the sketch of what comes before an edge has the ids of both. -/
theorem blocks_mention_sketch (hsrc : src ∈ (⟨g.id, done⟩ : Graph).sketch.ids) (dst : String)
    (attributes : List Attribute) :
    ((⟨g.id, done⟩ : Graph).sketch.mention dst dst).blocks =
      (⟨g.id, done ++ [.edge src dst attributes]⟩ : Graph).sketch.blocks := by
  have hlast : (⟨g.id, done ++ [.edge src dst attributes]⟩ : Graph).sketch =
      (⟨g.id, done⟩ : Graph).sketch.take (.edge src dst attributes) := by
    simp [sketch]
  rw [hlast, Sketch.take, Sketch.mention_of_mem hsrc]
  rfl

theorem adds_clash (hf : f.Wired) (h : g.ClashesAt done src dst attributes rest) :
    g.Adds f (⟨g.id, done ++ [.edge src dst attributes]⟩ : Graph).ids (⟨g.id, done⟩ : Graph).links
      (((⟨g.id, done⟩ : Graph).sketch.mention dst dst).build f)
      (((⟨g.id, done⟩ : Graph).sketch.mention dst dst).key f) := by
  let upto : Graph := ⟨g.id, done ++ [.edge src dst attributes]⟩
  have hsplit : g.statements = upto.statements ++ rest := by simp [upto, h.statements_eq]
  have hblocks := blocks_mention_sketch (src_mem_of_repeated h.repeated) dst attributes
  have hids : ((⟨g.id, done⟩ : Graph).sketch.mention dst dst).ids = upto.ids := by
    rw [Sketch.ids, hblocks, ← ids_sketch]
    rfl
  have hadds : g.Adds f ((⟨g.id, done⟩ : Graph).sketch.mention dst dst).ids
      ((⟨g.id, done⟩ : Graph).sketch.mention dst dst).links
      (((⟨g.id, done⟩ : Graph).sketch.mention dst dst).build f)
      (((⟨g.id, done⟩ : Graph).sketch.mention dst dst).key f) := by
    refine adds_build hf ((sound_sketch ⟨g.id, done⟩).mention dst dst) fun id hid => ?_
    rw [hids] at hid
    -- The id has been mentioned, so the statements behind the clash do not change its name.
    rw [hblocks, sketch_eq, blockName_of_mem hsplit (mem_ids_iff.mp hid)]
    exact List.mem_map_of_mem hid
  rwa [hids, Sketch.links_mention, links_sketch] at hadds

/-- The refused edge is told by the name of the block that its source has got. -/
theorem populate_of_clashesAt (hf : f.Wired) (h : g.ClashesAt done src dst attributes rest) :
    ∃ b, g.populate f =
        (b, some (.duplicateTag f.name (g.blockName src) (edgeTag attributes))) ∧
      b.Follows ((⟨g.id, done⟩ : Graph).sketch.mention dst dst) f := by
  obtain ⟨b, name, hname, hb, hfollows⟩ :=
    populate_of_clash hf h.statements_eq h.tagsDiffer h.repeated
  rw [sketch_eq] at hname
  obtain ⟨id, hid, heq⟩ := List.mem_map.mp hname
  obtain ⟨rfl, rfl⟩ := Prod.mk.inj heq
  rw [← blockName_of_mem h.statements_eq (mem_ids_iff.mp hid)] at hb
  exact ⟨b, hb, hfollows⟩

theorem exists_clashesAt (h : ¬ g.TagsDiffer) :
    ∃ done src dst attributes rest, g.ClashesAt done src dst attributes rest := by
  obtain ⟨done, src, dst, attributes, rest, hsplit, hdiffer, hrepeated⟩ := exists_clash h
  exact ⟨done, src, dst, attributes, rest, hsplit, hdiffer, hrepeated⟩

/-- A graph is built unless one of its edges repeats the source and the tag of an earlier one. Then
the first such edge is refused, and what was described before it stands, and the blocks of its two
ends as well. In both cases what was there before is untouched. -/
theorem populate_exact (h : f.Reachable) (g : Graph) :
    ((g.populate f).2 = none ↔ g.TagsDiffer) ∧
      (g.TagsDiffer → ∃ key, g.Adds f g.ids g.links (g.populate f).1.function key) ∧
      (¬ g.TagsDiffer → ∃ done src dst attributes rest, g.ClashesAt done src dst attributes rest) ∧
      ∀ done src dst attributes rest, g.ClashesAt done src dst attributes rest →
        (g.populate f).2 = some (.duplicateTag f.name (g.blockName src) (edgeTag attributes)) ∧
          ∃ key, g.Adds f (⟨g.id, done ++ [.edge src dst attributes]⟩ : Graph).ids
            (⟨g.id, done⟩ : Graph).links (g.populate f).1.function key := by
  have hf := h.wired
  refine ⟨populate_eq_none_iff hf, fun hg => ?_, exists_clashesAt, ?_⟩
  · obtain ⟨b, hb, hfollows⟩ := populate_of_tagsDiffer hf hg
    rw [hb, hfollows.function_eq]
    exact ⟨_, adds_sketch hf g⟩
  · intro done src dst attributes rest hclash
    obtain ⟨b, hb, hfollows⟩ := populate_of_clashesAt hf hclash
    rw [hb, hfollows.function_eq]
    exact ⟨rfl, _, adds_clash hf hclash⟩

/-- The function has blocks under the names that the graph uses, with an edge and without an entry.
The refused edge is the only one that mentions `c`, and the edge behind it comes to nothing. -/
theorem populate_exact_refused :
    let k (serial : Nat) : BlockKey := ⟨⟨1⟩, serial⟩
    let f := (Function.empty ⟨1⟩ "f" ⟨0⟩).run
      [.create "x", .create "A", .create "b", .connect (k 1) (k 2) "t", .delete (k 0)]
    let done : List Statement :=
      [.node "a" [⟨"label", "BB-A"⟩], .edge "a" "b" [⟨"label", "t"⟩], .edge "b" "a" []]
    let rest : List Statement := [.edge "c" "d" []]
    let g : Graph := ⟨none, done ++ .edge "a" "c" [⟨"label", "t"⟩] :: rest⟩
    f.Reachable ∧ ¬ g.TagsDiffer ∧ g.ClashesAt done "a" "c" [⟨"label", "t"⟩] rest ∧
      (g.populate f).2 = some (.duplicateTag "f" "A" "t") ∧
      ∃ key, g.Adds f ["a", "b", "c"] [⟨"a", "t", "b"⟩, ⟨"b", "", "a"⟩]
        (g.populate f).1.function key := by
  intro k f done rest g
  have hf : f.Reachable := ⟨_, _, _, _, rfl⟩
  have hclash : g.ClashesAt done "a" "c" [⟨"label", "t"⟩] rest := ⟨rfl, by decide, by decide⟩
  obtain ⟨-, -, -, hrefused⟩ := populate_exact hf g
  obtain ⟨herror, key, hadds⟩ := hrefused _ _ _ _ _ hclash
  exact ⟨hf, by decide, hclash, herror, key, hadds⟩

end Graph

end FlowGraph.Dot
