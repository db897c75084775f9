import FlowGraph.Dot.Building
import FlowGraph.Proofs.Dot.Sketch

/-!
Building follows a sketch. At every moment the function is what it was at first, with the blocks and
edges of the sketch behind, up to the first edge that repeats a source and a tag.
-/
namespace FlowGraph.Dot

/-! ## Building statement by statement -/

theorem lookup_map_pair {α β : Type} [DecidableEq α] (h : α → β) (l : List α) (a : α) :
    (l.map fun c => (c, h c)).lookup a = if a ∈ l then some (h a) else none := by
  induction l with
  | nil => rfl
  | cons c l ih =>
      rw [List.map_cons, List.lookup_cons]
      by_cases hc : a = c
      · simp [hc]
      · simp [hc, beq_false_of_ne hc, ih]

variable {k : Sketch} {f : Function} {b : Building} {id name : String}

/-- A building has come as far as a sketch. -/
structure Building.Follows (b : Building) (k : Sketch) (f : Function) : Prop where
  function_eq : b.function = k.build f
  known_eq : b.known = k.ids.map fun id => (id, k.key f id)

namespace Building.Follows

theorem start (f : Function) : Follows { function := f } {} f where
  function_eq := by simp [Sketch.build]
  known_eq := rfl

theorem mention (h : b.Follows k f) (hk : k.Sound) (id name : String) :
    (b.mention id name).1.Follows (k.mention id name) f ∧
      (b.mention id name).2 = (k.mention id name).key f id := by
  have hlookup : b.known.lookup id = if id ∈ k.ids then some (k.key f id) else none := by
    rw [h.known_eq, lookup_map_pair]
  by_cases hid : id ∈ k.ids
  · rw [Sketch.mention_of_mem hid, Building.mention, hlookup, if_pos hid]
    exact ⟨h, rfl⟩
  · have hcreate : (k.build f).createBlock name =
        ((k.mention id name).build f, (k.mention id name).key f id) :=
      Sketch.createBlock_build hk hid
    rw [Building.mention, hlookup, if_neg hid, h.function_eq, hcreate]
    refine ⟨⟨rfl, ?_⟩, rfl⟩
    rw [Sketch.ids_mention_of_not_mem hid, List.map_append, h.known_eq]
    refine congrArg (· ++ _) (List.map_congr_left fun u hu => ?_)
    rw [Sketch.key_mention hu]

/-- A statement is taken in unless its tag is in use at its source. -/
theorem take (h : b.Follows k f) (hf : f.Wired) (hk : k.Sound) {s : Statement}
    (htag : ∀ l ∈ s.link?, ∀ l' ∈ k.links, l'.src = l.src → l'.tag ≠ l.tag) :
    ∃ b', b.take s = (b', none) ∧ b'.Follows (k.take s) f := by
  cases s with
  | «attribute» a => exact ⟨b, rfl, h⟩
  | defaults target attributes => exact ⟨b, rfl, h⟩
  | node id attributes => exact ⟨_, rfl, (h.mention hk id _).1⟩
  | edge src dst attributes =>
      obtain ⟨hs, hkeys⟩ := h.mention hk src src
      obtain ⟨hd, hkeyd⟩ := hs.mention (hk.mention src src) dst dst
      have hsrc : src ∈ (k.mention src src).ids := Sketch.mem_ids_mention_self
      have hdst : dst ∈ ((k.mention src src).mention dst dst).ids := Sketch.mem_ids_mention_self
      have hnew : ∀ l ∈ ((k.mention src src).mention dst dst).links, l.src = src →
          l.tag ≠ edgeTag attributes := by simpa using htag _ rfl
      have hconnect := Sketch.connect_build hf ((hk.mention src src).mention dst dst)
        (Sketch.mem_ids_mention.mpr (.inl hsrc)) hdst hnew
      rw [Sketch.key_mention hsrc, ← hkeys, ← hkeyd, ← hd.function_eq] at hconnect
      simp only [Building.take, hconnect]
      exact ⟨_, rfl, rfl, hd.known_eq⟩

/-- An edge whose tag is in use at its source is refused, and by then its ends have their blocks. -/
theorem take_clash (h : b.Follows k f) (hf : f.Wired) (hk : k.Sound) {src name : String}
    (dst : String) {attributes : List Attribute} (hsrc : (src, name) ∈ k.blocks)
    (hclash : ∃ l ∈ k.links, l.src = src ∧ l.tag = edgeTag attributes) :
    ∃ b', b.take (.edge src dst attributes) =
        (b', some (.duplicateTag f.name name (edgeTag attributes))) ∧
      b'.Follows (k.mention dst dst) f := by
  have hid : src ∈ k.ids := Sketch.mem_ids hsrc
  obtain ⟨hs, hkeys⟩ := h.mention hk src src
  rw [Sketch.mention_of_mem hid] at hs hkeys
  obtain ⟨hd, hkeyd⟩ := hs.mention hk dst dst
  have hdst : dst ∈ (k.mention dst dst).ids := Sketch.mem_ids_mention_self
  have hblock : (src, name) ∈ (k.mention dst dst).blocks := Sketch.mem_blocks_mention hsrc
  have hconnect := Sketch.connect_build_clash hf (hk.mention dst dst) hblock hdst
    (by simpa using hclash)
  rw [Sketch.key_mention hid, ← hkeys, ← hkeyd, ← hd.function_eq] at hconnect
  simp only [Building.take, hconnect]
  exact ⟨_, rfl, hd.function_eq, hd.known_eq⟩

theorem takeAll (h : b.Follows k f) (hf : f.Wired) (hk : k.Sound) {ss : List Statement}
    (htags : ((k.links ++ ss.filterMap Statement.link?).map fun l => (l.src, l.tag)).Nodup) :
    ∃ b', b.takeAll ss = (b', none) ∧ b'.Follows (ss.foldl Sketch.take k) f := by
  -- The tags of the links made so far and of those still to come differ together.
  induction ss generalizing b k with
  | nil => exact ⟨b, rfl, h⟩
  | cons s ss ih =>
      have hnew : ∀ l ∈ s.link?, ∀ l' ∈ k.links, l'.src = l.src → l'.tag ≠ l.tag := by
        intro l hl l' hl' hsrc htag
        rw [List.filterMap_cons_some hl, List.map_append, List.nodup_append] at htags
        exact htags.2.2 _ (List.mem_map_of_mem hl') _ List.mem_cons_self
          (by simp [hsrc, htag])
      obtain ⟨b₁, hb₁, h₁⟩ := h.take hf hk hnew
      obtain ⟨b₂, hb₂, h₂⟩ := ih h₁ (hk.take s) (Sketch.links_append_cons k s ss ▸ htags)
      refine ⟨b₂, ?_, h₂⟩
      rw [Building.takeAll, hb₁]
      exact hb₂

end Building.Follows

theorem Building.takeAll_append (b : Building) (ss ts : List Statement) :
    b.takeAll (ss ++ ts) =
      match b.takeAll ss with
      | (b', none) => b'.takeAll ts
      | (b', some e) => (b', some e) := by
  induction ss generalizing b with
  | nil => rfl
  | cons s ss ih =>
      rw [List.cons_append, Building.takeAll, Building.takeAll]
      cases b.take s with
      | mk b₁ failed =>
          cases failed with
          | none => exact ih b₁
          | some e => rfl

/-! ## Building a graph -/

namespace Graph

variable {g : Graph} {done rest : List Statement} {src dst : String} {attributes : List Attribute}

/-- A graph without a repeated tag is built as it is sketched. -/
theorem populate_of_tagsDiffer (hf : f.Wired) (hg : g.TagsDiffer) :
    ∃ b, g.populate f = (b, none) ∧ b.Follows g.sketch f :=
  (Building.Follows.start f).takeAll hf .empty hg

/-- A graph is built up to the first edge that repeats a source and a tag. The target of that edge
has got its block. -/
theorem populate_of_clash (hf : f.Wired)
    (hg : g.statements = done ++ .edge src dst attributes :: rest)
    (hdone : (⟨g.id, done⟩ : Graph).TagsDiffer)
    (hclash : ∃ l ∈ (⟨g.id, done⟩ : Graph).links, l.src = src ∧ l.tag = edgeTag attributes) :
    ∃ b name, (src, name) ∈ (⟨g.id, done⟩ : Graph).sketch.blocks ∧
      g.populate f = (b, some (.duplicateTag f.name name (edgeTag attributes))) ∧
      b.Follows ((⟨g.id, done⟩ : Graph).sketch.mention dst dst) f := by
  obtain ⟨b₁, hb₁, h₁⟩ := populate_of_tagsDiffer hf hdone
  have hk := sound_sketch ⟨g.id, done⟩
  rw [← links_sketch] at hclash
  obtain ⟨l, hl, rfl, htag⟩ := hclash
  obtain ⟨name, hname⟩ := Sketch.exists_block (hk.src_mem l hl)
  obtain ⟨b₂, hb₂, h₂⟩ := h₁.take_clash hf hk dst hname ⟨l, hl, rfl, htag⟩
  refine ⟨b₂, name, hname, ?_, h₂⟩
  have hb₁' : (Building.mk f [] []).takeAll done = (b₁, none) := hb₁
  simp only [populate, hg, Building.takeAll_append, hb₁', Building.takeAll, hb₂]

/-- A graph with a repeated tag is built into a part of what it describes. -/
theorem populate_of_not_tagsDiffer (hf : f.Wired) (hg : ¬ g.TagsDiffer) :
    ∃ (b : Building) (k : Sketch) (block tag : String),
      g.populate f = (b, some (.duplicateTag f.name block tag)) ∧ k.Sound ∧ b.Follows k f := by
  obtain ⟨done, src, dst, attributes, rest, hsplit, hdone, hclash⟩ := exists_clash hg
  obtain ⟨b, name, -, hb, h⟩ := populate_of_clash hf hsplit hdone hclash
  exact ⟨b, _, name, _, hb, (sound_sketch ⟨g.id, done⟩).mention dst dst, h⟩

theorem exists_follows (hf : f.Wired) (g : Graph) :
    ∃ k : Sketch, k.Sound ∧ (g.populate f).1.Follows k f := by
  by_cases hg : g.TagsDiffer
  · obtain ⟨b, hb, h⟩ := populate_of_tagsDiffer hf hg
    exact ⟨g.sketch, g.sound_sketch, hb ▸ h⟩
  · obtain ⟨b, k, block, tag, hb, hk, h⟩ := populate_of_not_tagsDiffer hf hg
    exact ⟨k, hk, hb ▸ h⟩

end Graph

end FlowGraph.Dot
