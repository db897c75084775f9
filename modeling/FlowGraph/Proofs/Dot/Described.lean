import FlowGraph.Proofs.Dot.Building

/-!
A graph is built into exactly the blocks and edges that it describes. The sketch of a graph is its
outline: the distinct ids under the names of their first mention, and the links.
-/
namespace FlowGraph.Dot

variable {f : Function} {g : Graph} {id : String} {s : Statement} {ss : List Statement}

/-! ## First mentions -/

/-- The ids that a statement mentions, with the names that their blocks get if they are new. -/
def Statement.names : Statement → List (String × String)
  | .attribute _ | .defaults _ _ => []
  | .node id attributes => [(id, nodeName id attributes)]
  | .edge src dst _ => [(src, src), (dst, dst)]

theorem Statement.map_fst_names (s : Statement) : s.names.map (·.1) = s.mentions := by
  cases s <;> rfl

/-- Adds a pair unless its first part is there. -/
def meet (known : List (String × String)) (p : String × String) : List (String × String) :=
  if p.1 ∈ known.map (·.1) then known else known ++ [p]

theorem Sketch.blocks_mention (k : Sketch) (id name : String) :
    (k.mention id name).blocks = meet k.blocks (id, name) := by
  by_cases h : id ∈ k.ids
  · rw [mention_of_mem h]
    exact (if_pos h).symm
  · rw [mention_of_not_mem h]
    exact (if_neg h).symm

theorem Sketch.blocks_take (k : Sketch) (s : Statement) :
    (k.take s).blocks = s.names.foldl meet k.blocks := by
  cases s with
  | «attribute» a => rfl
  | defaults target attributes => rfl
  | node id attributes => exact k.blocks_mention id _
  | edge src dst attributes =>
      rw [Statement.names, List.foldl_cons, List.foldl_cons, ← Sketch.blocks_mention,
        ← Sketch.blocks_mention]
      rfl

theorem Sketch.blocks_takeAll (k : Sketch) (ss : List Statement) :
    (ss.foldl Sketch.take k).blocks = (ss.flatMap Statement.names).foldl meet k.blocks := by
  induction ss generalizing k with
  | nil => rfl
  | cons s ss ih => rw [List.foldl_cons, ih, blocks_take, List.flatMap_cons, List.foldl_append]

theorem eraseDups_append_singleton {α : Type} [DecidableEq α] (l : List α) (a : α) :
    (l ++ [a]).eraseDups = l.eraseDups ++ if a ∈ l then [] else [a] := by
  rw [List.eraseDups_append]
  by_cases h : a ∈ l <;> simp [List.removeAll, List.eraseDups_cons, h]

/-- Of the pairs with the same first part the first one is kept. -/
theorem foldl_meet (ps : List (String × String)) :
    ps.foldl meet [] = (ps.map (·.1)).eraseDups.map fun id => (id, (ps.lookup id).getD id) := by
  induction ps using List.reverseRecOn with
  | nil => rfl
  | append_singleton ps p ih =>
      have hold : (ps.map (·.1)).eraseDups.map (fun id => (id, ((ps ++ [p]).lookup id).getD id)) =
          ps.foldl meet [] := by
        rw [ih]
        refine List.map_congr_left fun id hid => ?_
        rw [List.lookup_append]
        cases hl : ps.lookup id with
        | some name => rfl
        | none =>
            obtain ⟨q, hq, rfl⟩ := List.mem_map.mp (List.mem_eraseDups.mp hid)
            simpa using List.lookup_eq_none_iff.mp hl q hq
      have hids : p.1 ∈ (ps.foldl meet []).map (·.1) ↔ p.1 ∈ ps.map (·.1) := by
        simp [ih]
      rw [List.foldl_append, List.map_append, List.map_singleton, eraseDups_append_singleton,
        List.map_append, hold]
      by_cases hp : p.1 ∈ ps.map (·.1)
      · simp only [List.foldl_cons, List.foldl_nil, meet, hids, hp, ↓reduceIte, List.map_nil,
          List.append_nil]
      · have hnew : ps.lookup p.1 = none := by
          refine List.lookup_eq_none_iff.mpr fun q hq => ?_
          have hne : p.1 ≠ q.1 := fun he => hp (he ▸ List.mem_map_of_mem hq)
          simpa using hne
        have hself : [p].lookup p.1 = some p.2 := by rw [List.lookup_cons, beq_self_eq_true]
        simp only [List.foldl_cons, List.foldl_nil, meet, hids, hp, ↓reduceIte, List.map_cons,
          List.map_nil, List.lookup_append, hnew, hself, Option.none_or, Option.getD_some]

namespace Graph

theorem lookup_names_of_not_mem (h : id ∉ s.mentions) : s.names.lookup id = none := by
  refine List.lookup_eq_none_iff.mpr fun p hp => ?_
  have hne : id ≠ p.1 := fun he => h (s.map_fst_names ▸ he ▸ List.mem_map_of_mem hp)
  simpa using hne

/-- A statement that mentions an id names it, as far as another name is given. -/
theorem blockName_cons_of_mem {gid : Option String} (h : id ∈ s.mentions) :
    (⟨gid, s :: ss⟩ : Graph).blockName id = (s.names.lookup id).getD id := by
  have hfind : (s :: ss).find? (id ∈ ·.mentions) = some s :=
    List.find?_cons_of_pos (decide_eq_true h)
  simp only [blockName, hfind]
  cases s with
  | «attribute» a => simp [Statement.mentions] at h
  | defaults target attributes => simp [Statement.mentions] at h
  | node id' attributes =>
      obtain rfl : id = id' := by simpa [Statement.mentions] using h
      simp [Statement.names]
  | edge src dst attributes =>
      by_cases hs : id = src
      · simp [Statement.names, hs]
      · obtain rfl : id = dst := by simpa [Statement.mentions, hs] using h
        simp [Statement.names, List.lookup_cons, beq_false_of_ne hs]

/-- The name of a block is found at the first mention of its id. -/
theorem blockName_eq (g : Graph) (id : String) :
    g.blockName id = ((g.statements.flatMap Statement.names).lookup id).getD id := by
  obtain ⟨gid, ss⟩ := g
  induction ss with
  | nil => rfl
  | cons s ss ih =>
      rw [List.flatMap_cons, List.lookup_append]
      by_cases h : id ∈ s.mentions
      · rw [blockName_cons_of_mem h]
        cases hl : s.names.lookup id with
        | some name => rfl
        | none =>
            obtain ⟨p, hp, rfl⟩ := List.mem_map.mp (s.map_fst_names.symm ▸ h)
            simpa using List.lookup_eq_none_iff.mp hl p hp
      · rw [lookup_names_of_not_mem h, Option.none_or, ← ih, blockName, blockName,
          List.find?_cons_of_neg (by simpa using h)]

theorem sketch_eq (g : Graph) : g.sketch = ⟨g.ids.map fun id => (id, g.blockName id), g.links⟩ := by
  have hids : g.ids = ((g.statements.flatMap Statement.names).map (·.1)).eraseDups := by
    simp only [ids, List.map_flatMap, Statement.map_fst_names]
  have hblocks : g.sketch.blocks = g.ids.map fun id => (id, g.blockName id) := by
    rw [sketch, Sketch.blocks_takeAll, foldl_meet, hids]
    exact List.map_congr_left fun id _ => by rw [blockName_eq]
  rw [← hblocks, ← g.links_sketch]

theorem ids_sketch (g : Graph) : g.sketch.ids = g.ids := by
  rw [sketch_eq, Sketch.ids, List.map_map]
  exact List.map_id' g.ids

theorem mem_ids_iff : id ∈ g.ids ↔ id ∈ g.statements.flatMap Statement.mentions := List.mem_eraseDups

theorem populate_eq_none_iff (hf : f.Wired) : (g.populate f).2 = none ↔ g.TagsDiffer := by
  constructor
  · intro h
    by_contra hg
    obtain ⟨b, k, block, tag, hb, -⟩ := populate_of_not_tagsDiffer hf hg
    simp [hb] at h
  · intro hg
    obtain ⟨b, hb, -⟩ := populate_of_tagsDiffer hf hg
    rw [hb]

end Graph

/-! ## What does not count -/

namespace Graph

/-- `h` is `f` with a block for each of the ids behind, under the names that the graph gives them,
and with an edge for each of the links. These edges touch no block that was there. -/
structure Adds (g : Graph) (f : Function) (ids : List String) (links : List Link) (h : Function)
    (key : String → BlockKey) : Prop where
  rest_eq : h = { f with nextSerial := h.nextSerial, nodes := h.nodes }
  keys_eq : h.keys = f.keys ++ ids.map key
  keys_nodup : h.keys.Nodup
  kept : ∀ u ∈ f.keys, h.block? u = f.block? u ∧ h.successors u = f.successors u ∧
    h.predecessors u = f.predecessors u
  block_eq : ∀ id ∈ ids, h.block? (key id) = some
    { name := g.blockName id, flags := { entry := f.isEmpty && ids.head? = some id },
      owner := f.uid }
  successors_eq : ∀ id ∈ ids,
    h.successors (key id) = (links.filter (·.src = id)).map fun l => ⟨l.tag, key l.dst⟩
  predecessors_eq : ∀ id ∈ ids,
    h.predecessors (key id) = (links.filter (·.dst = id)).map fun l => key l.src
  apart : ∀ id ∈ ids, (∀ e ∈ h.successors (key id), e.target ∉ f.keys) ∧
    ∀ u ∈ h.predecessors (key id), u ∉ f.keys

theorem adds_build {k : Sketch} (hf : f.Wired) (hk : k.Sound)
    (hnames : ∀ id ∈ k.ids, (id, g.blockName id) ∈ k.blocks) :
    g.Adds f k.ids k.links (k.build f) (k.key f) := by
  have hnode : ∀ id ∈ k.ids,
      (k.build f).node? (k.key f id) = some (k.node f (id, g.blockName id)) :=
    fun id hid => Sketch.node?_build hf hk (hnames id hid)
  have hsucc : ∀ id ∈ k.ids, (k.build f).successors (k.key f id) =
      (k.links.filter (·.src = id)).map fun l => ⟨l.tag, k.key f l.dst⟩ :=
    fun id hid => Function.successors_of_node? (hnode id hid)
  have hpred : ∀ id ∈ k.ids, (k.build f).predecessors (k.key f id) =
      (k.links.filter (·.dst = id)).map fun l => k.key f l.src :=
    fun id hid => Function.predecessors_of_node? (hnode id hid)
  refine ⟨rfl, Sketch.keys_build, ?_, fun u hu => ?_, fun id hid => ?_, hsucc, hpred,
    fun id hid => ⟨fun e he => ?_, fun u hu => ?_⟩⟩
  · rw [Sketch.keys_build, List.nodup_append]
    refine ⟨hf.nodup, hk.nodup.map_on fun u hu v _ h => Sketch.key_inj hu h, ?_⟩
    rintro u hu v hv rfl
    obtain ⟨id, -, rfl⟩ := List.mem_map.mp hv
    exact Sketch.key_not_mem hf hu
  · have hold := Sketch.node?_build_of_mem (k := k) hu
    simp only [Function.block?, Function.successors, Function.predecessors, hold, and_self]
  · have hfirst : (k.ids.idxOf id == 0) = decide (k.ids.head? = some id) := by
      cases hids : k.ids with
      | nil => simp [hids] at hid
      | cons a as => by_cases ha : a = id <;> simp [ha]
    rw [Function.block?, hnode id hid]
    simp [Sketch.node, hfirst]
  · rw [hsucc id hid] at he
    obtain ⟨l, -, rfl⟩ := List.mem_map.mp he
    exact Sketch.key_not_mem hf
  · rw [hpred id hid] at hu
    obtain ⟨l, -, rfl⟩ := List.mem_map.mp hu
    exact Sketch.key_not_mem hf

/-- The function has a block for each id of the graph, in order of mention, and an edge for each
link, in the order of the statements. -/
structure Describes (g : Graph) (h : Function) (key : String → BlockKey) : Prop where
  keys_eq : h.keys = g.ids.map key
  keys_nodup : h.keys.Nodup
  block_eq : ∀ id ∈ g.ids, h.block? (key id) = some
    { name := g.blockName id, flags := { entry := g.ids.head? = some id }, owner := h.uid }
  successors_eq : ∀ id ∈ g.ids,
    h.successors (key id) = (g.links.filter (·.src = id)).map fun l => ⟨l.tag, key l.dst⟩
  predecessors_eq : ∀ id ∈ g.ids,
    h.predecessors (key id) = (g.links.filter (·.dst = id)).map fun l => key l.src

theorem adds_sketch (hf : f.Wired) (g : Graph) :
    g.Adds f g.ids g.links (g.sketch.build f) (g.sketch.key f) := by
  have hadds : g.Adds f g.sketch.ids g.sketch.links (g.sketch.build f) (g.sketch.key f) := by
    refine adds_build hf g.sound_sketch fun id hid => ?_
    rw [ids_sketch] at hid
    rw [sketch_eq]
    exact List.mem_map_of_mem hid
  rwa [ids_sketch, links_sketch] at hadds

theorem describes_build (hf : f.Wired) (he : f.keys = []) (g : Graph) :
    g.Describes (g.sketch.build f) (g.sketch.key f) := by
  have hadds := adds_sketch hf g
  have hempty : f.isEmpty := by simpa [Function.isEmpty, Function.keys] using he
  refine ⟨by simpa [he] using hadds.keys_eq, hadds.keys_nodup, fun id hid => ?_,
    hadds.successors_eq, hadds.predecessors_eq⟩
  have hblock := hadds.block_eq id hid
  rw [hempty, Bool.true_and] at hblock
  exact hblock

end Graph

end FlowGraph.Dot
