import FlowGraph.Dot.Outline
import FlowGraph.Proofs.Function.Consistent

/-!
Graphs seen without handles. Statements add ids and links to a sketch, and a sketch can be put
behind the blocks of a function.
-/
namespace FlowGraph.Dot

/-- The ids met so far with the names of their blocks, and the links between them. -/
structure Sketch where
  blocks : List (String × String) := []
  links : List Link := []
deriving DecidableEq, Repr

namespace Sketch

def ids (k : Sketch) : List String := k.blocks.map (·.1)

/-- The id keeps the name under which it is met first. -/
def mention (k : Sketch) (id name : String) : Sketch :=
  if id ∈ k.ids then k else { k with blocks := k.blocks ++ [(id, name)] }

def link (k : Sketch) (l : Link) : Sketch := { k with links := k.links ++ [l] }

def take (k : Sketch) : Statement → Sketch
  | .attribute _ | .defaults _ _ => k
  | .node id attributes => k.mention id (nodeName id attributes)
  | .edge src dst attributes =>
    ((k.mention src src).mention dst dst).link ⟨src, edgeTag attributes, dst⟩

/-- The handle that an id gets behind the blocks of `f`. -/
def key (k : Sketch) (f : Function) (id : String) : BlockKey :=
  ⟨f.uid, f.nextSerial + k.ids.idxOf id⟩

/-- The block of an id with all its edges. -/
def node (k : Sketch) (f : Function) (b : String × String) : Node where
  key := k.key f b.1
  block :=
    { name := b.2, flags := { entry := f.isEmpty && k.ids.idxOf b.1 == 0 }, owner := f.uid }
  successors := (k.links.filter (·.src = b.1)).map fun l => ⟨l.tag, k.key f l.dst⟩
  predecessors := (k.links.filter (·.dst = b.1)).map fun l => k.key f l.src

/-- The function with the sketch behind it. -/
def build (k : Sketch) (f : Function) : Function :=
  { f with
    nextSerial := f.nextSerial + k.blocks.length
    nodes := f.nodes ++ k.blocks.map (k.node f) }

/-- Ids are met once, and links are between ids that have been met. -/
structure Sound (k : Sketch) : Prop where
  nodup : k.ids.Nodup
  src_mem : ∀ l ∈ k.links, l.src ∈ k.ids
  dst_mem : ∀ l ∈ k.links, l.dst ∈ k.ids

variable {k : Sketch} {f : Function} {id name src dst tag u v : String} {b : String × String}

/-! ## Mentioning an id -/

theorem mention_of_mem (h : id ∈ k.ids) : k.mention id name = k := if_pos h

theorem mention_of_not_mem (h : id ∉ k.ids) :
    k.mention id name = { k with blocks := k.blocks ++ [(id, name)] } := if_neg h

theorem ids_mention_of_not_mem (h : id ∉ k.ids) : (k.mention id name).ids = k.ids ++ [id] := by
  simp [mention_of_not_mem h, ids]

theorem mem_ids_mention : u ∈ (k.mention id name).ids ↔ u ∈ k.ids ∨ u = id := by
  by_cases h : id ∈ k.ids
  · rw [mention_of_mem h]
    exact ⟨.inl, fun hu => hu.elim (fun hu => hu) (fun hu => hu ▸ h)⟩
  · simp [ids_mention_of_not_mem h]

theorem mem_ids_mention_self : id ∈ (k.mention id name).ids := mem_ids_mention.mpr (.inr rfl)

@[simp] theorem links_mention : (k.mention id name).links = k.links := by
  unfold mention
  split <;> rfl

theorem mem_blocks_mention (hb : b ∈ k.blocks) : b ∈ (k.mention id name).blocks := by
  by_cases h : id ∈ k.ids
  · rwa [mention_of_mem h]
  · rw [mention_of_not_mem h]
    exact List.mem_append_left _ hb

/-- An id that was there stays where it was. -/
theorem key_mention (hu : u ∈ k.ids) : (k.mention id name).key f u = k.key f u := by
  by_cases h : id ∈ k.ids
  · rw [mention_of_mem h]
  · have hidx : (k.mention id name).ids.idxOf u = k.ids.idxOf u := by
      rw [ids_mention_of_not_mem h]
      exact List.idxOf_append_of_mem hu
    rw [key, key, hidx]

namespace Sound

theorem empty : Sound {} where
  nodup := List.nodup_nil
  src_mem := by simp
  dst_mem := by simp

theorem mention (h : k.Sound) (id name : String) : (k.mention id name).Sound where
  nodup := by
    by_cases hid : id ∈ k.ids
    · rw [mention_of_mem hid]
      exact h.nodup
    · rw [ids_mention_of_not_mem hid]
      exact List.nodup_append_comm.mp (List.nodup_cons.mpr ⟨hid, h.nodup⟩)
  src_mem l hl := mem_ids_mention.mpr (.inl (h.src_mem l (by simpa using hl)))
  dst_mem l hl := mem_ids_mention.mpr (.inl (h.dst_mem l (by simpa using hl)))

theorem link (h : k.Sound) (hsrc : src ∈ k.ids) (hdst : dst ∈ k.ids) :
    (k.link ⟨src, tag, dst⟩).Sound where
  nodup := h.nodup
  src_mem l hl := by
    rcases List.mem_append.mp hl with hl | hl
    · exact h.src_mem l hl
    · obtain rfl := List.mem_singleton.mp hl
      exact hsrc
  dst_mem l hl := by
    rcases List.mem_append.mp hl with hl | hl
    · exact h.dst_mem l hl
    · obtain rfl := List.mem_singleton.mp hl
      exact hdst

theorem take (h : k.Sound) (s : Statement) : (k.take s).Sound := by
  cases s with
  | «attribute» a => exact h
  | defaults target attributes => exact h
  | node id attributes => exact h.mention id _
  | edge src dst attributes =>
      exact ((h.mention src src).mention dst dst).link
        (mem_ids_mention.mpr (.inl mem_ids_mention_self)) mem_ids_mention_self

end Sound

/-! ## The function with a sketch behind it -/

theorem key_inj (hu : u ∈ k.ids) (h : k.key f u = k.key f v) : u = v := by
  refine (List.idxOf_inj hu).mp ?_
  simpa [key] using h

theorem mem_ids (hb : b ∈ k.blocks) : b.1 ∈ k.ids := List.mem_map_of_mem hb

theorem keys_build : (k.build f).keys = f.keys ++ k.ids.map (k.key f) := by
  simp [build, Function.keys, ids, node]

theorem key_mem_build (hu : u ∈ k.ids) : k.key f u ∈ (k.build f).keys := by
  rw [keys_build]
  exact List.mem_append_right _ (List.mem_map_of_mem hu)

/-- The handles of a sketch are new to the function. -/
theorem key_not_mem (hf : f.Wired) : k.key f u ∉ f.keys := by
  intro h
  have := (hf.minted _ h).2
  simp only [key] at this
  omega

theorem node?_build (hf : f.Wired) (hk : k.Sound) (hb : b ∈ k.blocks) :
    (k.build f).node? (k.key f b.1) = some (k.node f b) := by
  have hold : f.nodes.find? (·.key = k.key f b.1) = none :=
    Function.node?_eq_none_iff.mpr (key_not_mem hf)
  have hsame : ∀ c ∈ k.blocks, (k.node f c).key = k.key f b.1 → c = b := fun c hc h =>
    List.inj_on_of_nodup_map hk.nodup hc hb (key_inj (mem_ids hc) h)
  rw [Function.node?, build, List.find?_append, hold, Option.none_or, List.find?_map]
  obtain ⟨c, hc⟩ : ∃ c, k.blocks.find? ((fun n : Node => decide (n.key = k.key f b.1)) ∘ k.node f) =
      some c := by
    rw [← Option.isSome_iff_exists, List.find?_isSome]
    exact ⟨b, hb, by simp [node]⟩
  obtain rfl := hsame c (List.mem_of_find?_eq_some hc) (by simpa using List.find?_some hc)
  rw [hc]
  rfl

/-- A block that was there before keeps its node. -/
theorem node?_build_of_mem {v : BlockKey} (hv : v ∈ f.keys) : (k.build f).node? v = f.node? v := by
  obtain ⟨n, hn⟩ := Function.exists_node? hv
  have hfind : f.nodes.find? (·.key = v) = some n := hn
  rw [Function.node?, build, List.find?_append, hfind, hn, Option.some_or]

theorem exists_block (hu : u ∈ k.ids) : ∃ name, (u, name) ∈ k.blocks := by
  obtain ⟨b, hb, rfl⟩ := List.mem_map.mp hu
  exact ⟨b.2, hb⟩

theorem successors_build (hf : f.Wired) (hk : k.Sound) (hu : u ∈ k.ids) :
    (k.build f).successors (k.key f u) =
      (k.links.filter (·.src = u)).map fun l => ⟨l.tag, k.key f l.dst⟩ := by
  obtain ⟨name, hb⟩ := exists_block hu
  rw [Function.successors_of_node? (node?_build hf hk hb)]
  rfl

/-- A block that was there keeps its node when another id is met. -/
theorem node_mention (hk : k.Sound) (hb : b ∈ k.blocks) :
    (k.mention id name).node f b = k.node f b := by
  have hkey : ∀ {u}, u ∈ k.ids → (k.mention id name).ids.idxOf u = k.ids.idxOf u := by
    intro u hu
    have h : (k.mention id name).key f u = k.key f u := key_mention hu
    simpa [key] using h
  have hsrc : ∀ l ∈ k.links, (k.mention id name).key f l.src = k.key f l.src := fun l hl =>
    key_mention (hk.src_mem l hl)
  have hdst : ∀ l ∈ k.links, (k.mention id name).key f l.dst = k.key f l.dst := fun l hl =>
    key_mention (hk.dst_mem l hl)
  simp only [node, links_mention, key_mention (mem_ids hb), hkey (mem_ids hb), Node.mk.injEq,
    true_and]
  constructor
  · exact List.map_congr_left fun l hl => by rw [hdst l (List.mem_of_mem_filter hl)]
  · exact List.map_congr_left fun l hl => by rw [hsrc l (List.mem_of_mem_filter hl)]

/-- A new id gets the next block. -/
theorem createBlock_build (hk : k.Sound) (hid : id ∉ k.ids) :
    (k.build f).createBlock name =
      ((k.mention id name).build f, (k.mention id name).key f id) := by
  have hlength : k.ids.length = k.blocks.length := List.length_map _
  have hidx : (k.mention id name).ids.idxOf id = k.blocks.length := by
    rw [ids_mention_of_not_mem hid, List.idxOf_append_of_notMem hid, ← hlength]
    simp
  have hold : k.blocks.map ((k.mention id name).node f) = k.blocks.map (k.node f) :=
    List.map_congr_left fun b hb => node_mention hk hb
  -- No link has an end that was not met.
  have hsrc : k.links.filter (·.src = id) = [] := by
    refine List.filter_eq_nil_iff.mpr fun l hl h => hid ?_
    exact (of_decide_eq_true h) ▸ hk.src_mem l hl
  have hdst : k.links.filter (·.dst = id) = [] := by
    refine List.filter_eq_nil_iff.mpr fun l hl h => hid ?_
    exact (of_decide_eq_true h) ▸ hk.dst_mem l hl
  have hnew : (k.mention id name).node f (id, name) =
      { key := ⟨f.uid, f.nextSerial + k.blocks.length⟩
        block := { name, flags := { entry := (k.build f).isEmpty }, owner := f.uid } } := by
    simp only [node, key, hidx, links_mention, hsrc, hdst, List.map_nil, Function.isEmpty, build]
    cases f.nodes <;> cases k.blocks <;> simp
  have hblocks : (k.mention id name).blocks = k.blocks ++ [(id, name)] := by
    rw [mention_of_not_mem hid]
  simp only [Function.createBlock, build, hblocks, List.map_append, hold, List.map_singleton, hnew,
    key, hidx, List.length_append, List.length_singleton, List.append_assoc, Nat.add_assoc]

/-! ## Adding a link -/

/-- A link adds to its two ends only. -/
theorem node_link : (k.link ⟨src, tag, dst⟩).node f b =
    { k.node f b with
      successors := (k.node f b).successors ++ if src = b.1 then [⟨tag, k.key f dst⟩] else []
      predecessors := (k.node f b).predecessors ++ if dst = b.1 then [k.key f src] else [] } := by
  have hkey : ∀ u, (k.link ⟨src, tag, dst⟩).key f u = k.key f u := fun u => rfl
  have hids : (k.link ⟨src, tag, dst⟩).ids = k.ids := rfl
  have hlinks : (k.link ⟨src, tag, dst⟩).links = k.links ++ [⟨src, tag, dst⟩] := rfl
  simp only [node, hkey, hids, hlinks, List.filter_append, List.map_append, Node.mk.injEq, true_and]
  by_cases hs : src = b.1 <;> by_cases hd : dst = b.1 <;> simp [hs, hd]

theorem connect_build (hf : f.Wired) (hk : k.Sound) (hsrc : src ∈ k.ids) (hdst : dst ∈ k.ids)
    (htag : ∀ l ∈ k.links, l.src = src → l.tag ≠ tag) :
    (k.build f).connect (k.key f src) (k.key f dst) tag =
      .ok ((k.link ⟨src, tag, dst⟩).build f) := by
  refine Function.connect_eq_ok_iff.mpr ⟨key_mem_build hsrc, key_mem_build hdst, ?_, ?_⟩
  · intro e he
    rw [successors_build hf hk hsrc] at he
    obtain ⟨l, hl, rfl⟩ := List.mem_map.mp he
    exact htag l (List.mem_of_mem_filter hl) (by simpa using List.of_mem_filter hl)
  · have hold : ∀ u (change : Node → Node),
        f.nodes.map (fun n => if n.key = k.key f u then change n else n) = f.nodes := by
      intro u change
      refine (List.map_congr_left fun n hn => if_neg fun h => ?_).trans (List.map_id' f.nodes)
      exact key_not_mem hf (Function.mem_keys_iff.mpr ⟨n, hn, h⟩)
    have hkey : ∀ {b v}, b ∈ k.blocks → (k.key f b.1 = k.key f v ↔ v = b.1) := fun hb =>
      ⟨fun h => (key_inj (mem_ids hb) h).symm, fun h => h ▸ rfl⟩
    simp only [build, Function.update, List.map_append, hold, List.map_map, Function.mk.injEq,
      true_and]
    refine ⟨rfl, congrArg (f.nodes ++ ·) (List.map_congr_left fun b hb => ?_)⟩
    rw [node_link]
    have hs := hkey (v := src) hb
    have hd := hkey (v := dst) hb
    by_cases h : src = b.1 <;> by_cases h' : dst = b.1 <;> simp [node, hs, hd, h, h']

/-- A second link with that source and tag is refused, and the block of the source is named. -/
theorem connect_build_clash (hf : f.Wired) (hk : k.Sound) (hsrc : (src, name) ∈ k.blocks)
    (hdst : dst ∈ k.ids) (hclash : ∃ l ∈ k.links, l.src = src ∧ l.tag = tag) :
    (k.build f).connect (k.key f src) (k.key f dst) tag =
      .error (.duplicateTag f.name name tag) := by
  obtain ⟨l, hl, rfl, rfl⟩ := hclash
  have he : (⟨l.tag, k.key f l.dst⟩ : Edge) ∈ (k.node f (l.src, name)).successors :=
    List.mem_map.mpr ⟨l, List.mem_filter.mpr ⟨hl, decide_eq_true rfl⟩, rfl⟩
  exact Function.connect_of_tag_mem (node?_build hf hk hsrc) (key_mem_build hdst) he rfl

/-! ## The links of statements -/

theorem links_take (k : Sketch) (s : Statement) :
    (k.take s).links = k.links ++ s.link?.toList := by
  cases s with
  | «attribute» a => simp [take, Statement.link?]
  | defaults target attributes => simp [take, Statement.link?]
  | node id attributes => simp [take, Statement.link?]
  | edge src dst attributes => simp [take, link, Statement.link?]

/-- A statement that is taken in moves its link to the sketch. -/
theorem links_append_cons (k : Sketch) (s : Statement) (ss : List Statement) :
    k.links ++ (s :: ss).filterMap Statement.link? =
      (k.take s).links ++ ss.filterMap Statement.link? := by
  rw [links_take, List.append_assoc, List.filterMap_cons]
  cases s.link? <;> rfl

theorem links_takeAll (k : Sketch) (ss : List Statement) :
    (ss.foldl take k).links = k.links ++ ss.filterMap Statement.link? := by
  induction ss generalizing k with
  | nil => simp
  | cons s ss ih => rw [List.foldl_cons, ih, links_append_cons]

end Sketch

theorem Statement.link?_eq_some_iff {s : Statement} {l : Link} :
    s.link? = some l ↔ ∃ attributes, s = .edge l.src l.dst attributes ∧
      l.tag = edgeTag attributes := by
  obtain ⟨src, tag, dst⟩ := l
  cases s with
  | «attribute» a => simp [Statement.link?]
  | defaults target attributes => simp [Statement.link?]
  | node id attributes => simp [Statement.link?]
  | edge src' dst' attributes =>
      simp only [Statement.link?, Option.some.injEq, Link.mk.injEq, Statement.edge.injEq]
      constructor
      · rintro ⟨rfl, rfl, rfl⟩
        exact ⟨attributes, ⟨rfl, rfl, rfl⟩, rfl⟩
      · rintro ⟨attributes', ⟨rfl, rfl, rfl⟩, rfl⟩
        exact ⟨rfl, rfl, rfl⟩

/-! ## The sketch of a graph -/

namespace Graph

variable {g : Graph}

/-- All that a graph describes. -/
def sketch (g : Graph) : Sketch := g.statements.foldl Sketch.take {}

theorem sound_sketch (g : Graph) : g.sketch.Sound := by
  have htakeAll : ∀ (ss : List Statement) {k : Sketch}, k.Sound → (ss.foldl Sketch.take k).Sound := by
    intro ss
    induction ss with
    | nil => exact fun hk => hk
    | cons s ss ih => exact fun hk => ih (hk.take s)
  exact htakeAll g.statements .empty

theorem links_sketch (g : Graph) : g.sketch.links = g.links :=
  Sketch.links_takeAll {} g.statements

/-- One more statement keeps the tags different unless its link repeats a source and a tag. -/
theorem tagsDiffer_append_singleton {id : Option String} {ss : List Statement} {s : Statement} :
    (⟨id, ss ++ [s]⟩ : Graph).TagsDiffer ↔ (⟨id, ss⟩ : Graph).TagsDiffer ∧
      ∀ l ∈ s.link?, ∀ l' ∈ (⟨id, ss⟩ : Graph).links, l'.src = l.src → l'.tag ≠ l.tag := by
  have hlinks : (⟨id, ss ++ [s]⟩ : Graph).links = (⟨id, ss⟩ : Graph).links ++ s.link?.toList := by
    cases hs : s.link? <;> simp [links, hs]
  rw [TagsDiffer, TagsDiffer, hlinks]
  cases s.link? with
  | none => simp
  | some l =>
      rw [Option.toList_some, List.map_append, List.nodup_append_comm]
      simp only [List.map_cons, List.map_nil, List.singleton_append, List.nodup_cons,
        List.mem_map, Prod.mk.injEq, not_exists, not_and, Option.mem_some_iff, forall_eq']
      exact and_comm

/-- Of the edges that repeat a source and a tag there is a first one. -/
theorem exists_clash (hg : ¬ g.TagsDiffer) :
    ∃ done src dst attributes rest, g.statements = done ++ .edge src dst attributes :: rest ∧
      (⟨g.id, done⟩ : Graph).TagsDiffer ∧
      ∃ l ∈ (⟨g.id, done⟩ : Graph).links, l.src = src ∧ l.tag = edgeTag attributes := by
  obtain ⟨id, ss⟩ := g
  induction ss using List.reverseRecOn with
  | nil => exact absurd List.nodup_nil hg
  | append_singleton ss s ih =>
      by_cases hss : (⟨id, ss⟩ : Graph).TagsDiffer
      · -- All differ so far, so it is the last statement that clashes.
        rw [tagsDiffer_append_singleton] at hg
        push Not at hg
        obtain ⟨l, hl, l', hl', hsrc, htag⟩ := hg hss
        obtain ⟨attributes, rfl, hedge⟩ := Statement.link?_eq_some_iff.mp hl
        exact ⟨ss, l.src, l.dst, attributes, [], rfl, hss, l', hl', hsrc, htag.trans hedge⟩
      · obtain ⟨done, src, dst, attributes, rest, hsplit, hdone, hclash⟩ := ih hss
        simp only at hsplit
        exact ⟨done, src, dst, attributes, rest ++ [s], by simp [hsplit], hdone, hclash⟩

end Graph

end FlowGraph.Dot
