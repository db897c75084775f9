import FlowGraph.Proofs.Dot.Validity
import FlowGraph.Proofs.Function.Renaming

/-!
A graph that is built twice, into functions of one name that differ in their identities. Handles
leave no trace: the same is recorded, the same edge is refused, and the same defect is found.
-/
namespace FlowGraph.Dot

variable {k : Sketch} {f f' : Function} {b b' : Building} {src dst u v : String}
  {uid uid' owner owner' : Uid}

/-! ## Records -/

theorem Sketch.isEmpty_build (k : Sketch) (f : Function) :
    (k.build f).isEmpty = (f.isEmpty && k.blocks.isEmpty) := by
  simp only [Function.isEmpty, build]
  cases f.nodes <;> cases k.blocks <;> rfl

theorem Sketch.block?_build (hf : f.Wired) (hk : k.Sound) {name : String}
    (hu : (u, name) ∈ k.blocks) :
    ∃ block, (k.build f).block? (k.key f u) = some block ∧ block.name = name :=
  ⟨_, by rw [Function.block?, node?_build hf hk hu]; rfl, rfl⟩

/-- The record of an edge names its two ends, and tells whether the edge was refused. -/
theorem Sketch.connection_build (hf : f.Wired) (hk : k.Sound) {name name' : String}
    (hsrc : (src, name) ∈ k.blocks) (hdst : (dst, name') ∈ k.blocks) (tag : String) :
    (k.build f).connection (k.key f src) (k.key f dst) tag =
      if ∃ l ∈ k.links, l.src = src ∧ l.tag = tag then [.edgeRejected name name' tag f.name]
      else [.edgeAdded name name' tag f.name] := by
  obtain ⟨s, hs, rfl⟩ := block?_build hf hk hsrc
  obtain ⟨d, hd, rfl⟩ := block?_build hf hk hdst
  by_cases hclash : ∃ l ∈ k.links, l.src = src ∧ l.tag = tag
  · have hconnect := connect_build_clash hf hk hsrc (mem_ids hdst) hclash
    simp only [Function.connection, hs, hd, hconnect, if_pos hclash]
    rfl
  · have hnew : ∀ l ∈ k.links, l.src = src → l.tag ≠ tag := fun l hl hs ht =>
      hclash ⟨l, hl, hs, ht⟩
    have hconnect := connect_build hf hk (mem_ids hsrc) (mem_ids hdst) hnew
    simp only [Function.connection, hs, hd, hconnect, if_neg hclash]
    rfl

/-- An edge is taken in or refused, and in both cases its ends have got their blocks. -/
theorem Building.Follows.take_edge (h : b.Follows k f) (hf : f.Wired) (hk : k.Sound)
    {attributes : List Attribute} {name name' : String}
    (hsrc : (src, name) ∈ ((k.mention src src).mention dst dst).blocks)
    (hdst : (dst, name') ∈ ((k.mention src src).mention dst dst).blocks) :
    let tag := edgeTag attributes
    let ends := ((b.mention src src).1.mention dst dst).1
    b.take (.edge src dst attributes) =
      if ∃ l ∈ k.links, l.src = src ∧ l.tag = tag then
        ({ ends with events := ends.events ++ [.edgeRejected name name' tag f.name] },
          some (.duplicateTag f.name name tag))
      else
        ({ ends with
            events := ends.events ++ [.edgeAdded name name' tag f.name]
            function :=
              (((k.mention src src).mention dst dst).link ⟨src, tag, dst⟩).build f }, none) := by
  obtain ⟨hs, hkeys⟩ := h.mention hk src src
  obtain ⟨hd, hkeyd⟩ := hs.mention (hk.mention src src) dst dst
  have hboth := (hk.mention src src).mention dst dst
  have hmet : src ∈ (k.mention src src).ids := Sketch.mem_ids_mention_self
  have hkey : ((k.mention src src).mention dst dst).key f src = (k.mention src src).key f src :=
    Sketch.key_mention hmet
  have hrecord := Sketch.connection_build hf hboth hsrc hdst (edgeTag attributes)
  rw [hkey, ← hkeys, ← hkeyd, ← hd.function_eq] at hrecord
  simp only [Sketch.links_mention] at hrecord
  by_cases hclash : ∃ l ∈ k.links, l.src = src ∧ l.tag = edgeTag attributes
  · have hconnect := Sketch.connect_build_clash hf hboth hsrc (Sketch.mem_ids hdst)
      (by simpa using hclash)
    rw [hkey, ← hkeys, ← hkeyd, ← hd.function_eq] at hconnect
    simp only [Building.take, hconnect, hrecord, if_pos hclash]
  · have hnew : ∀ l ∈ ((k.mention src src).mention dst dst).links, l.src = src →
        l.tag ≠ edgeTag attributes := by
      intro l hl hs ht
      exact hclash ⟨l, by simpa using hl, hs, ht⟩
    have hconnect := Sketch.connect_build hf hboth (Sketch.mem_ids hsrc) (Sketch.mem_ids hdst) hnew
    rw [hkey, ← hkeys, ← hkeyd, ← hd.function_eq] at hconnect
    simp only [Building.take, hconnect, hrecord, if_neg hclash]

/-- Two functions that nobody can tell apart who does not look at identities. -/
structure Alike (f f' : Function) : Prop where
  left : f.Wired
  right : f'.Wired
  name_eq : f.name = f'.name
  isEmpty_eq : f.isEmpty = f'.isEmpty

theorem Alike.empty (uid uid' owner owner' : Uid) (name : String) :
    Alike (.empty uid name owner) (.empty uid' name owner') where
  left := .empty uid name owner
  right := .empty uid' name owner'
  name_eq := rfl
  isEmpty_eq := rfl

/-- Two buildings that have come equally far, with the same records. -/
structure Building.Twins (b b' : Building) (k : Sketch) (f f' : Function) : Prop where
  sound : k.Sound
  left : b.Follows k f
  right : b'.Follows k f'
  events_eq : b.events = b'.events

namespace Building.Twins

theorem start (f f' : Function) : Twins { function := f } { function := f' } {} f f' where
  sound := .empty
  left := .start f
  right := .start f'
  events_eq := rfl

theorem creation_eq (h : b.Twins b' k f f') (hf : Alike f f') (name : String) :
    b.function.creation name = b'.function.creation name := by
  have hname : (k.build f).name = (k.build f').name := hf.name_eq
  have hempty : (k.build f).isEmpty = (k.build f').isEmpty := by
    rw [Sketch.isEmpty_build, Sketch.isEmpty_build, hf.isEmpty_eq]
  rw [h.left.function_eq, h.right.function_eq, Function.creation, Function.creation, hname, hempty]

theorem mention (h : b.Twins b' k f f') (hf : Alike f f') (id name : String) :
    (b.mention id name).1.Twins (b'.mention id name).1 (k.mention id name) f f' where
  sound := h.sound.mention id name
  left := (h.left.mention h.sound id name).1
  right := (h.right.mention h.sound id name).1
  events_eq := by
    by_cases hid : id ∈ k.ids
    · simp only [Building.mention, h.left.known_eq, h.right.known_eq, lookup_map_pair, if_pos hid,
        h.events_eq]
    · simp only [Building.mention, h.left.known_eq, h.right.known_eq, lookup_map_pair, if_neg hid,
        h.events_eq, h.creation_eq hf]

/-- A statement is taken in by both or refused by both, and they stay twins in either case. -/
theorem take (h : b.Twins b' k f f') (hf : Alike f f') (s : Statement) :
    (b.take s).2 = (b'.take s).2 ∧ ∃ k', (b.take s).1.Twins (b'.take s).1 k' f f' := by
  cases s with
  | «attribute» a => exact ⟨rfl, k, h⟩
  | defaults target attributes => exact ⟨rfl, k, h⟩
  | node id attributes => exact ⟨rfl, _, h.mention hf id _⟩
  | edge src dst attributes =>
      let ends := (k.mention src src).mention dst dst
      have hends := (h.mention hf src src).mention hf dst dst
      obtain ⟨name, hsrc⟩ : ∃ name, (src, name) ∈ ends.blocks :=
        Sketch.exists_block (Sketch.mem_ids_mention.mpr (.inl Sketch.mem_ids_mention_self))
      obtain ⟨name', hdst⟩ : ∃ name, (dst, name) ∈ ends.blocks :=
        Sketch.exists_block Sketch.mem_ids_mention_self
      rw [h.left.take_edge hf.left h.sound hsrc hdst, h.right.take_edge hf.right h.sound hsrc hdst,
        hf.name_eq]
      split
      · exact ⟨rfl, ends, hends.sound, ⟨hends.left.function_eq, hends.left.known_eq⟩,
          ⟨hends.right.function_eq, hends.right.known_eq⟩, by simp only [hends.events_eq]⟩
      · have hsound : (ends.link ⟨src, edgeTag attributes, dst⟩).Sound :=
          hends.sound.link (Sketch.mem_ids hsrc) (Sketch.mem_ids hdst)
        exact ⟨rfl, _, hsound, ⟨rfl, hends.left.known_eq⟩, ⟨rfl, hends.right.known_eq⟩,
          by simp only [hends.events_eq]⟩

theorem takeAll (h : b.Twins b' k f f') (hf : Alike f f') (ss : List Statement) :
    (b.takeAll ss).2 = (b'.takeAll ss).2 ∧
      ∃ k', (b.takeAll ss).1.Twins (b'.takeAll ss).1 k' f f' := by
  induction ss generalizing b b' k with
  | nil => exact ⟨rfl, k, h⟩
  | cons s ss ih =>
      obtain ⟨hfailed, k', htwins⟩ := h.take hf s
      rw [Building.takeAll, Building.takeAll]
      cases htake : b.take s with
      | mk c failed =>
          cases htake' : b'.take s with
          | mk c' failed' =>
              simp only [htake, htake'] at hfailed htwins
              subst hfailed
              cases failed with
              | none => exact ih htwins
              | some e => exact ⟨rfl, k', htwins⟩

end Building.Twins

theorem Graph.populate_twins (hf : Alike f f') (g : Graph) :
    (g.populate f).2 = (g.populate f').2 ∧
      ∃ k, (g.populate f).1.Twins (g.populate f').1 k f f' :=
  (Building.Twins.start f f').takeAll hf g.statements

/-! ## Defects -/

/-- The handles of the one function with the identity of the other one in them. -/
theorem Sketch.renames_build (hk : k.Sound) (uid uid' owner owner' : Uid) (name : String) :
    (k.build (.empty uid name owner)).Renames (fun u => ⟨uid', u.serial⟩)
      (k.build (.empty uid' name owner')) where
  name_eq := rfl
  inj u hu v hv h := by
    rw [keys_build] at hu hv
    obtain ⟨a, -, rfl⟩ := List.mem_map.mp hu
    obtain ⟨c, -, rfl⟩ := List.mem_map.mp hv
    have hserial : (k.key (.empty uid name owner) a).serial = (k.key (.empty uid name owner) c).serial :=
      (BlockKey.mk.inj h).2
    exact congrArg (BlockKey.mk uid) hserial
  labels_eq := by
    simp only [Function.labels, build, List.map_append, List.map_map]
    rfl
  successors_eq u hu := by
    rw [keys_build] at hu
    obtain ⟨a, ha, rfl⟩ := List.mem_map.mp hu
    have hleft := successors_build (Function.Wired.empty uid name owner) hk ha
    have hright := successors_build (Function.Wired.empty uid' name owner') hk ha
    have hkey : (⟨uid', (k.key (.empty uid name owner) a).serial⟩ : BlockKey) =
      k.key (.empty uid' name owner') a := rfl
    rw [hkey, hleft, hright, List.map_map]
    rfl

/-- The defect does not depend on identities. -/
theorem Sketch.inspect_build (hk : k.Sound) {name : String}
    (hw : (k.build (.empty uid name owner)).Wired) (hw' : (k.build (.empty uid' name owner')).Wired) :
    ∃ i j, (k.build (.empty uid name owner)).inspect = .ok i ∧
      (k.build (.empty uid' name owner')).inspect = .ok j ∧ j.defect = i.defect := by
  refine (renames_build hk uid uid' owner owner' name).inspect_eq hw hw' ?_
  rw [entries_build hk, entries_build hk, List.map_map, List.map_map]
  rfl

end FlowGraph.Dot
