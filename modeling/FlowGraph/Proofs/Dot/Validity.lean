import FlowGraph.Proofs.Dot.Described
import FlowGraph.Proofs.Function.Soundness

/-!
Graphs that make sound functions. A graph says nothing of entries. In a new function the block of
the id that comes first is the entry and no other block is, so all depends on whether ways lead from
this id to every other.
-/
namespace FlowGraph.Dot

variable {k : Sketch} {f : Function} {g : Graph} {uid owner : Uid} {name u v : String}

namespace Sketch

/-! ## The entry -/

theorem entries_build (hk : k.Sound) (uid : Uid) (name : String) (owner : Uid) :
    (k.build (.empty uid name owner)).entries =
      k.blocks.head?.toList.map (k.node (.empty uid name owner)) := by
  have hentries : (k.build (.empty uid name owner)).entries =
      (k.blocks.filter (k.ids.idxOf ·.1 == 0)).map (k.node (.empty uid name owner)) := by
    rw [Function.entries, build, List.filter_append, List.filter_map]
    rfl
  have hfirst : k.blocks.filter (k.ids.idxOf ·.1 == 0) = k.blocks.head?.toList := by
    have hnodup := hk.nodup
    rw [ids] at hnodup ⊢
    cases hb : k.blocks with
    | nil => rfl
    | cons b bs =>
        rw [hb, List.map_cons] at hnodup
        have hrest : bs.filter (((b :: bs).map (·.1)).idxOf ·.1 == 0) = [] := by
          refine List.filter_eq_nil_iff.mpr fun c hc => ?_
          have hne : b.1 ≠ c.1 := fun h =>
            (List.nodup_cons.mp hnodup).1 (h ▸ List.mem_map_of_mem hc)
          simp [List.idxOf_cons, beq_false_of_ne hne]
        rw [List.filter_cons, if_pos (by simp), hrest]
        rfl
  rw [hentries, hfirst]

/-! ## Ways -/

theorem exists_leads {a b : BlockKey} (hf : f.Wired) (hk : k.Sound)
    (h : (k.build f).Reaches a b) (hu : u ∈ k.ids) (ha : a = k.key f u) :
    ∃ v ∈ k.ids, b = k.key f v ∧ Leads k.links u v := by
  induction h generalizing u with
  | refl => exact ⟨u, hu, ha, .refl u⟩
  | step he _ ih =>
      rw [ha, successors_build hf hk hu] at he
      obtain ⟨l, hfilter, rfl⟩ := List.mem_map.mp he
      obtain ⟨hl, hsrc⟩ := List.mem_filter.mp hfilter
      obtain rfl : l.src = u := by simpa using hsrc
      obtain ⟨v, hv, hb, hleads⟩ := ih (hk.dst_mem l hl) rfl
      exact ⟨v, hv, hb, .step hl hleads⟩

theorem reaches_of_leads (hf : f.Wired) (hk : k.Sound) (h : Leads k.links u v) :
    (k.build f).Reaches (k.key f u) (k.key f v) := by
  induction h with
  | refl id => exact .refl _
  | @step l dst hl _ ih =>
      have he : (⟨l.tag, k.key f l.dst⟩ : Edge) ∈ (k.build f).successors (k.key f l.src) := by
        rw [successors_build hf hk (hk.src_mem l hl)]
        exact List.mem_map.mpr ⟨l, List.mem_filter.mpr ⟨hl, decide_eq_true rfl⟩, rfl⟩
      exact .step he ih

/-- The edges of the built function lead where the links do. -/
theorem reaches_build_iff (hf : f.Wired) (hk : k.Sound) (hu : u ∈ k.ids) :
    (k.build f).Reaches (k.key f u) (k.key f v) ↔ Leads k.links u v := by
  refine ⟨fun h => ?_, reaches_of_leads hf hk⟩
  obtain ⟨w, hw, hkey, hleads⟩ := exists_leads hf hk h hu rfl
  exact key_inj hw hkey.symm ▸ hleads

/-! ## Soundness -/

theorem verdict_build_none_iff (hk : k.Sound) (hw : (k.build (.empty uid name owner)).Wired) :
    (k.build (.empty uid name owner)).Verdict none ↔
      ∀ first ∈ k.ids.head?, ∀ id ∈ k.ids, Leads k.links first id := by
  have hempty := Function.Wired.empty uid name owner
  have hkeys : (k.build (.empty uid name owner)).keys =
      k.ids.map (k.key (.empty uid name owner)) := by
    rw [keys_build]
    rfl
  have hentries := entries_build hk uid name owner
  rw [hw.verdict_none_iff, hkeys]
  simp only [← Function.entries_eq_singleton_iff, hentries]
  cases hb : k.blocks with
  | nil => simp [ids, hb]
  | cons b bs =>
      have hids : k.ids = b.1 :: bs.map (·.1) := by rw [ids, hb, List.map_cons]
      have hfirst : b.1 ∈ k.ids := hids ▸ List.mem_cons_self
      have hreaches : ∀ id, (k.build (.empty uid name owner)).Reaches
          (k.node (.empty uid name owner) b).key (k.key (.empty uid name owner) id) ↔
          Leads k.links b.1 id := fun id => reaches_build_iff hempty hk hfirst
      simp only [List.head?_cons, Option.toList_some, List.map_singleton, List.cons.injEq,
        and_true, exists_eq_left', List.forall_mem_map, hreaches]
      simp [hids]

end Sketch

/-- A new function that is built from a graph is sound exactly if a way leads from the first id to
each. -/
theorem Graph.verdict_none_iff (hg : g.TagsDiffer) (uid : Uid) (name : String) (owner : Uid) :
    (g.populate (.empty uid name owner)).1.function.Verdict none ↔
      ∀ first ∈ g.ids.head?, ∀ id ∈ g.ids, Leads g.links first id := by
  have hempty := Function.Wired.empty uid name owner
  obtain ⟨b, hbuild, hfollows⟩ := populate_of_tagsDiffer hempty hg
  have hwired := Function.Wired.kept.populate hempty g
  rw [hbuild, hfollows.function_eq] at hwired
  rw [hbuild, hfollows.function_eq, Sketch.verdict_build_none_iff g.sound_sketch hwired,
    ids_sketch, links_sketch]

end FlowGraph.Dot
