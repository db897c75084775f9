import FlowGraph.Proofs.Function.Copy
import FlowGraph.Proofs.Function.Soundness

/-!
Functions that differ in their handles. Where blocks of the same names have edges of the same tags
in the same order, corresponding blocks are reachable and the same defect is found. A copy is such a
function, and so is any function of the same layout.
-/
namespace FlowGraph

/-- The edge with its target renamed. -/
def Edge.rename (σ : BlockKey → BlockKey) (e : Edge) : Edge := ⟨e.tag, σ e.target⟩

namespace Function

variable {f g : Function} {u v : BlockKey} {σ : BlockKey → BlockKey} {uid owner : Uid}

/-- The handles of the blocks with their names, in creation order. -/
def labels (f : Function) : List (BlockKey × String) := f.nodes.map fun n => (n.key, n.block.name)

theorem map_fst_labels : f.labels.map (·.1) = f.keys := by
  rw [labels, List.map_map]
  rfl

/-- The second function is the first one under other handles. Nothing is said of flags, addresses
and the order of predecessors. -/
structure Renames (σ : BlockKey → BlockKey) (f g : Function) : Prop where
  name_eq : g.name = f.name
  inj : ∀ u ∈ f.keys, ∀ v ∈ f.keys, σ u = σ v → u = v
  labels_eq : g.labels = f.labels.map fun p => (σ p.1, p.2)
  successors_eq : ∀ u ∈ f.keys, g.successors (σ u) = (f.successors u).map (·.rename σ)

namespace Renames

theorem keys_eq (h : f.Renames σ g) : g.keys = f.keys.map σ := by
  rw [← map_fst_labels, h.labels_eq, ← map_fst_labels, List.map_map, List.map_map]
  rfl

theorem edges_eq (h : f.Renames σ g) : g.edges = f.edges.map fun p => (σ p.1, p.2.rename σ) := by
  rw [edges, h.keys_eq, List.flatMap_map, edges, List.map_flatMap]
  refine List.flatMap_congr fun u hu => ?_
  rw [h.successors_eq u hu, List.map_map, List.map_map]
  rfl

/-! ## Reachability -/

theorem reaches (h : f.Renames σ g) (hr : f.Reaches u v) : g.Reaches (σ u) (σ v) := by
  induction hr with
  | refl => exact .refl _
  | step he _ ih =>
      have he' : Edge.rename σ _ ∈ g.successors (σ _) :=
        h.successors_eq _ (mem_keys_of_mem_successors he) ▸ List.mem_map_of_mem he
      exact .step he' ih

/-- Ways cannot leave the renamed handles, so each of them comes from a way in the first function. -/
theorem exists_of_reaches (h : f.Renames σ g) (hf : f.Wired) (hu : u ∈ f.keys) {b : BlockKey}
    (hr : g.Reaches (σ u) b) : ∃ v ∈ f.keys, σ v = b ∧ f.Reaches u v := by
  generalize ha : σ u = a at hr
  induction hr generalizing u with
  | refl => exact ⟨u, hu, ha, .refl u⟩
  | step he _ ih =>
      subst ha
      rw [h.successors_eq u hu] at he
      obtain ⟨d, hd, rfl⟩ := List.mem_map.mp he
      obtain ⟨v, hv, hvb, hr⟩ := ih (hf.target_mem hd) rfl
      exact ⟨v, hv, hvb, .step hd hr⟩

theorem reaches_iff (h : f.Renames σ g) (hf : f.Wired) (hu : u ∈ f.keys) (hv : v ∈ f.keys) :
    g.Reaches (σ u) (σ v) ↔ f.Reaches u v := by
  constructor
  · intro hr
    obtain ⟨w, hw, hwv, hr⟩ := h.exists_of_reaches hf hu hr
    exact h.inj w hw v hv hwv ▸ hr
  · exact h.reaches

/-- Walks from corresponding blocks miss blocks of the same names. -/
theorem missed_eq (h : f.Renames σ g) (hf : f.Wired) (hg : g.Wired) (hu : u ∈ f.keys)
    {seen seen' : List Node} (hs : f.Walking u seen []) (hs' : g.Walking (σ u) seen' []) :
    (g.unseen seen').head?.map (·.block.name) = (f.unseen seen).head?.map (·.block.name) := by
  have hhead : ∀ (f : Function) (seen : List Node), (f.unseen seen).head?.map (·.block.name) =
      (f.labels.find? fun p => seen.all (·.key ≠ p.1)).map (·.2) := by
    intro f seen
    rw [unseen, List.head?_filter, labels, List.find?_map, Option.map_map]
    rfl
  have hmiss : ∀ p ∈ f.labels, seen'.all (·.key ≠ σ p.1) = seen.all (·.key ≠ p.1) := by
    intro p hp
    have hkey : p.1 ∈ f.keys := map_fst_labels (f := f) ▸ List.mem_map_of_mem hp
    have hiff := h.reaches_iff hf hu hkey
    rw [← hs.mem_iff_reaches hf, ← hs'.mem_iff_reaches hg] at hiff
    rw [Bool.eq_iff_iff]
    simpa using not_congr hiff
  rw [hhead, hhead, h.labels_eq, List.find?_map, Option.map_map]
  exact congrArg (Option.map _) (List.find?_congr hmiss)

/-! ## Defects -/

theorem isEmpty_eq (h : f.Renames σ g) : g.isEmpty = f.isEmpty := by
  have hkeys := congrArg List.isEmpty h.keys_eq
  simpa only [keys, List.isEmpty_map, isEmpty] using hkeys

/-- If corresponding blocks are the entries, the same defect is found. -/
theorem inspect_eq (h : f.Renames σ g) (hf : f.Wired) (hg : g.Wired)
    (hentries : g.entries.map (fun n => (n.key, n.block.name)) =
      f.entries.map fun n => (σ n.key, n.block.name)) :
    ∃ i j, f.inspect = .ok i ∧ g.inspect = .ok j ∧ j.defect = i.defect := by
  have hnames : g.entries.map (·.block.name) = f.entries.map (·.block.name) := by
    simpa [List.map_map, Function.comp_def] using congrArg (List.map Prod.snd) hentries
  have hlength : g.entries.length = f.entries.length := by
    simpa using congrArg List.length hentries
  by_cases hempty : f.isEmpty
  · exact ⟨{}, {}, by rw [inspect, if_pos hempty], by rw [inspect, if_pos (h.isEmpty_eq ▸ hempty)],
      rfl⟩
  have hempty' : ¬ g.isEmpty := h.isEmpty_eq ▸ hempty
  cases he : f.entries with
  | nil =>
      rw [he, List.map_nil, List.map_eq_nil_iff] at hentries
      refine ⟨{ defect := some (.noEntry f.name) }, { defect := some (.noEntry g.name) }, ?_, ?_, ?_⟩
      · simp [inspect, hempty, he]
      · simp [inspect, hempty', hentries]
      · rw [h.name_eq]
  | cons e es =>
      rw [he, List.map_cons, List.map_eq_cons_iff] at hentries
      obtain ⟨e', es', he', hhead, htail⟩ := hentries
      obtain ⟨hkey, hname⟩ := Prod.mk.inj hhead
      cases es with
      | nil =>
          obtain rfl := List.map_eq_nil_iff.mp htail
          obtain ⟨i, hi, hwalk, hdefect⟩ := inspect_of_entries_eq_singleton hf he
          obtain ⟨j, hj, hwalk', hdefect'⟩ := inspect_of_entries_eq_singleton hg he'
          have hu : e.key ∈ f.keys :=
            List.mem_map_of_mem (List.mem_of_mem_filter (he ▸ List.mem_singleton_self e))
          have hmissed := h.missed_eq hf hg hu hwalk (hkey ▸ hwalk')
          refine ⟨i, j, hi, hj, ?_⟩
          calc j.defect = ((g.unseen j.visits).head?.map (·.block.name)).map
                (.unreachable g.name e'.block.name) := by rw [hdefect', Option.map_map]; rfl
            _ = ((f.unseen i.visits).head?.map (·.block.name)).map
                (.unreachable f.name e.block.name) := by rw [hmissed, h.name_eq, hname]
            _ = i.defect := by rw [hdefect, Option.map_map]; rfl
      | cons d ds =>
          obtain ⟨d', ds', rfl, -, -⟩ := List.map_eq_cons_iff.mp htail
          refine ⟨_, _, inspect_of_two_le (by simp [he]), inspect_of_two_le (by simp [he']), ?_⟩
          rw [hnames, hlength, h.name_eq]

end Renames

/-! ## Copies -/

theorem Wired.keys_copy_nodup (h : f.Wired) : (f.copy uid owner).keys.Nodup := by
  rw [keys_copy]
  exact h.nodup.map_on fun u hu v _ he => copyKey_inj hu he

theorem Wired.renames_copy (h : f.Wired) : f.Renames (f.copyKey uid) (f.copy uid owner) where
  name_eq := rfl
  inj u hu v _ he := copyKey_inj hu he
  labels_eq := by
    rw [labels, labels, copy, List.map_map, List.map_map]
    rfl
  successors_eq u hu := by
    obtain ⟨n, hn⟩ := exists_node? hu
    have hmem : f.copyNode uid n ∈ (f.copy uid owner).nodes :=
      List.mem_map_of_mem (mem_nodes_of_node? hn)
    have hnode := node?_of_mem h.keys_copy_nodup hmem
    obtain rfl := key_of_node? hn
    rw [successors_of_node? hn]
    exact successors_of_node? hnode

/-! ## Layouts -/

/-- The handle at a position. -/
def keyAt (f : Function) (i : Option Nat) : BlockKey := (i.bind (f.keys[·]?)).getD ⟨f.uid, 0⟩

theorem keyAt_position? (hu : u ∈ f.keys) : f.keyAt (f.position? u) = u := by
  have hlt := List.idxOf_lt_length_of_mem hu
  simp [keyAt, position?_of_mem hu, List.getElem?_eq_getElem hlt]

/-- The row of a block in the layout. -/
def row (f : Function) (p : BlockKey × String) : Layout.Row :=
  ⟨p.2, (f.successors p.1).map fun e => (e.tag, f.position? e.target)⟩

theorem Wired.rows_layout (h : f.Wired) : f.layout.rows = f.labels.map f.row := by
  simp only [layout, labels, List.map_map]
  refine List.map_congr_left fun n hn => ?_
  simp only [Function.comp_apply, row, successors_of_node? (node?_of_mem h.nodup hn)]

/-- Edges can be read off the row of their source. -/
theorem Wired.successors_eq_row (h : f.Wired) (p : BlockKey × String) :
    f.successors p.1 = (f.row p).edges.map fun q => ⟨q.1, f.keyAt q.2⟩ := by
  rw [row, List.map_map]
  refine (List.map_id' _).symm.trans (List.map_congr_left fun e he => ?_)
  rw [Function.comp_apply, keyAt_position? (h.target_mem he)]

theorem Wired.position?_labels (h : f.Wired) {i : Nat} (hi : i < f.labels.length) :
    f.position? f.labels[i].1 = some i := by
  have hlt : i < f.keys.length := by simpa [labels, keys] using hi
  have hkey : f.labels[i].1 = f.keys[i] := by simp [labels, keys]
  rw [hkey, position?_of_mem (List.getElem_mem hlt), h.nodup.idxOf_getElem i hlt]

/-- A function of the same layout has other handles at the same positions. -/
theorem Wired.renames_of_layout_eq (hf : f.Wired) (hg : g.Wired) (h : f.layout = g.layout) :
    f.Renames (fun u => g.keyAt (f.position? u)) g := by
  have hrows : f.labels.map f.row = g.labels.map g.row :=
    hf.rows_layout.symm.trans ((congrArg Layout.rows h).trans hg.rows_layout)
  have hlen : f.labels.length = g.labels.length := by simpa using congrArg List.length hrows
  -- At each position the two functions have a handle each, and the same row.
  have hkey : ∀ i (hi : i < f.labels.length) (hi' : i < g.labels.length),
      g.keyAt (f.position? f.labels[i].1) = g.labels[i].1 := by
    intro i hi hi'
    have hmem : g.labels[i].1 ∈ g.keys :=
      map_fst_labels (f := g) ▸ List.mem_map_of_mem (List.getElem_mem hi')
    rw [hf.position?_labels hi, ← hg.position?_labels hi', keyAt_position? hmem]
  have hrow : ∀ i (hi : i < f.labels.length) (hi' : i < g.labels.length),
      f.row f.labels[i] = g.row g.labels[i] := by
    intro i hi hi'
    simpa [hi, hi'] using congrArg (·[i]?) hrows
  have hpos : ∀ u ∈ f.keys, ∃ i, ∃ hi : i < f.labels.length, f.labels[i].1 = u := by
    intro u hu
    rw [← map_fst_labels] at hu
    obtain ⟨p, hp, rfl⟩ := List.mem_map.mp hu
    obtain ⟨i, hi, rfl⟩ := List.getElem_of_mem hp
    exact ⟨i, hi, rfl⟩
  refine ⟨congrArg Layout.name h.symm, ?_, ?_, ?_⟩
  · intro u hu v hv he
    obtain ⟨i, hi, rfl⟩ := hpos u hu
    obtain ⟨j, hj, rfl⟩ := hpos v hv
    rw [hkey i hi (hlen ▸ hi), hkey j hj (hlen ▸ hj)] at he
    have hij := congrArg g.position? he
    rw [hg.position?_labels, hg.position?_labels] at hij
    obtain rfl := Option.some.inj hij
    rfl
  · refine List.ext_getElem (by simpa using hlen.symm) fun i hi' hi => ?_
    rw [List.length_map] at hi
    rw [List.getElem_map, hkey i hi hi']
    exact Prod.ext rfl (congrArg Layout.Row.name (hrow i hi hi')).symm
  · intro u hu
    obtain ⟨i, hi, rfl⟩ := hpos u hu
    have hi' : i < g.labels.length := hlen ▸ hi
    rw [hkey i hi hi', hg.successors_eq_row, ← hrow i hi hi', row, List.map_map]
    rfl

end Function

end FlowGraph
