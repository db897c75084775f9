import FlowGraph.Proofs.Function.Entry
import FlowGraph.Proofs.Function.Handles
import FlowGraph.Proofs.Function.Soundness

/-!
The block that came when a function last became non-empty. As long as nobody marks or unmarks blocks
by hand, this block and no other is an entry until it is deleted, and no other becomes one then.
-/
namespace FlowGraph.Function

variable {f g : Function} {e : Edit} {es history done since : List Edit} {key : BlockKey}
  {name : String}

/-! ## The marked block -/

/-- The handle was handed out, and its block is flagged as entry as long as it is there. No other
block is. -/
structure Marks (f : Function) (key : BlockKey) : Prop where
  handedOut : f.HandedOut key
  isEntry_iff : ∀ p ∈ f.blocks, p.2.isEntry ↔ p.1 = key

namespace Marks

theorem key_of_mem_entries {n : Node} (h : f.Marks key) (hn : n ∈ f.entries) : n.key = key := by
  obtain ⟨hnode, hentry⟩ := List.mem_filter.mp hn
  exact (h.isEntry_iff _ (List.mem_map_of_mem hnode)).mp hentry

theorem entries_eq_nil_iff (h : f.Marks key) : f.entries = [] ↔ key ∉ f.keys := by
  rw [entries, List.filter_eq_nil_iff]
  constructor
  · intro hnone hk
    obtain ⟨n, hn, rfl⟩ := mem_keys_iff.mp hk
    exact hnone n hn ((h.isEntry_iff _ (List.mem_map_of_mem hn)).mpr rfl)
  · intro hk n hn hentry
    have hkey : n.key = key := (h.isEntry_iff _ (List.mem_map_of_mem hn)).mp hentry
    exact hk (hkey ▸ List.mem_map_of_mem hn)

theorem createBlock (h : f.Marks key) (hne : f.keys ≠ []) : (f.createBlock name).1.Marks key where
  handedOut := (HandedOut.kept key).create h.handedOut
  isEntry_iff p hp := by
    rw [blocks_createBlock] at hp
    rcases List.mem_append.mp hp with hp | hp
    · exact h.isEntry_iff p hp
    · obtain rfl := List.mem_singleton.mp hp
      have hfull : f.isEmpty = false := by simpa [isEmpty, keys] using hne
      have hnew : (⟨f.uid, f.nextSerial⟩ : BlockKey) ≠ key := by
        rintro rfl
        exact Nat.lt_irrefl _ h.handedOut.2
      simp [Block.isEntry, hfull, hnew]

/-- In a function with blocks building marks nothing. -/
theorem built : Dot.Built fun f => f.Marks key ∧ f.keys ≠ [] where
  create h := ⟨h.1.createBlock h.2, by simp⟩
  connect h hc := by
    refine ⟨⟨(HandedOut.kept key).connect h.1.handedOut hc, ?_⟩, by rw [keys_connect hc]; exact h.2⟩
    rw [blocks_connect hc]
    exact h.1.isEntry_iff

theorem apply (h : f.Marks key) (hne : f.keys ≠ []) (he : e.Allowed BlockEdit.SparesEntry) :
    (f.apply e).Marks key := by
  have ho := outcome_apply f e
  generalize f.apply e = g at ho ⊢
  cases ho with
  | refused => exact h
  | created name => exact h.createBlock hne
  | deleted _ _ hd =>
      refine ⟨(HandedOut.kept key).delete h.handedOut hd, fun p hp => ?_⟩
      rw [blocks_deleteBlock hd] at hp
      exact h.isEntry_iff p (List.mem_of_mem_filter hp)
  | connected hc => exact (built.connect ⟨h, hne⟩ hc).1
  | disconnected hd =>
      refine ⟨(HandedOut.kept key).disconnect h.handedOut hd, ?_⟩
      rw [blocks_disconnect hd]
      exact h.isEntry_iff
  | changed hc =>
      refine ⟨(HandedOut.kept key).change h.handedOut hc, fun p hp => ?_⟩
      rw [blocks_editBlock hc] at hp
      obtain ⟨q, hq, rfl⟩ := List.mem_map.mp hp
      have hold := h.isEntry_iff q hq
      split
      · rwa [BlockEdit.SparesEntry.isEntry_edit he]
      · exact hold
  | populated g => exact (built.populate ⟨h, hne⟩ g).1

theorem run (h : f.Marks key) (hne : ∀ ds, ds <+: es → (f.run ds).keys ≠ [])
    (he : ∀ e ∈ es, e.Allowed BlockEdit.SparesEntry) : (f.run es).Marks key := by
  induction es generalizing f with
  | nil => exact h
  | cons e es ih =>
      have hnext := h.apply (hne [] List.nil_prefix) (he e List.mem_cons_self)
      refine ih hnext (fun ds hds => ?_) fun d hd => he d (List.mem_cons_of_mem e hd)
      exact hne (e :: ds) (List.prefix_cons_inj e |>.mpr hds)

end Marks

/-! ## Becoming non-empty -/

theorem Wired.keys_apply (h : f.Wired) (e : Edit) :
    ∃ kept, kept.Sublist f.keys ∧ (f.apply e).keys = kept ++ e.handles f := by
  have ho := outcome_apply f e
  generalize f.apply e = g at ho ⊢
  cases ho with
  | refused hnone => exact ⟨f.keys, .refl _, by rw [hnone, List.append_nil]⟩
  | created name => exact ⟨f.keys, .refl _, keys_createBlock⟩
  | deleted hnone _ hd =>
      exact ⟨_, List.filter_sublist, by rw [keys_deleteBlock hd, hnone, List.append_nil]⟩
  | connected hc => exact ⟨f.keys, .refl _, by simp [keys_connect hc, Edit.handles]⟩
  | disconnected hd => exact ⟨f.keys, .refl _, by simp [keys_disconnect hd, Edit.handles]⟩
  | changed hc => exact ⟨f.keys, .refl _, by simp [keys_editBlock hc, Edit.handles]⟩
  | populated g =>
      obtain ⟨k, -, hfollows⟩ := g.exists_follows h
      refine ⟨f.keys, .refl _, ?_⟩
      rw [hfollows.function_eq, Dot.Sketch.keys_build, Edit.handles, hfollows.known_eq,
        List.map_map]
      rfl

theorem Wired.keys_apply_of_empty (h : f.Wired) (he : f.keys = []) (e : Edit) :
    (f.apply e).keys = e.handles f := by
  obtain ⟨kept, hkept, hkeys⟩ := h.keys_apply e
  rw [he, List.sublist_nil] at hkept
  rw [hkeys, hkept, List.nil_append]

/-- The first block of a graph that is built into an empty function is marked, and no other. -/
theorem marks_build {k : Dot.Sketch} (he : f.keys = []) {id : String} {ids : List String}
    (hids : k.ids = id :: ids) : (k.build f).Marks (k.key f id) where
  handedOut := by
    have hlength : k.blocks.length = ids.length + 1 := by
      simpa [Dot.Sketch.ids] using congrArg List.length hids
    refine ⟨rfl, ?_⟩
    simp only [Dot.Sketch.key, Dot.Sketch.build, hids, List.idxOf_cons_self, hlength]
    omega
  isEntry_iff p hp := by
    have hempty : f.nodes = [] := List.map_eq_nil_iff.mp he
    have hfirst : k.ids.idxOf id = 0 := by rw [hids, List.idxOf_cons_self]
    simp only [blocks, Dot.Sketch.build, hempty, List.nil_append, List.map_map] at hp
    obtain ⟨b, hb, rfl⟩ := List.mem_map.mp hp
    have hentry : (k.node f b).block.isEntry ↔ k.ids.idxOf b.1 = 0 := by
      simp [Dot.Sketch.node, Block.isEntry, isEmpty, hempty]
    have hkey : (k.node f b).key = k.key f id ↔ k.ids.idxOf b.1 = 0 := by
      simp [Dot.Sketch.node, Dot.Sketch.key, hfirst]
    exact hentry.trans hkey.symm

theorem Wired.marks_apply_of_empty (h : f.Wired) (he : f.keys = [])
    (hfirst : (e.handles f).head? = some key) : (f.apply e).Marks key := by
  cases e with
  | create name =>
      obtain rfl : (⟨f.uid, f.nextSerial⟩ : BlockKey) = key := by
        simpa [Edit.handles, Function.createBlock] using hfirst
      have hempty : f.nodes = [] := List.map_eq_nil_iff.mp he
      refine ⟨⟨rfl, Nat.lt_succ_self _⟩, fun p hp => ?_⟩
      rw [Function.apply, blocks_createBlock, blocks, hempty, List.map_nil, List.nil_append] at hp
      obtain rfl := List.mem_singleton.mp hp
      simp [Block.isEntry, isEmpty, hempty]
  | populate g =>
      obtain ⟨k, -, hfollows⟩ := g.exists_follows h
      rw [Function.apply, hfollows.function_eq]
      rw [Edit.handles, hfollows.known_eq, List.map_map, List.head?_map] at hfirst
      obtain ⟨id, hid, rfl⟩ := Option.map_eq_some_iff.mp hfirst
      obtain ⟨ids, hids⟩ := List.head?_eq_some_iff.mp hid
      exact marks_build he hids
  | delete gone => simp [Edit.handles] at hfirst
  | deleteNamed name => simp [Edit.handles] at hfirst
  | connect src dst tag => simp [Edit.handles] at hfirst
  | disconnect src tag => simp [Edit.handles] at hfirst
  | change target c => simp [Edit.handles] at hfirst

/-- After `done` the function is empty. The edit `e` creates blocks in it, the first of them under
the handle `key`, and it is not empty again. -/
structure OpenedBy (f : Function) (history done : List Edit) (e : Edit) (since : List Edit)
    (key : BlockKey) : Prop where
  history_eq : history = done ++ e :: since
  empty : (f.run done).keys = []
  first : (e.handles (f.run done)).head? = some key
  inhabited : ∀ es, es <+: since → (f.run (done ++ e :: es)).keys ≠ []

/-- A function that is empty at first and has blocks in the end became non-empty at some edit for
the last time. -/
theorem Wired.exists_openedBy (h : f.Wired) (he : f.keys = []) (hne : (f.run history).keys ≠ []) :
    ∃ done e since key, f.OpenedBy history done e since key := by
  -- From the end: the last edit opened the function, or one before it did.
  induction history using List.reverseRecOn with
  | nil => exact absurd he hne
  | append_singleton es d ih =>
      by_cases hes : (f.run es).keys = []
      · have hkeys := (Wired.kept.run h es).keys_apply_of_empty hes d
        have hrun : f.run (es ++ [d]) = (f.run es).apply d := by simp [run_append]
        rw [hrun, hkeys] at hne
        refine ⟨es, d, [], _, rfl, hes, List.head?_eq_some_head hne, fun ds hds => ?_⟩
        rw [List.prefix_nil.mp hds, hrun, hkeys]
        exact hne
      · obtain ⟨done, e, since, key, rfl, hempty, hfirst, hin⟩ := ih hes
        refine ⟨done, e, since ++ [d], key, by simp, hempty, hfirst, fun ds hds => ?_⟩
        rcases List.prefix_concat_iff.mp hds with rfl | hds
        · simpa using hne
        · exact hin ds hds

namespace OpenedBy

variable (h : f.OpenedBy history done e since key)
include h

theorem run_eq : f.run history = (f.run (done ++ [e])).run since := by
  rw [h.history_eq, ← run_append, List.append_assoc, List.singleton_append]

theorem mem_keys (hf : f.Wired) : key ∈ (f.run (done ++ [e])).keys := by
  rw [run_append, run_cons, run_nil, (Wired.kept.run hf done).keys_apply_of_empty h.empty e]
  exact List.mem_of_head? h.first

theorem marks (hf : f.Wired) (hh : ∀ d ∈ history, d.Allowed BlockEdit.SparesEntry) :
    (f.run history).Marks key := by
  have hopened : (f.run (done ++ [e])).Marks key := by
    rw [run_append]
    exact (Wired.kept.run hf done).marks_apply_of_empty h.empty h.first
  rw [h.run_eq]
  refine hopened.run (fun ds hds => ?_) fun d hd => hh d ?_
  · rw [← run_append, List.append_assoc, List.singleton_append]
    exact h.inhabited ds hds
  · rw [h.history_eq]
    exact List.mem_append_right _ (List.mem_cons_of_mem e hd)

end OpenedBy

/-! ## Being deleted -/

/-- One of the edits deletes the block of that handle. -/
def DeletedBy (f : Function) (es : List Edit) (key : BlockKey) : Prop :=
  ∃ before d after, es = before ++ d :: after ∧ key ∈ (f.run before).keys ∧
    d.Deletes (f.run before) key

/-- A block is gone when it has been deleted, and only then. -/
theorem Wired.not_mem_keys_run_iff (h : f.Wired) (hk : key ∈ f.keys) :
    key ∉ (f.run es).keys ↔ f.DeletedBy es key := by
  constructor
  · intro hgone
    induction es generalizing f with
    | nil => exact absurd hk hgone
    | cons e es ih =>
        by_cases he : e.Deletes f key
        · exact ⟨[], e, es, rfl, hk, he⟩
        · obtain ⟨name, owner, hholds⟩ := Holds.exists_of_mem hk
          obtain ⟨before, d, after, rfl, hd⟩ :=
            ih (Wired.kept.apply h e) (hholds.apply he).mem_keys hgone
          exact ⟨e :: before, d, after, rfl, hd⟩
  · rintro ⟨before, d, after, rfl, hlive, hd⟩
    rw [run_append, run_cons]
    have hretired := (Wired.kept.run h before).retired_apply hlive hd
    exact ((Retired.kept key).run hretired after).2

/-! ## The entry -/

namespace EntryLeads

theorem exists_inspect (h : f.EntryLeads) (hw : f.Wired) :
    ∃ i, f.inspect = .ok i ∧
      ∀ function count blocks, i.defect ≠ some (.multipleEntries function count blocks) := by
  cases hn : f.nodes with
  | nil => exact ⟨{}, by simp [inspect, isEmpty, hn], by simp⟩
  | cons n ns =>
      have hentries := h.entries_eq hn
      split at hentries
      · obtain ⟨i, hi, -, hdefect⟩ := inspect_of_entries_eq_singleton hw hentries
        refine ⟨i, hi, fun function count blocks => ?_⟩
        rw [hdefect]
        simp
      · refine ⟨{ defect := some (.noEntry f.name) }, ?_, by simp⟩
        simp [inspect, isEmpty, hn, hentries]

end EntryLeads

/-- What is known of the entry after a history that starts from `f`. -/
structure EntryByItself (f : Function) (history : List Edit) : Prop where
  entries_le : (f.run history).entries.length ≤ 1
  /-- The entry is the first block, and it opened the function. There is no entry only when that
  block has been deleted since. -/
  opened : (f.run history).keys ≠ [] → ∃ done e since key, f.OpenedBy history done e since key ∧
    (∀ n ∈ (f.run history).entries, n.key = key ∧ (f.run history).keys.head? = some key) ∧
    ((f.run history).entries = [] ↔ (f.run (done ++ [e])).DeletedBy since key)
  entryBlock? : (f.run history).entryBlock? = none ∨
    (f.run history).entryBlock? = (f.run history).keys.head?
  inspect : ∃ i, (f.run history).inspect = .ok i ∧
    ∀ function count blocks, i.defect ≠ some (.multipleEntries function count blocks)

/-- As long as nobody marks blocks by hand there is at most one entry, and it is in front. -/
theorem entryByItself_run (uid : Uid) (name : String) (owner : Uid)
    (hh : ∀ e ∈ history, e.Allowed BlockEdit.SparesEntry) :
    (empty uid name owner).EntryByItself history := by
  have hempty := Wired.empty uid name owner
  have hlead := EntryLeads.kept.run (EntryLeads.empty uid name owner) hh
  refine ⟨hlead.entries_le, fun hne => ?_, hlead.entryBlock?_eq,
    hlead.exists_inspect (Wired.kept.run hempty history)⟩
  obtain ⟨done, e, since, key, ho⟩ := hempty.exists_openedBy rfl hne
  have hmarks := ho.marks hempty hh
  refine ⟨done, e, since, key, ho, fun n hn => ?_, ?_⟩
  · have hkey := hmarks.key_of_mem_entries hn
    exact ⟨hkey, hkey ▸ hlead.head?_keys hn⟩
  · have hwired := Wired.kept.run hempty (done ++ [e])
    rw [hmarks.entries_eq_nil_iff, ho.run_eq, hwired.not_mem_keys_run_iff (ho.mem_keys hempty)]

/-- The function is emptied and refilled by a graph. The entry that it gets then is deleted, and
neither the block that moves up nor a new one becomes an entry. -/
theorem entryByItself_refilled :
    let k (serial : Nat) : BlockKey := ⟨⟨1⟩, serial⟩
    let g : Dot.Graph := ⟨none, [.edge "x" "y" [], .node "z" []]⟩
    let f := empty ⟨1⟩ "f" ⟨0⟩
    let refilled : List Edit :=
      [.create "a", .create "b", .change (k 1) (.exit true), .delete (k 0), .deleteNamed "b",
        .populate g]
    let history := refilled ++ [.connect (k 3) (k 3) "", .delete (k 2), .create "x"]
    (∀ e ∈ history, e.Allowed BlockEdit.SparesEntry) ∧ f.EntryByItself refilled ∧
      f.EntryByItself history ∧ (f.run refilled).entryBlock? = some (k 2) ∧
      (f.run history).keys = [k 3, k 4, k 5] ∧ (f.run history).entries = [] := by
  intro k g f refilled history
  have hh : ∀ e ∈ history, e.Allowed BlockEdit.SparesEntry := by
    simp [history, refilled, Edit.Allowed, BlockEdit.SparesEntry]
  exact ⟨hh, entryByItself_run _ _ _ fun e he => hh e (List.mem_append_left _ he),
    entryByItself_run _ _ _ hh, by decide, by decide, by decide⟩

end FlowGraph.Function
