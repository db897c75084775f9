import FlowGraph.Function.Inspect
import FlowGraph.Function.Search
import FlowGraph.Proofs.Function.Consistent

/-!
Inspecting a function tells whether it is sound, and if not why. The walk sees exactly the blocks
reachable from where it starts.
-/
namespace FlowGraph.Function

variable {f : Function} {n : Node} {entry key : BlockKey} {seen : List Node}
  {stack : List BlockKey}

/-! ## The walk -/

/-- What holds between two steps of a walk from `entry`: every edge of a seen block leads to a seen
block or to one on the stack. -/
structure Walking (f : Function) (entry : BlockKey) (seen : List Node) (stack : List BlockKey) :
    Prop where
  nodup : (seen.map (·.key)).Nodup
  nodes : ∀ n ∈ seen, n ∈ f.nodes
  reached : ∀ n ∈ seen, f.Reaches entry n.key
  live : ∀ key ∈ stack, key ∈ f.keys
  ahead : ∀ key ∈ stack, f.Reaches entry key
  closed : ∀ n ∈ seen, ∀ e ∈ n.successors, e.target ∈ seen.map (·.key) ∨ e.target ∈ stack
  start : entry ∈ seen.map (·.key) ∨ entry ∈ stack

namespace Walking

theorem init (h : entry ∈ f.keys) : f.Walking entry [] [entry] where
  nodup := List.nodup_nil
  nodes := by simp
  reached := by simp
  live := by simpa using h
  ahead := by simpa using Reaches.refl entry
  closed := by simp
  start := by simp

/-- A block that is met again is passed over. -/
theorem skip (h : f.Walking entry seen (key :: stack)) (hs : key ∈ seen.map (·.key)) :
    f.Walking entry seen stack where
  nodup := h.nodup
  nodes := h.nodes
  reached := h.reached
  live k hk := h.live k (List.mem_cons_of_mem _ hk)
  ahead k hk := h.ahead k (List.mem_cons_of_mem _ hk)
  closed n hn e he := by
    rcases h.closed n hn e he with ht | ht
    · exact .inl ht
    · rcases List.mem_cons.mp ht with ht | ht
      · exact .inl (ht ▸ hs)
      · exact .inr ht
  start := by
    rcases h.start with hk | hk
    · exact .inl hk
    · rcases List.mem_cons.mp hk with rfl | hk
      · exact .inl hs
      · exact .inr hk

/-- The target of an edge is marked, or it goes on the stack. -/
theorem target_pushed {e : Edge} (he : e ∈ n.successors) :
    e.target ∈ seen.map (·.key) ∨
      e.target ∈ (n.successors.map (·.target)).filter fun t => seen.all (·.key ≠ t) := by
  by_cases ht : e.target ∈ seen.map (·.key)
  · exact .inl ht
  · refine .inr (List.mem_filter.mpr ⟨List.mem_map_of_mem he, List.all_eq_true.mpr fun m hm => ?_⟩)
    have hne : m.key ≠ e.target := fun hm' => ht (hm' ▸ List.mem_map_of_mem hm)
    simpa using hne

/-- A new block is marked, and the targets of its edges that are not marked go on the stack. -/
theorem visit (hw : f.Wired) (h : f.Walking entry seen (n.key :: stack))
    (hs : n.key ∉ seen.map (·.key)) (hn : f.node? n.key = some n) :
    f.Walking entry (seen ++ [n])
      ((n.successors.map (·.target)).filter (fun t => (seen ++ [n]).all (·.key ≠ t)) ++ stack) where
  nodup := by
    rw [List.map_append]
    exact List.nodup_append_comm.mp (List.nodup_cons.mpr ⟨hs, h.nodup⟩)
  nodes m hm := by
    rcases List.mem_append.mp hm with hm | hm
    · exact h.nodes m hm
    · exact List.mem_singleton.mp hm ▸ mem_nodes_of_node? hn
  reached m hm := by
    rcases List.mem_append.mp hm with hm | hm
    · exact h.reached m hm
    · exact List.mem_singleton.mp hm ▸ h.ahead n.key List.mem_cons_self
  live k hk := by
    rcases List.mem_append.mp hk with hk | hk
    · obtain ⟨e, he, rfl⟩ := List.mem_map.mp (List.mem_of_mem_filter hk)
      exact hw.target_mem (successors_of_node? hn ▸ he)
    · exact h.live k (List.mem_cons_of_mem _ hk)
  ahead k hk := by
    rcases List.mem_append.mp hk with hk | hk
    · obtain ⟨e, he, rfl⟩ := List.mem_map.mp (List.mem_of_mem_filter hk)
      exact (h.ahead n.key List.mem_cons_self).edge (successors_of_node? hn ▸ he)
    · exact h.ahead k (List.mem_cons_of_mem _ hk)
  closed m hm e he := by
    rcases List.mem_append.mp hm with hm | hm
    · rw [List.map_append]
      rcases h.closed m hm e he with ht | ht
      · exact .inl (List.mem_append_left _ ht)
      · rcases List.mem_cons.mp ht with ht | ht
        · exact .inl (List.mem_append_right _ (List.mem_singleton.mpr ht))
        · exact .inr (List.mem_append_right _ ht)
    · rw [List.mem_singleton.mp hm] at he
      exact (target_pushed he).imp_right (List.mem_append_left _)
  start := by
    rw [List.map_append]
    rcases h.start with hk | hk
    · exact .inl (List.mem_append_left _ hk)
    · rcases List.mem_cons.mp hk with hk | hk
      · exact .inl (List.mem_append_right _ (List.mem_singleton.mpr hk))
      · exact .inr (List.mem_append_right _ hk)

/-- The walk ends, and with an empty stack. -/
theorem walk_eq_ok (hw : f.Wired) (h : f.Walking entry seen stack) :
    ∃ visits, f.walk seen stack = .ok visits ∧ f.Walking entry visits [] := by
  -- The induction follows the walk. Handles on the stack are live, so each of them finds its node.
  fun_induction f.walk seen stack with
  | case1 seen => exact ⟨seen, rfl, h⟩
  | case2 seen key stack hs ih =>
      exact ih (h.skip (by simpa using hs))
  | case3 seen key stack hs hn =>
      exact absurd (h.live key List.mem_cons_self) (node?_eq_none_iff.mp hn)
  | case4 seen key stack hs n hn targets seen' ih =>
      obtain rfl := key_of_node? hn
      exact ih (h.visit hw (by simpa using hs) hn)

/-- What is seen in the end is what is reachable. -/
theorem mem_iff_reaches (hw : f.Wired) (h : f.Walking entry seen []) :
    key ∈ seen.map (·.key) ↔ f.Reaches entry key := by
  constructor
  · intro hk
    obtain ⟨n, hn, rfl⟩ := List.mem_map.mp hk
    exact h.reached n hn
  · -- With nothing on the stack, every edge of a seen block leads to a seen block.
    have hclosed : ∀ {a b}, f.Reaches a b → a ∈ seen.map (·.key) → b ∈ seen.map (·.key) := by
      intro a b hab
      induction hab with
      | refl => exact id
      | step he _ ih =>
          intro ha
          obtain ⟨n, hn, rfl⟩ := List.mem_map.mp ha
          rw [successors_of_node? (node?_of_mem hw.nodup (h.nodes n hn))] at he
          exact ih ((h.closed n hn _ he).resolve_right List.not_mem_nil)
    exact fun hr => hclosed hr (h.start.resolve_right List.not_mem_nil)

/-- As many blocks are seen as there are only if all are seen. -/
theorem unseen_eq_nil (h : f.Walking entry seen stack) (hl : ¬ seen.length < f.size) :
    f.unseen seen = [] := by
  have hsub : seen.map (·.key) ⊆ f.keys := by
    intro k hk
    obtain ⟨n, hn, rfl⟩ := List.mem_map.mp hk
    exact List.mem_map_of_mem (h.nodes n hn)
  have hlen : f.keys.length ≤ (seen.map (·.key)).length := by
    simpa [keys, size] using hl
  have hperm := (h.nodup.subperm hsub).perm_of_length_le hlen
  simp only [unseen, List.filter_eq_nil_iff]
  intro n hn hall
  obtain ⟨m, hm, hk⟩ := List.mem_map.mp (hperm.mem_iff.mpr (List.mem_map_of_mem hn))
  have := List.all_eq_true.mp hall m hm
  simp [hk] at this

end Walking

/-! ## The outcome of a walk -/

/-- The first block in creation order to which no way leads. -/
def FirstUnreachable (f : Function) (entry : BlockKey) (n : Node) : Prop :=
  ∃ before after, f.nodes = before ++ n :: after ∧ (∀ m ∈ before, f.Reaches entry m.key) ∧
    ¬ f.Reaches entry n.key

theorem Walking.head?_unseen (hw : f.Wired) (h : f.Walking entry seen []) :
    (f.unseen seen).head? = some n ↔ f.FirstUnreachable entry n := by
  have hr : ∀ m : Node, seen.all (·.key ≠ m.key) = true ↔ ¬ f.Reaches entry m.key := by
    intro m
    rw [← h.mem_iff_reaches hw]
    simp
  have hs : ∀ m : Node, (!seen.all (·.key ≠ m.key)) = true ↔ f.Reaches entry m.key := by
    intro m
    rw [Bool.not_eq_true', Bool.eq_false_iff, ne_eq, hr, not_not]
  simp only [unseen, List.head?_filter, List.find?_eq_some_iff_append, hr, hs]
  constructor
  · rintro ⟨hn, before, after, hnodes, hbefore⟩
    exact ⟨before, after, hnodes, hbefore, hn⟩
  · rintro ⟨before, after, hnodes, hbefore, hn⟩
    exact ⟨hn, before, after, hnodes, hbefore⟩

/-- No block is missed exactly if a way leads to each. -/
theorem Walking.unseen_eq_nil_iff (hw : f.Wired) (h : f.Walking entry seen []) :
    f.unseen seen = [] ↔ ∀ key ∈ f.keys, f.Reaches entry key := by
  simp only [unseen, List.filter_eq_nil_iff, ← h.mem_iff_reaches hw, keys, List.forall_mem_map]
  simp

theorem inspect_of_entries_eq_singleton {e : Node} (hw : f.Wired) (he : f.entries = [e]) :
    ∃ i, f.inspect = .ok i ∧ f.Walking e.key i.visits [] ∧
      i.defect = (f.unseen i.visits).head?.map (.unreachable f.name e.block.name ·.block.name) := by
  have hmem : e ∈ f.nodes := List.mem_of_mem_filter (he ▸ List.mem_singleton_self e)
  have hne : f.isEmpty = false := by
    cases hf : f.nodes with
    | nil => simp [hf] at hmem
    | cons n ns => simp [isEmpty, hf]
  obtain ⟨visits, hv, hwalk⟩ := (Walking.init (List.mem_map_of_mem hmem)).walk_eq_ok hw
  have hmissed : (if visits.length < f.size then (f.unseen visits).head? else none) =
      (f.unseen visits).head? := by
    split
    · rfl
    · next hl => rw [hwalk.unseen_eq_nil hl, List.head?_nil]
  refine ⟨⟨visits, (f.unseen visits).head?.map (.unreachable f.name e.block.name ·.block.name)⟩,
    ?_, hwalk, rfl⟩
  simp only [inspect, hne, he, hv]
  rw [← hmissed]
  rfl

/-! ## Flagged blocks -/

/-- Among the blocks the one of `n` is flagged as entry, and no other. -/
def OnlyEntry (f : Function) (n : Node) : Prop :=
  ∃ before after, f.nodes = before ++ n :: after ∧ n.block.isEntry ∧
    ∀ m ∈ before ++ after, ¬ m.block.isEntry

theorem entries_eq_nil_iff : f.entries = [] ↔ ∀ n ∈ f.nodes, ¬ n.block.isEntry :=
  List.filter_eq_nil_iff

theorem entries_eq_singleton_iff : f.entries = [n] ↔ f.OnlyEntry n := by
  rw [entries, List.filter_eq_cons_iff]
  constructor
  · rintro ⟨before, after, hnodes, hbefore, hn, hafter⟩
    exact ⟨before, after, hnodes, hn, List.forall_mem_append.mpr
      ⟨hbefore, List.filter_eq_nil_iff.mp hafter⟩⟩
  · rintro ⟨before, after, hnodes, hn, hothers⟩
    obtain ⟨hbefore, hafter⟩ := List.forall_mem_append.mp hothers
    exact ⟨before, after, hnodes, hbefore, hn, List.filter_eq_nil_iff.mpr hafter⟩

theorem length_entries : f.entries.length = f.nodes.countP (·.block.isEntry) :=
  List.countP_eq_length_filter.symm

/-! ## The verdict -/

/-- What is said of a function. -/
structure Verdict (f : Function) (d : Option Defect) : Prop where
  sound : d = none ↔
    f.keys = [] ∨ ∃ entry, f.OnlyEntry entry ∧ ∀ key ∈ f.keys, f.Reaches entry.key key
  noEntry : ∀ function, d = some (.noEntry function) ↔
    function = f.name ∧ f.keys ≠ [] ∧ ∀ n ∈ f.nodes, ¬ n.block.isEntry
  multipleEntries : ∀ function count blocks,
    d = some (.multipleEntries function count blocks) ↔
      function = f.name ∧ count = f.nodes.countP (·.block.isEntry) ∧ 2 ≤ count ∧
        blocks = (f.nodes.filter (·.block.isEntry)).map (·.block.name)
  unreachable : (∃ function entry block, d = some (.unreachable function entry block)) ↔
    ∃ entry, f.OnlyEntry entry ∧ ∃ key ∈ f.keys, ¬ f.Reaches entry.key key
  firstUnreachable : ∀ function entry block, d = some (.unreachable function entry block) ↔
    function = f.name ∧ ∃ e n, f.OnlyEntry e ∧ f.FirstUnreachable e.key n ∧
      entry = e.block.name ∧ block = n.block.name

theorem Verdict.of_keys_eq_nil (h : f.keys = []) : f.Verdict none := by
  have hn : f.nodes = [] := List.map_eq_nil_iff.mp h
  constructor <;> simp +contextual [h, hn, OnlyEntry]

theorem Verdict.of_entries_eq_nil (h : f.keys ≠ []) (he : f.entries = []) :
    f.Verdict (some (.noEntry f.name)) := by
  have hnone : ∀ entry, ¬ f.OnlyEntry entry := by simp [← entries_eq_singleton_iff, he]
  have hzero : f.nodes.countP (·.block.isEntry) = 0 := by simp [← length_entries, he]
  have hall := entries_eq_nil_iff.mp he
  constructor <;> simp +contextual [h, hnone, hzero, hall, eq_comm]

theorem keys_ne_nil_of_two_le (he : 2 ≤ f.entries.length) : f.keys ≠ [] := by
  intro hk
  have hn : f.nodes = [] := List.map_eq_nil_iff.mp hk
  simp [entries, hn] at he

theorem inspect_of_two_le (he : 2 ≤ f.entries.length) :
    f.inspect = .ok ⟨[], some
      (.multipleEntries f.name f.entries.length (f.entries.map (·.block.name)))⟩ := by
  have hf : f.isEmpty = false := by simpa [isEmpty, keys] using keys_ne_nil_of_two_le he
  cases hes : f.entries with
  | nil => simp [hes] at he
  | cons e es =>
      cases es with
      | nil => simp [hes] at he
      | cons e' es => simp [inspect, hf, hes]

theorem Verdict.of_two_le (he : 2 ≤ f.entries.length) :
    f.Verdict (some
      (.multipleEntries f.name f.entries.length (f.entries.map (·.block.name)))) := by
  have hk := keys_ne_nil_of_two_le he
  have hnone : ∀ entry, ¬ f.OnlyEntry entry := by
    intro entry ho
    simp [entries_eq_singleton_iff.mpr ho] at he
  have hflag : ∃ n ∈ f.nodes, n.block.isEntry :=
    List.countP_pos_iff.mp (by rw [← length_entries]; omega)
  refine ⟨?_, ?_, fun function count blocks => ?_, ?_, ?_⟩
  · simp [hk, hnone]
  · simpa using fun _ => hflag
  · rw [← length_entries]
    constructor
    · intro h
      obtain ⟨rfl, rfl, rfl⟩ := Defect.multipleEntries.inj (Option.some.inj h)
      exact ⟨rfl, rfl, he, rfl⟩
    · rintro ⟨rfl, rfl, -, rfl⟩
      rfl
  · simp [hnone]
  · simp [hnone]

theorem Verdict.of_entries_eq_singleton {e : Node} (hw : f.Wired) (he : f.entries = [e])
    (h : f.Walking e.key seen []) :
    f.Verdict ((f.unseen seen).head?.map (.unreachable f.name e.block.name ·.block.name)) := by
  have hk : f.keys ≠ [] := by
    have hmem : e ∈ f.nodes := List.mem_of_mem_filter (he ▸ List.mem_singleton_self e)
    exact List.ne_nil_of_mem (List.mem_map_of_mem hmem)
  have hall := h.unseen_eq_nil_iff hw
  have hsome : (∃ n, (f.unseen seen).head? = some n) ↔ ∃ key ∈ f.keys, ¬ f.Reaches e.key key := by
    rw [← Option.ne_none_iff_exists', ne_eq, List.head?_eq_none_iff, hall]
    simp
  have hone : ∀ entry, f.OnlyEntry entry ↔ e = entry := by simp [← entries_eq_singleton_iff, he]
  have hcount : f.nodes.countP (·.block.isEntry) = 1 := by simp [← length_entries, he]
  have hflag : ∃ n ∈ f.nodes, n.block.isEntry :=
    List.countP_pos_iff.mp (by rw [hcount]; exact Nat.one_pos)
  refine ⟨?_, ?_, ?_, ?_, ?_⟩
  · simp [hk, hone, hall]
  · simpa using fun _ => hflag
  · simp +contextual [hcount]
  · simp only [hone, exists_eq_left', ← hsome]
    constructor
    · rintro ⟨function, entry, block, hd⟩
      obtain ⟨n, hn, -⟩ := Option.map_eq_some_iff.mp hd
      exact ⟨n, hn⟩
    · rintro ⟨n, hn⟩
      exact ⟨f.name, e.block.name, n.block.name, by rw [hn]; rfl⟩
  · intro function entry block
    rw [Option.map_eq_some_iff]
    constructor
    · rintro ⟨n, hn, hd⟩
      obtain ⟨rfl, rfl, rfl⟩ := Defect.unreachable.inj hd
      exact ⟨rfl, e, n, (hone e).mpr rfl, (h.head?_unseen hw).mp hn, rfl, rfl⟩
    · rintro ⟨rfl, e', n, ho, hn, rfl, rfl⟩
      obtain rfl := (hone e').mp ho
      exact ⟨n, (h.head?_unseen hw).mpr hn, rfl⟩

theorem Wired.exists_verdict (h : f.Wired) :
    ∃ i, f.inspect = .ok i ∧ f.Verdict i.defect := by
  by_cases hk : f.keys = []
  · have hf : f.isEmpty := by simpa [isEmpty, keys] using hk
    exact ⟨{}, by simp [inspect, hf], .of_keys_eq_nil hk⟩
  · have hf : f.isEmpty = false := by simpa [isEmpty, keys] using hk
    cases he : f.entries with
    | nil =>
        exact ⟨{ defect := some (.noEntry f.name) }, by simp [inspect, hf, he],
          .of_entries_eq_nil hk he⟩
    | cons e es =>
        cases es with
        | nil =>
            obtain ⟨i, hi, hwalk, hd⟩ := inspect_of_entries_eq_singleton h he
            exact ⟨i, hi, hd ▸ .of_entries_eq_singleton h he hwalk⟩
        | cons e' es =>
            have htwo : 2 ≤ f.entries.length := by simp [he]
            exact ⟨_, inspect_of_two_le htwo, .of_two_le htwo⟩

/-- To pass the check is to deserve it. -/
theorem Wired.inspect_sound_iff (h : f.Wired) :
    (∃ i, f.inspect = .ok i ∧ i.defect = none) ↔ f.Verdict none := by
  obtain ⟨i, hi, hverdict⟩ := h.exists_verdict
  constructor
  · rintro ⟨j, hj, hd⟩
    obtain rfl := Except.ok.inj (hi.symm.trans hj)
    exact hd ▸ hverdict
  · exact fun hnone => ⟨i, hi, hverdict.sound.mpr (hnone.sound.mp rfl)⟩

theorem Wired.verdict_none_iff (h : f.Wired) : f.Verdict none ↔
    f.keys = [] ∨ ∃ entry, f.OnlyEntry entry ∧ ∀ key ∈ f.keys, f.Reaches entry.key key := by
  refine ⟨fun hnone => hnone.sound.mp rfl, fun hsound => ?_⟩
  obtain ⟨i, -, hverdict⟩ := h.exists_verdict
  exact hverdict.sound.mpr hsound ▸ hverdict

/-- Every function is judged, and rightly. -/
theorem inspect_verdict (h : f.Reachable) : ∃ i, f.inspect = .ok i ∧ f.Verdict i.defect :=
  h.wired.exists_verdict

/-- A cycle, two edges between the same blocks, and a block that only a deleted one led to. -/
theorem inspect_verdict_cycle :
    let a : BlockKey := ⟨⟨1⟩, 0⟩
    let b : BlockKey := ⟨⟨1⟩, 1⟩
    let c : BlockKey := ⟨⟨1⟩, 2⟩
    let d : BlockKey := ⟨⟨1⟩, 3⟩
    let f := (empty ⟨1⟩ "f" ⟨0⟩).run
      [.create "a", .create "b", .create "c", .create "d", .connect a b "x", .connect a b "y",
        .connect b a "", .connect b c "", .connect c d "", .delete c]
    f.Reachable ∧ f.keys = [a, b, d] ∧ ∃ i, f.inspect = .ok i ∧ f.Verdict i.defect :=
  ⟨⟨_, _, _, _, rfl⟩, by decide, inspect_verdict ⟨_, _, _, _, rfl⟩⟩

end FlowGraph.Function
