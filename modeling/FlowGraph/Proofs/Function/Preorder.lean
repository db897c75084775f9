import FlowGraph.Journal
import FlowGraph.Proofs.Function.Soundness

/-!
The walk with a stack is the recursive search. The handles that a block puts on the stack are done
with before anything below them is taken, just as the calls for its edges return before those that
wait. Handles that are marked in the meantime make no difference, whether they are on the stack or
not.
-/
namespace FlowGraph.Function

variable {f : Function} {n : Node} {key : BlockKey} {seen seen' seen'' : List Node}
  {keys keys' before stack : List BlockKey} {depth : Nat}

/-! ## One step -/

theorem walk_of_seen (hs : key ∈ seen.map (·.key)) :
    f.walk seen (key :: stack) = f.walk seen stack := by
  have hany : seen.any (·.key = key) := by simpa using hs
  rw [walk, dif_pos hany]

theorem walk_of_not_mem (hs : key ∉ seen.map (·.key)) (hk : key ∉ f.keys) :
    f.walk seen (key :: stack) = .error .staleKey := by
  have hany : ¬ seen.any (·.key = key) := by simpa using hs
  rw [walk, dif_neg hany]
  split
  · rfl
  · next n hn => exact absurd (mem_keys_of_node? hn) hk

theorem walk_of_node? (hs : n.key ∉ seen.map (·.key)) (hn : f.node? n.key = some n) :
    f.walk seen (n.key :: stack) = f.walk (seen ++ [n])
      ((n.successors.map (·.target)).filter (fun t => (seen ++ [n]).all (·.key ≠ t)) ++ stack) := by
  have hany : ¬ seen.any (·.key = n.key) := by simpa using hs
  rw [walk, dif_neg hany]
  split
  · next hnone => simp [hn] at hnone
  · next m hm =>
      obtain rfl : n = m := Option.some.inj (hn.symm.trans hm)
      rfl

/-! ## Marked handles on the stack -/

/-- A marked handle is passed over wherever it is on the stack. -/
theorem walk_strike (seen : List Node) (before stack : List BlockKey)
    (hs : key ∈ seen.map (·.key)) :
    f.walk seen (before ++ key :: stack) = f.walk seen (before ++ stack) := by
  cases before with
  | nil => exact walk_of_seen hs
  | cons top before =>
      rw [List.cons_append, List.cons_append]
      by_cases htop : top ∈ seen.map (·.key)
      · rw [walk_of_seen htop, walk_of_seen htop, walk_strike seen before stack hs]
      · cases hn : f.node? top with
        | none =>
            have htop' := node?_eq_none_iff.mp hn
            rw [walk_of_not_mem htop htop', walk_of_not_mem htop htop']
        | some n =>
            obtain rfl := key_of_node? hn
            have hs' : key ∈ (seen ++ [n]).map (·.key) := by
              rw [List.map_append]
              exact List.mem_append_left _ hs
            rw [walk_of_node? htop hn, walk_of_node? htop hn, ← List.append_assoc,
              ← List.append_assoc, walk_strike (seen ++ [n]) _ stack hs']
termination_by ((f.unseen seen).length, before.length)
decreasing_by
  · exact Prod.Lex.right _ (Nat.lt_succ_self _)
  · exact Prod.Lex.left _ _ (length_unseen_lt hn (by simpa using htop))

/-- So it does not matter whether marked handles are put there. -/
theorem walk_filter (seen : List Node) (keys before stack : List BlockKey) :
    f.walk seen (before ++ keys.filter (fun t => seen.all (·.key ≠ t)) ++ stack) =
      f.walk seen (before ++ keys ++ stack) := by
  induction keys generalizing before with
  | nil => rfl
  | cons key keys ih =>
      by_cases hs : key ∈ seen.map (·.key)
      · have hkey : ¬ seen.all (·.key ≠ key) := by simpa using hs
        have hstrike := walk_strike (f := f) seen before (keys ++ stack) hs
        rw [List.filter_cons, if_neg hkey, ih]
        simpa using hstrike.symm
      · have hkey : seen.all (·.key ≠ key) := by simpa using hs
        have hkept := ih (before ++ [key])
        rw [List.filter_cons, if_pos hkey]
        simpa using hkept

/-! ## From one state of the walk to another -/

/-- When the walk comes down to what is below `keys` on the stack, `seen'` is marked. -/
structure Clears (f : Function) (seen : List Node) (keys : List BlockKey) (seen' : List Node) :
    Prop where
  grows : seen <+: seen'
  walk_eq : ∀ stack, f.walk seen (keys ++ stack) = f.walk seen' stack

namespace Clears

theorem nil (seen : List Node) : f.Clears seen [] seen := ⟨List.prefix_rfl, fun _ => rfl⟩

theorem append (h : f.Clears seen keys seen') (h' : f.Clears seen' keys' seen'') :
    f.Clears seen (keys ++ keys') seen'' where
  grows := h.grows.trans h'.grows
  walk_eq stack := by rw [List.append_assoc, h.walk_eq, h'.walk_eq]

theorem skip (hs : key ∈ seen.map (·.key)) : f.Clears seen [key] seen :=
  ⟨List.prefix_rfl, fun _ => walk_of_seen hs⟩

theorem visit (hs : n.key ∉ seen.map (·.key)) (hn : f.node? n.key = some n)
    (h : f.Clears (seen ++ [n]) (n.successors.map (·.target)) seen') :
    f.Clears seen [n.key] seen' where
  grows := (List.prefix_append seen [n]).trans h.grows
  walk_eq stack := by
    have hfilter := walk_filter (f := f) (seen ++ [n]) (n.successors.map (·.target)) [] stack
    rw [List.singleton_append, walk_of_node? hs hn, ← h.walk_eq]
    exact hfilter

theorem length_unseen_le (h : f.Clears seen keys seen') :
    (f.unseen seen').length ≤ (f.unseen seen).length := by
  obtain ⟨more, rfl⟩ := h.grows
  have hsub : f.unseen (seen ++ more) =
      (f.unseen seen).filter fun m => more.all (·.key ≠ m.key) := by
    simp [unseen, List.filter_filter, Bool.and_comm]
  rw [hsub]
  exact List.length_filter_le _ _

end Clears

/-! ## The recursive search -/

/-- To this depth the recursive search marks what the walk marks, as long as there are not more
unmarked blocks. -/
def Searches (f : Function) (depth : Nat) : Prop :=
  ∀ {seen : List Node} {key : BlockKey}, key ∈ f.keys → (f.unseen seen).length ≤ depth →
    ∃ seen', f.Clears seen [key] seen' ∧
      seen'.map (·.key) = f.explore depth (seen.map (·.key)) key

/-- Edge by edge, from what the edges before have marked. -/
theorem Searches.foldl (h : f.Searches depth) {es : List Edge} (hes : ∀ e ∈ es, e.target ∈ f.keys)
    (hd : (f.unseen seen).length ≤ depth) :
    ∃ seen', f.Clears seen (es.map (·.target)) seen' ∧
      seen'.map (·.key) =
        es.foldl (fun seen e => f.explore depth seen e.target) (seen.map (·.key)) := by
  induction es generalizing seen with
  | nil => exact ⟨seen, .nil seen, rfl⟩
  | cons e es ih =>
      obtain ⟨seen₁, hfirst, hmap₁⟩ := h (hes e List.mem_cons_self) hd
      obtain ⟨seen₂, hrest, hmap₂⟩ := ih (fun d hd => hes d (List.mem_cons_of_mem e hd))
        (hfirst.length_unseen_le.trans hd)
      refine ⟨seen₂, hfirst.append hrest, ?_⟩
      rw [List.foldl_cons, ← hmap₁, hmap₂]

theorem Wired.searches (h : f.Wired) (depth : Nat) : f.Searches depth := by
  induction depth with
  | zero =>
      intro seen key hk hd
      obtain ⟨n, hn⟩ := exists_node? hk
      have hs : key ∈ seen.map (·.key) := by
        by_contra hs
        have hlt := length_unseen_lt hn (by simpa using hs)
        omega
      exact ⟨seen, .skip hs, rfl⟩
  | succ depth ih =>
      intro seen key hk hd
      by_cases hs : key ∈ seen.map (·.key)
      · exact ⟨seen, .skip hs, by rw [explore, if_pos hs]⟩
      · obtain ⟨n, hn⟩ := exists_node? hk
        obtain rfl := key_of_node? hn
        have hlt := length_unseen_lt hn (by simpa using hs)
        have hsucc := successors_of_node? hn
        have hle : (f.unseen (seen ++ [n])).length ≤ depth := by omega
        obtain ⟨seen', hclears, hmap⟩ :=
          ih.foldl (fun e (he : e ∈ n.successors) => h.target_mem (hsucc ▸ he)) hle
        refine ⟨seen', .visit hs hn hclears, ?_⟩
        rw [explore, if_neg hs, hsucc, hmap, List.map_append]
        rfl

/-- A walk that comes from an empty stack marks what the search marks that is given enough depth. -/
theorem Wired.map_key_walk {entry : BlockKey} {visits : List Node} (h : f.Wired)
    (hk : entry ∈ f.keys) (hv : f.walk [] [entry] = .ok visits) (hd : f.size ≤ depth) :
    visits.map (·.key) = f.explore depth [] entry := by
  have hunseen : (f.unseen []).length ≤ depth := by simpa [unseen, size] using hd
  obtain ⟨seen, hclears, hmap⟩ := h.searches depth hk hunseen
  have hseen := hclears.walk_eq []
  rw [List.append_nil, hv, walk] at hseen
  rw [Except.ok.inj hseen, hmap]
  rfl

theorem walk_of_inspect {entry : Node} {i : Inspection} (he : f.entries = [entry])
    (hi : f.inspect = .ok i) : f.walk [] [entry.key] = .ok i.visits := by
  have hne : f.isEmpty = false := by
    cases hf : f.nodes with
    | nil => simp [entries, hf] at he
    | cons n ns => simp [isEmpty, hf]
  simp only [inspect, hne, he] at hi
  cases hv : f.walk [] [entry.key] with
  | error fault =>
      rw [hv] at hi
      cases hi
  | ok visits =>
      rw [hv] at hi
      obtain rfl := Except.ok.inj hi
      rfl

/-- The blocks are visited in the order of the recursive search that starts at the entry, takes the
edges of a block in their order and passes over marked blocks. The depth to which it searches does
not matter. So every block that can be reached is visited once, and no other. -/
theorem visits_eq_preorder {entry : Node} (h : f.Reachable) (he : f.entries = [entry]) :
    ∃ i, f.inspect = .ok i ∧
      i.visits.map (·.key) = f.preorder entry.key ∧
      (∀ depth, f.size ≤ depth → i.visits.map (·.key) = f.explore depth [] entry.key) ∧
      (f.tour i = (f.preorder entry.key).filterMap fun key =>
        (f.block? key).map fun b => .visited b.name f.name) ∧
      (i.visits.map (·.key)).Nodup ∧
      ∀ key, key ∈ i.visits.map (·.key) ↔ f.Reaches entry.key key := by
  obtain ⟨i, hi, hwalk, -⟩ := inspect_of_entries_eq_singleton h.wired he
  have hmem : entry.key ∈ f.keys :=
    List.mem_map_of_mem (List.mem_of_mem_filter (he ▸ List.mem_singleton_self entry))
  have hkeys : ∀ depth, f.size ≤ depth → i.visits.map (·.key) = f.explore depth [] entry.key :=
    fun depth hd => h.wired.map_key_walk hmem (walk_of_inspect he hi) hd
  have hpre : i.visits.map (·.key) = f.preorder entry.key := hkeys f.size (Nat.le_refl f.size)
  refine ⟨i, hi, hpre, hkeys, ?_, hwalk.nodup, fun key => hwalk.mem_iff_reaches h.wired⟩
  rw [← hpre, List.filterMap_map, tour, ← List.filterMap_eq_map]
  refine List.filterMap_congr fun n hn => ?_
  have hnode := node?_of_mem h.wired.nodup (hwalk.nodes n hn)
  simp [block?, hnode]

/-- `c` waits on the stack while it is visited from `d`, before `e`. If blocks were marked when they
go on the stack, `e` would come before it. Nothing leads to `x`. -/
theorem visits_eq_preorder_crossing :
    let k (serial : Nat) : BlockKey := ⟨⟨1⟩, serial⟩
    let f := (empty ⟨1⟩ "f" ⟨0⟩).run
      [.create "a", .create "b", .create "c", .create "d", .create "e", .create "x",
        .connect (k 0) (k 1) "x", .connect (k 0) (k 2) "y", .connect (k 1) (k 3) "",
        .connect (k 3) (k 2) "x", .connect (k 3) (k 4) "y", .connect (k 2) (k 4) "x",
        .connect (k 2) (k 4) "y", .connect (k 4) (k 0) "", .connect (k 5) (k 0) ""]
    f.Reachable ∧ ∃ entry, f.entries = [entry] ∧
      f.preorder entry.key = [k 0, k 1, k 3, k 2, k 4] ∧
      ∃ i, f.inspect = .ok i ∧ i.visits.map (·.key) = f.preorder entry.key ∧
        (∀ depth, f.size ≤ depth → i.visits.map (·.key) = f.explore depth [] entry.key) ∧
        (f.tour i = (f.preorder entry.key).filterMap fun key =>
          (f.block? key).map fun b => .visited b.name f.name) ∧
        (i.visits.map (·.key)).Nodup ∧
        ∀ key, key ∈ i.visits.map (·.key) ↔ f.Reaches entry.key key := by
  intro k f
  have hf : f.Reachable := ⟨_, _, _, _, rfl⟩
  obtain ⟨entry, hentry⟩ : ∃ entry, f.entries = [entry] := List.length_eq_one_iff.mp (by decide)
  have hkey : entry.key = k 0 := by
    have hkeys : f.entries.map (·.key) = [k 0] := by decide
    simpa [hentry] using hkeys
  refine ⟨hf, entry, hentry, ?_, visits_eq_preorder hf hentry⟩
  rw [hkey]
  decide +kernel

end FlowGraph.Function
