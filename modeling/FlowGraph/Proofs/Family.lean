import FlowGraph.Proofs.Function.Handles

/-!
Handles in a family of functions. From its creation to its deletion a handle finds one block in one
function, and nothing at any other time or place.
-/
namespace FlowGraph.Family

variable {P : Function → Prop} {w : Family} {history : List Step} {uid v : Uid} {f g : Function}
  {key k : BlockKey} {e : Function.Edit} {name : String} {i j n : Nat}

/-! ## Steps -/

/-- A function of a family is edited by a step, or it stays as it is. -/
theorem apply_of_some (h : w v = some f) (s : Step) :
    (∃ e, s = .edit v e ∧ w.apply s v = some (f.apply e)) ∨
      (∀ e, s ≠ .edit v e) ∧ w.apply s v = some f := by
  cases s with
  | found uid name owner =>
      refine .inr ⟨by simp, ?_⟩
      simp [apply, h]
  | edit uid e =>
      by_cases hv : v = uid
      · subst hv
        exact .inl ⟨e, rfl, by simp [apply, h]⟩
      · exact .inr ⟨by simp [Ne.symm hv], by simp [apply, hv, h]⟩

/-- A function comes to a family without blocks. -/
theorem apply_of_none (h : w v = none) (s : Step) :
    w.apply s v = none ∨ ∃ name owner, w.apply s v = some (.empty v name owner) := by
  cases s with
  | found uid name owner =>
      by_cases hv : v = uid
      · subst hv
        exact .inr ⟨name, owner, by simp [apply, h]⟩
      · exact .inl (by simp [apply, hv, h])
  | edit uid e => exact .inl (by simp [apply, h])

theorem after_succ (history : List Step) (n : Nat) :
    after history (n + 1) = (history[n]?).elim (after history n) (after history n).apply := by
  rw [after, List.take_add_one, List.foldl_append]
  cases history[n]? <;> rfl

/-- What every edit of a function keeps is kept by every step. -/
theorem kept_succ (h : Function.Kept P) (hf : after history n v = some f) (hP : P f) :
    ∃ g, after history (n + 1) v = some g ∧ P g := by
  rw [after_succ]
  cases history[n]? with
  | none => exact ⟨f, hf, hP⟩
  | some s =>
      rcases apply_of_some hf s with ⟨e, -, he⟩ | ⟨-, he⟩
      · exact ⟨f.apply e, he, h.apply hP e⟩
      · exact ⟨f, he, hP⟩

/-- The functions of a family are wired, and each has the identity that it is found under. -/
theorem wired_of_after (h : after history n v = some f) : f.Wired ∧ f.uid = v := by
  induction n generalizing f with
  | zero => simp [after] at h
  | succ n ih =>
      cases hn : after history n v with
      | some g =>
          have hg := ih hn
          obtain ⟨_, hf, hw⟩ := kept_succ Function.Wired.kept hn hg.1
          obtain ⟨_, hf', hu⟩ := kept_succ (Function.uid_kept v) hn hg.2
          obtain rfl := Option.some.inj (hf.symm.trans h)
          obtain rfl := Option.some.inj (hf'.symm.trans h)
          exact ⟨hw, hu⟩
      | none =>
          rw [after_succ] at h
          cases hs : history[n]? with
          | none => simp [hs, hn] at h
          | some s =>
              rw [hs] at h
              rcases apply_of_none hn s with he | ⟨name, owner, he⟩
              · exact absurd (he.symm.trans h) (by simp)
              · obtain rfl := Option.some.inj (he.symm.trans h)
                exact ⟨Function.Wired.empty v name owner, rfl⟩

/-- After its creation a handle finds its block, or the block has been deleted for good. -/
def Alive (history : List Step) (i j : Nat) (uid : Uid) (key : BlockKey) (name : String) : Prop :=
  (∃ f, after history j uid = some f ∧ f.Holds key name uid ∧ ¬ Deleted history i j uid key) ∨
    ∃ f, after history j uid = some f ∧ f.Retired key ∧ Deleted history i j uid key

theorem deleted_succ : Deleted history i (j + 1) uid key ↔ Deleted history i j uid key ∨
    i < j ∧ ∃ e f, history[j]? = some (.edit uid e) ∧ after history j uid = some f ∧
      e.Deletes f key := by
  constructor
  · rintro ⟨d, e, f, hi, hd, h⟩
    rcases Nat.lt_succ_iff_lt_or_eq.mp hd with hd | rfl
    · exact .inl ⟨d, e, f, hi, hd, h⟩
    · exact .inr ⟨hi, e, f, h⟩
  · rintro (⟨d, e, f, hi, hd, h⟩ | ⟨hi, e, f, h⟩)
    · exact ⟨d, e, f, hi, Nat.lt_succ_of_lt hd, h⟩
    · exact ⟨j, e, f, hi, Nat.lt_succ_self j, h⟩

theorem Alive.succ (h : Alive history i j uid key name) (hi : i < j) :
    Alive history i (j + 1) uid key name := by
  rcases h with ⟨f, hf, hholds, hdeleted⟩ | ⟨f, hf, hretired, hdeleted⟩
  · have hw := (wired_of_after hf).1
    rw [Alive, after_succ, deleted_succ]
    cases hs : history[j]? with
    | none => exact .inl ⟨f, hf, hholds, by simp [hdeleted]⟩
    | some s =>
        rcases apply_of_some hf s with ⟨e, rfl, he⟩ | ⟨hne, he⟩
        · by_cases hd : e.Deletes f key
          · exact .inr ⟨f.apply e, he, hw.retired_apply hholds.mem_keys hd,
              .inr ⟨hi, e, f, rfl, hf, hd⟩⟩
          · refine .inl ⟨f.apply e, he, hholds.apply hd, ?_⟩
            rintro (hdeleted' | ⟨-, e', f', heq, hf', hd'⟩)
            · exact hdeleted hdeleted'
            · obtain ⟨-, rfl⟩ := Step.edit.inj (Option.some.inj heq)
              obtain rfl := Option.some.inj (hf.symm.trans hf')
              exact hd hd'
        · refine .inl ⟨f, he, hholds, ?_⟩
          rintro (hdeleted' | ⟨-, e', -, heq, -, -⟩)
          · exact hdeleted hdeleted'
          · exact hne e' (Option.some.inj heq)
  · obtain ⟨g, hg, hretired'⟩ := kept_succ (Function.Retired.kept key) hf hretired
    exact .inr ⟨g, hg, hretired', deleted_succ.mpr (.inl hdeleted)⟩

end FlowGraph.Family
