import FlowGraph.History

/-!
Histories of a module. A load is nothing but a creation and an edit, and maybe a deletion, so these
three are all that a property of modules has to survive.
-/
namespace FlowGraph.Module

variable {P : Module → Prop} {m : Module} {loading : Loading} {uid : Uid} {source : String}

/-- A property that every primitive edit of a module keeps. -/
structure Kept (P : Module → Prop) : Prop where
  create : ∀ {m uid name}, P m → P (m.createFunction uid name).1
  delete : ∀ {m key f n}, P m → m.deleteFunction? key = some (f, n) → P n
  edit : ∀ {m key f} (e : Function.Edit), P m → m.function? key = some f →
    P (m.replace key (f.apply e))

namespace Kept

theorem deletion (h : Kept P) (hm : P m) (key : FunctionKey) :
    P (((m.deleteFunction? key).map (·.2)).getD m) := by
  cases hd : m.deleteFunction? key with
  | none => exact hm
  | some r => exact h.delete hm hd

theorem load (h : Kept P) (hm : P m) (hl : m.load uid source = .ok loading) :
    P loading.module := by
  unfold Module.load at hl
  cases hg : Dot.Graph.read source with
  | error e =>
      rw [hg] at hl
      obtain rfl := Except.ok.inj hl
      exact hm
  | ok g =>
      rw [hg] at hl
      cases hc : m.createFunction uid g.name with
      | mk created key =>
          have hcreated : P created := by
            have hnew : P (m.createFunction uid g.name).1 := h.create hm
            rwa [hc] at hnew
          cases hf : created.function? key with
          | none => simp [hc, Module.function, hf, bind, Except.bind] at hl
          | some f =>
              have hbuilt := h.edit (.populate g) hcreated hf
              simp only [hc, Module.function, hf, bind, Except.bind] at hl
              split at hl
              · obtain rfl := Except.ok.inj hl
                exact hbuilt
              · obtain rfl := Except.ok.inj hl
                exact h.deletion hbuilt key

theorem apply (h : Kept P) (hm : P m) (e : Edit) : P (m.apply e) := by
  cases e with
  | create uid name => exact h.create hm
  | delete key => exact h.deletion hm key
  | deleteNamed name =>
      simp only [Module.apply, deleteFunctionNamed?]
      cases m.functionNamed? name with
      | none => exact hm
      | some key => exact h.deletion hm key
  | load uid source =>
      simp only [Module.apply]
      cases hl : m.load uid source with
      | error e => exact hm
      | ok loading => exact h.load hm hl
  | edit key e =>
      simp only [Module.apply]
      cases hf : m.function? key with
      | none => exact hm
      | some f => exact h.edit e hm hf

theorem reachable (h : Kept P) (h0 : ∀ uid name, P (empty uid name)) (hm : m.Reachable) : P m := by
  obtain ⟨uid, name, history, rfl⟩ := hm
  have hrun : ∀ {m}, P m → P (m.run history) := by
    induction history with
    | nil => exact fun hm => hm
    | cons e es ih => exact fun hm => ih (h.apply hm e)
  exact hrun (h0 uid name)

end Kept

theorem Reachable.apply (h : m.Reachable) (e : Edit) : (m.apply e).Reachable := by
  obtain ⟨uid, name, history, rfl⟩ := h
  exact ⟨uid, name, history ++ [e], by simp [run]⟩

/-- Some history of its own leads to each function of a module. -/
theorem functions_reachable_kept : Kept fun m => ∀ x ∈ m.members, x.function.Reachable where
  create {m uid name} h x hx := by
    rcases List.mem_append.mp hx with hx | hx
    · exact h x hx
    · obtain rfl := List.mem_singleton.mp hx
      exact ⟨uid, name, m.uid, [], rfl⟩
  delete h hd x hx := by
    obtain ⟨_, -, heq⟩ := Option.bind_eq_some_iff.mp hd
    obtain ⟨-, rfl⟩ := Prod.mk.inj (Option.some.inj heq)
    exact h x (List.mem_filter.mp hx).1
  edit {m key f} e h hf y hy := by
    obtain ⟨z, hz, rfl⟩ := Option.map_eq_some_iff.mp hf
    obtain ⟨x, hx, rfl⟩ := List.mem_map.mp hy
    split
    · exact (h z (List.mem_of_find?_eq_some hz)).apply e
    · exact h x hx

theorem Reachable.function {x : Member} (h : m.Reachable) (hx : x ∈ m.members) :
    x.function.Reachable :=
  functions_reachable_kept.reachable (fun _ _ => by simp [Module.empty]) h x hx

end FlowGraph.Module
