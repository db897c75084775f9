import FlowGraph.Family

/-!
Histories of a function, one primitive edit after the other. What each primitive edit keeps, every
history keeps, the building of graphs included.
-/
namespace FlowGraph

namespace Dot

variable {P : Function → Prop}

/-- A property that graphs keep when they are built: building creates and connects. -/
structure Built (P : Function → Prop) : Prop where
  create : ∀ {f name}, P f → P (f.createBlock name).1
  connect : ∀ {f src dst tag g}, P f → f.connect src dst tag = .ok g → P g

namespace Built

theorem mention (h : Built P) {b : Building} (hb : P b.function) (id name : String) :
    P (b.mention id name).1.function := by
  unfold Building.mention
  cases b.known.lookup id with
  | some key => exact hb
  | none => exact h.create hb

theorem take (h : Built P) {b : Building} (hb : P b.function) (s : Statement) :
    P (b.take s).1.function := by
  cases s with
  | «attribute» a => exact hb
  | defaults target attributes => exact hb
  | node id attributes => exact h.mention hb id _
  | edge src dst attributes =>
      have hd := h.mention (h.mention hb src src) dst dst
      simp only [Building.take]
      split
      · exact h.connect hd ‹_›
      · exact hd

theorem takeAll (h : Built P) {b : Building} (hb : P b.function) (ss : List Statement) :
    P (b.takeAll ss).1.function := by
  induction ss generalizing b with
  | nil => exact hb
  | cons s ss ih =>
      have hs := h.take hb s
      simp only [Building.takeAll]
      split
      · next b' he => rw [he] at hs; exact ih hs
      · next b' e he => rw [he] at hs; exact hs

theorem populate (h : Built P) {f : Function} (hf : P f) (g : Graph) :
    P (g.populate f).1.function :=
  h.takeAll hf g.statements

end Built

end Dot

namespace Function

variable {P : Function → Prop} {f : Function}

/-- What an edit comes to. An edit that is refused hands out nothing. -/
inductive Outcome (f : Function) : Edit → Function → Prop where
  | refused {e : Edit} : e.handles f = [] → Outcome f e f
  | created (name : String) : Outcome f (.create name) (f.createBlock name).1
  | deleted {e : Edit} {key : BlockKey} {b : Block} {g : Function} :
    e.handles f = [] → e.Deletes f key → f.deleteBlock? key = some (b, g) → Outcome f e g
  | connected {src dst : BlockKey} {tag : String} {g : Function} :
    f.connect src dst tag = .ok g → Outcome f (.connect src dst tag) g
  | disconnected {src : BlockKey} {tag : String} {d : Edge} {g : Function} :
    f.disconnect? src tag = some (d, g) → Outcome f (.disconnect src tag) g
  | changed {key : BlockKey} {c : BlockEdit} {g : Function} :
    f.editBlock? key c = some g → Outcome f (.change key c) g
  | populated (g : Dot.Graph) : Outcome f (.populate g) (g.populate f).1.function

theorem outcome_apply (f : Function) (e : Edit) : Outcome f e (f.apply e) := by
  cases e with
  | create name => exact .created name
  | delete key =>
      simp only [Function.apply]
      cases hd : f.deleteBlock? key with
      | none => exact .refused rfl
      | some r => exact .deleted rfl rfl hd
  | deleteNamed name =>
      simp only [Function.apply, deleteBlockNamed?]
      cases hn : f.blockNamed? name with
      | none => exact .refused rfl
      | some key =>
          simp only [Option.bind_eq_bind, Option.bind_some]
          cases hd : f.deleteBlock? key with
          | none => exact .refused rfl
          | some r => exact .deleted rfl hn hd
  | connect src dst tag =>
      simp only [Function.apply]
      cases hc : f.connect src dst tag with
      | error e => exact .refused rfl
      | ok g => exact .connected hc
  | disconnect src tag =>
      simp only [Function.apply]
      cases hd : f.disconnect? src tag with
      | none => exact .refused rfl
      | some r => exact .disconnected hd
  | change key c =>
      simp only [Function.apply]
      cases hc : f.editBlock? key c with
      | none => exact .refused rfl
      | some g => exact .changed hc
  | populate g => exact .populated g

/-- The edit changes blocks in allowed ways only. -/
def Edit.Allowed (allowed : BlockEdit → Prop) : Edit → Prop
  | .change _ e => allowed e
  | _ => True

/-- A property that every primitive edit keeps when it succeeds, as long as blocks are changed in
allowed ways only. -/
structure KeptUnder (allowed : BlockEdit → Prop) (P : Function → Prop) : Prop
    extends Dot.Built P where
  delete : ∀ {f key b g}, P f → f.deleteBlock? key = some (b, g) → P g
  disconnect : ∀ {f src tag e g}, P f → f.disconnect? src tag = some (e, g) → P g
  change : ∀ {f key e g}, allowed e → P f → f.editBlock? key e = some g → P g

namespace KeptUnder

variable {allowed : BlockEdit → Prop}

theorem apply (h : KeptUnder allowed P) (hf : P f) {e : Edit} (he : e.Allowed allowed) :
    P (f.apply e) := by
  have ho := outcome_apply f e
  generalize f.apply e = g at ho ⊢
  cases ho with
  | refused => exact hf
  | created name => exact h.create hf
  | deleted _ _ hd => exact h.delete hf hd
  | connected hc => exact h.connect hf hc
  | disconnected hd => exact h.disconnect hf hd
  | changed hc => exact h.change he hf hc
  | populated g => exact h.populate hf g

theorem run (h : KeptUnder allowed P) (hf : P f) {history : List Edit}
    (hh : ∀ e ∈ history, e.Allowed allowed) : P (f.run history) := by
  induction history generalizing f with
  | nil => exact hf
  | cons e es ih =>
      exact ih (h.apply hf (hh e List.mem_cons_self)) fun d hd => hh d (List.mem_cons_of_mem e hd)

end KeptUnder

/-- A property that every primitive edit keeps when it succeeds. -/
structure Kept (P : Function → Prop) : Prop extends Dot.Built P where
  delete : ∀ {f key b g}, P f → f.deleteBlock? key = some (b, g) → P g
  disconnect : ∀ {f src tag e g}, P f → f.disconnect? src tag = some (e, g) → P g
  change : ∀ {f key e g}, P f → f.editBlock? key e = some g → P g

theorem Edit.allowed_of_forall {allowed : BlockEdit → Prop} (h : ∀ c, allowed c) (e : Edit) :
    e.Allowed allowed := by
  cases e with
  | change key c => exact h c
  | _ => trivial

namespace Kept

/-- What every edit keeps, it keeps whatever is allowed. -/
theorem keptUnder (h : Kept P) (allowed : BlockEdit → Prop) : KeptUnder allowed P where
  create := h.create
  connect := h.connect
  delete := h.delete
  disconnect := h.disconnect
  change _ := h.change

theorem apply (h : Kept P) (hf : P f) (e : Edit) : P (f.apply e) :=
  (h.keptUnder fun _ => True).apply hf (e.allowed_of_forall fun _ => trivial)

theorem run (h : Kept P) (hf : P f) (history : List Edit) : P (f.run history) :=
  (h.keptUnder fun _ => True).run hf fun e _ => e.allowed_of_forall fun _ => trivial

theorem reachable (h : Kept P) (h0 : ∀ uid name owner, P (empty uid name owner))
    (hf : f.Reachable) : P f := by
  obtain ⟨uid, name, owner, history, rfl⟩ := hf
  exact h.run (h0 uid name owner) history

end Kept

end Function

end FlowGraph
