import FlowGraph.Proofs.Dot.Building
import FlowGraph.Proofs.Module.Histories
import Mathlib

/-!
Loading a text into a module, which adds one function or nothing. The handle of the new function is
one that no function of the module has, so what is built is found under it, and a function that
could not be built is all that is deleted again.
-/
namespace FlowGraph.Module

variable {m n : Module} {f g : Function} {key : FunctionKey} {uid : Uid} {name source : String}

/-! ## Handles -/

/-- The module with a function behind the others. -/
def push (m : Module) (f : Function) : Module :=
  { m with nextSerial := m.nextSerial + 1, members := m.members ++ [⟨⟨m.nextSerial⟩, f⟩] }

/-- Every handle has been given out before. -/
def Minted (m : Module) : Prop := ∀ x ∈ m.members, x.key.serial < m.nextSerial

namespace Minted

theorem empty (uid : Uid) (name : String) : (Module.empty uid name).Minted := by
  simp [Minted, Module.empty]

theorem push (h : m.Minted) (f : Function) : (m.push f).Minted := by
  intro x hx
  rcases List.mem_append.mp hx with hx | hx
  · exact Nat.lt_succ_of_lt (h x hx)
  · obtain rfl := List.mem_singleton.mp hx
    exact Nat.lt_succ_self _

theorem createFunction (h : m.Minted) : (m.createFunction uid name).1.Minted := h.push _

theorem deleteFunction (h : m.Minted) (hd : m.deleteFunction? key = some (f, n)) : n.Minted := by
  obtain ⟨_, -, heq⟩ := Option.bind_eq_some_iff.mp hd
  obtain ⟨-, rfl⟩ := Prod.mk.inj (Option.some.inj heq)
  exact fun x hx => h x (List.mem_filter.mp hx).1

theorem replace (h : m.Minted) (key : FunctionKey) (f : Function) : (m.replace key f).Minted := by
  intro y hy
  obtain ⟨x, hx, rfl⟩ := List.mem_map.mp hy
  have hkey : (if x.key = key then { x with function := f } else x).key = x.key := by
    split <;> rfl
  rw [hkey]
  exact h x hx

theorem kept : Kept Minted where
  create h := h.createFunction
  delete h hd := h.deleteFunction hd
  edit _ h _ := h.replace _ _

end Minted

theorem Reachable.minted (h : m.Reachable) : m.Minted := Minted.kept.reachable Minted.empty h

/-! ## One function more -/

theorem createFunction_eq :
    m.createFunction uid name = (m.push (.empty uid name m.uid), ⟨m.nextSerial⟩) := rfl

namespace Minted

theorem key_ne (h : m.Minted) {x : Member} (hx : x ∈ m.members) : x.key ≠ ⟨m.nextSerial⟩ :=
  fun hk => Nat.lt_irrefl m.nextSerial (by simpa [hk] using h x hx)

theorem function?_next (h : m.Minted) : m.function? ⟨m.nextSerial⟩ = none := by
  have hold : m.members.find? (·.key = ⟨m.nextSerial⟩) = none :=
    List.find?_eq_none.mpr fun x hx => by simpa using h.key_ne hx
  simp [function?, hold]

theorem function?_push (h : m.Minted) (f : Function) :
    (m.push f).function? ⟨m.nextSerial⟩ = some f := by
  have hold := h.function?_next
  simp only [function?, Option.map_eq_none_iff] at hold
  simp [function?, Module.push, List.find?_append, hold]

theorem replace_push (h : m.Minted) (f g : Function) :
    (m.push f).replace ⟨m.nextSerial⟩ g = m.push g := by
  have hold : m.members.map (fun x =>
      if x.key = ⟨m.nextSerial⟩ then { x with function := g } else x) = m.members :=
    (List.map_congr_left fun x hx => if_neg (h.key_ne hx)).trans (List.map_id' m.members)
  simp [Module.replace, Module.push, hold]

/-- Of a function that is deleted as the youngest only its handle stays used. -/
theorem deleteFunction?_push (h : m.Minted) (f : Function) :
    (m.push f).deleteFunction? ⟨m.nextSerial⟩ =
      some (f, { m with nextSerial := m.nextSerial + 1 }) := by
  rw [deleteFunction?, h.function?_push f]
  simpa [Module.push] using fun x hx => h.key_ne hx

end Minted

theorem function?_push_of_ne {k : FunctionKey} (hk : k ≠ ⟨m.nextSerial⟩) (f : Function) :
    (m.push f).function? k = m.function? k := by
  simp [function?, push, List.find?_append, Ne.symm hk]

/-! ## Loading -/

theorem load_of_read_error {e : SyntaxError} (hread : Dot.Graph.read source = .error e) :
    m.load uid source = .ok ⟨m, .error (.malformed e), []⟩ := by
  rw [load, hread]

/-- A handle may stay unused. -/
theorem Minted.skip (h : m.Minted) : Minted { m with nextSerial := m.nextSerial + 1 } :=
  fun x hx => Nat.lt_succ_of_lt (h x hx)

theorem Minted.function_push (h : m.Minted) (f : Function) :
    (m.push f).function ⟨m.nextSerial⟩ = .ok f := by
  rw [Module.function, h.function?_push]

/-- A function that has been built stays in the module. -/
theorem Minted.load_of_built (h : m.Minted) {graph : Dot.Graph} {b : Dot.Building}
    (hread : Dot.Graph.read source = .ok graph)
    (hbuild : graph.populate (.empty uid graph.name m.uid) = (b, none)) :
    m.load uid source =
      .ok ⟨m.push b.function, .ok ⟨m.nextSerial⟩, m.creation graph.name :: b.events⟩ := by
  rw [load, hread]
  simp only [createFunction_eq, h.function_push, hbuild, h.replace_push, bind, Except.bind]
  rfl

/-- A function that could not be built to its end is deleted, and both is recorded. -/
theorem Minted.load_of_refused (h : m.Minted) {graph : Dot.Graph} {b : Dot.Building} {e : EditError}
    (hread : Dot.Graph.read source = .ok graph)
    (hbuild : graph.populate (.empty uid graph.name m.uid) = (b, some e)) :
    m.load uid source = .ok
      ⟨{ m with nextSerial := m.nextSerial + 1 }, .error (.edit e),
        m.creation graph.name :: b.events ++
          [.functionDeleted b.function.name b.function.size m.name]⟩ := by
  rw [load, hread]
  simp only [createFunction_eq, h.function_push, hbuild, h.replace_push, h.deleteFunction?_push,
    deletion, h.function?_push, bind, Except.bind]
  rfl

theorem Minted.load_of_read (h : m.Minted) {graph : Dot.Graph} {b : Dot.Building}
    {failure : Option EditError} (hread : Dot.Graph.read source = .ok graph)
    (hbuild : graph.populate (.empty uid graph.name m.uid) = (b, failure)) :
    ∃ loading, m.load uid source = .ok loading ∧
      (failure = none → loading.module = m.push b.function ∧
        loading.outcome = .ok ⟨m.nextSerial⟩) ∧
      (∀ e, failure = some e → loading.module = { m with nextSerial := m.nextSerial + 1 } ∧
        loading.outcome = .error (.edit e)) := by
  cases failure with
  | none => exact ⟨_, h.load_of_built hread hbuild, fun _ => ⟨rfl, rfl⟩, by simp⟩
  | some e => exact ⟨_, h.load_of_refused hread hbuild, by simp, fun e' he => ⟨rfl, by simpa using he⟩⟩

/-- A text whose graph can be built is loaded as what is built from an empty function. -/
theorem Minted.load_of_populate (h : m.Minted) {graph : Dot.Graph} {b : Dot.Building}
    (hread : Dot.Graph.read source = .ok graph)
    (hbuild : graph.populate (.empty uid graph.name m.uid) = (b, none)) :
    ∃ loading, m.load uid source = .ok loading ∧ loading.outcome = .ok ⟨m.nextSerial⟩ ∧
      loading.module.function? ⟨m.nextSerial⟩ = some b.function := by
  obtain ⟨loading, hload, hsuccess, -⟩ := h.load_of_read hread hbuild
  obtain ⟨hmodule, houtcome⟩ := hsuccess rfl
  exact ⟨loading, hload, houtcome, hmodule ▸ h.function?_push b.function⟩

/-- A text whose graph repeats no tag is loaded as what its graph describes. -/
theorem Minted.load_of_tagsDiffer (h : m.Minted) (uid : Uid) {graph : Dot.Graph}
    (hread : Dot.Graph.read source = .ok graph) (hg : graph.TagsDiffer) :
    ∃ loading, m.load uid source = .ok loading ∧ loading.outcome = .ok ⟨m.nextSerial⟩ ∧
      loading.module.function? ⟨m.nextSerial⟩ =
        some (graph.sketch.build (.empty uid graph.name m.uid)) := by
  obtain ⟨b, hbuild, hfollows⟩ :=
    Dot.Graph.populate_of_tagsDiffer (Function.Wired.empty uid graph.name m.uid) hg
  exact hfollows.function_eq ▸ h.load_of_populate hread hbuild

/-! ## All or nothing -/

/-- Two modules look the same, also to whoever holds an old handle. -/
structure Agrees (n m : Module) : Prop where
  uid_eq : n.uid = m.uid
  name_eq : n.name = m.name
  members_eq : n.members = m.members
  function?_eq : ∀ key, n.function? key = m.function? key

/-- A module has one function more, behind all others and under a handle that was never used. -/
structure Extends (n m : Module) (key : FunctionKey) (f : Function) : Prop where
  uid_eq : n.uid = m.uid
  name_eq : n.name = m.name
  members_eq : n.members = m.members ++ [⟨key, f⟩]
  key_eq : key = ⟨m.nextSerial⟩
  function?_new : n.function? key = some f
  function?_old : ∀ k ≠ key, n.function? k = m.function? k

theorem Minted.push_extends (h : m.Minted) (f : Function) :
    (m.push f).Extends m ⟨m.nextSerial⟩ f where
  uid_eq := rfl
  name_eq := rfl
  members_eq := rfl
  key_eq := rfl
  function?_new := h.function?_push f
  function?_old _ hk := function?_push_of_ne hk f

theorem loadFile_of_load {loading : Loading} (h : m.load uid source = .ok loading) (path : String) :
    m.loadFile uid path (.ok source) =
      .ok { loading with outcome := loading.outcome.mapError (·.inFile path) } := by
  simp only [loadFile, h]
  rfl

/-- A load never faults. It adds the function that the text describes and nothing else, or it
refuses the text, or a repeated tag in it, and the module looks as before. A file is loaded as its
text is, except that a syntax error names the file; an unreadable file changes nothing. -/
theorem load_all_or_nothing (hm : m.Reachable) (uid : Uid) (source path : String) :
    (∃ byText byFile, m.load uid source = .ok byText ∧
      m.loadFile uid path (.ok source) = .ok byFile ∧ byFile.module = byText.module ∧
      ((∃ graph key, Dot.Graph.read source = .ok graph ∧ graph.TagsDiffer ∧
          byText.outcome = .ok key ∧ byFile.outcome = .ok key ∧
          byText.module.Extends m key (graph.populate (.empty uid graph.name m.uid)).1.function) ∨
        (∃ e, Dot.Graph.read source = .error e ∧ byText.outcome = .error (.malformed e) ∧
          byFile.outcome = .error (.malformed { e with file := some path }) ∧
          byText.module.Agrees m) ∨
        ∃ graph block tag, Dot.Graph.read source = .ok graph ∧ ¬ graph.TagsDiffer ∧
          byText.outcome = .error (.edit (.duplicateTag graph.name block tag)) ∧
          byFile.outcome = .error (.edit (.duplicateTag graph.name block tag)) ∧
          byText.module.Agrees m)) ∧
    ∀ e, m.loadFile uid path (.error e) = .ok ⟨m, .error (.file e), []⟩ := by
  refine ⟨?_, fun e => rfl⟩
  cases hread : Dot.Graph.read source with
  | error e =>
      have hload : m.load uid source = .ok ⟨m, .error (.malformed e), []⟩ := load_of_read_error hread
      exact ⟨_, _, hload, loadFile_of_load hload path, rfl,
        .inr (.inl ⟨e, rfl, rfl, rfl, rfl, rfl, rfl, fun _ => rfl⟩)⟩
  | ok graph =>
      have hempty := Function.Wired.empty uid graph.name m.uid
      by_cases hg : graph.TagsDiffer
      · obtain ⟨b, hbuild, -⟩ := Dot.Graph.populate_of_tagsDiffer hempty hg
        obtain ⟨loading, hload, hsuccess, -⟩ := hm.minted.load_of_read hread hbuild
        obtain ⟨hmodule, houtcome⟩ := hsuccess rfl
        refine ⟨loading, _, hload, loadFile_of_load hload path, rfl,
          .inl ⟨graph, _, rfl, hg, houtcome, by simp [houtcome, Except.mapError], ?_⟩⟩
        rw [hmodule, hbuild]
        exact hm.minted.push_extends b.function
      · obtain ⟨b, k, block, tag, hbuild, -⟩ := Dot.Graph.populate_of_not_tagsDiffer hempty hg
        obtain ⟨loading, hload, -, hfailure⟩ := hm.minted.load_of_read hread hbuild
        obtain ⟨hmodule, houtcome⟩ := hfailure _ rfl
        refine ⟨loading, _, hload, loadFile_of_load hload path, rfl,
          .inr (.inr ⟨graph, block, tag, rfl, hg, houtcome,
            by simp [houtcome, Except.mapError, LoadError.inFile, Function.empty], ?_⟩)⟩
        rw [hmodule]
        exact ⟨rfl, rfl, rfl, fun _ => rfl⟩

/-- The second edge fails when the function has three blocks and an edge. -/
theorem load_all_or_nothing_repeated :
    let m := (empty ⟨0⟩ "m").run
      [.create ⟨1⟩ "f", .create ⟨2⟩ "g", .delete ⟨0⟩, .edit ⟨1⟩ (.create "a")]
    let source := "digraph h \x7b a -> b [label=t]; a -> c [label=t]; \x7d"
    m.Reachable ∧ m.size = 1 ∧
      ∃ loading block tag, m.load ⟨3⟩ source = .ok loading ∧
        loading.outcome = .error (.edit (.duplicateTag "h" block tag)) ∧
        loading.module.Agrees m := by
  intro m source
  have hm : m.Reachable := ⟨_, _, _, rfl⟩
  have hread : Dot.Graph.read source = .ok ⟨some "h",
      [.edge "a" "b" [⟨"label", "t"⟩], .edge "a" "c" [⟨"label", "t"⟩]]⟩ := by cbv
  obtain ⟨⟨loading, _, hload, -, -, h⟩, -⟩ := load_all_or_nothing hm ⟨3⟩ source "h.dot"
  refine ⟨hm, by decide, loading, ?_⟩
  rcases h with ⟨graph, -, hgraph, hg, -⟩ | ⟨e, he, -⟩ |
    ⟨graph, block, tag, hgraph, -, houtcome, -, hagrees⟩
  · obtain rfl := Except.ok.inj (hread.symm.trans hgraph)
    exact absurd hg (by decide)
  · simp [hread] at he
  · obtain rfl := Except.ok.inj (hread.symm.trans hgraph)
    exact ⟨block, tag, hload, houtcome, hagrees⟩

end FlowGraph.Module
