import FlowGraph.Command.Invocation
import FlowGraph.Proofs.Lookup
import Mathlib.Data.List.TakeWhile
import Mathlib.Tactic.Common

/-!
Command lines and what they ask for. Options are found however they are spelled, and a line that is
accepted asks for something proper; all that is proper can be asked for.
-/
namespace FlowGraph

/-- A directory and the files have names, and there is at least one file. -/
def Command.IsProper : Command → Prop
  | .demo outDir => outDir ≠ ""
  | .check paths => paths ≠ [] ∧ "" ∉ paths
  | .dump path => path ≠ ""

namespace Invocation

variable {place : Place} {single : Bool} {f g : Found} {s : Switch} {name value path : String}
  {args rest paths : List String} {next : Option String} {taken took : Bool}

/-! ## Options that are noted -/

theorem Found.add_eq_some_iff : f.add s value = some g ↔
    s ∉ f.switches.map (·.1) ∧ (s.takesValue → value ≠ "") ∧
      g = { f with switches := f.switches ++ [(s, value)] } := by
  have hempty : value.isEmpty ↔ value = "" := String.isEmpty_iff
  rw [add]
  split
  · next h =>
      rw [Bool.or_eq_true, Bool.and_eq_true, isSome_lookup_iff, hempty] at h
      refine iff_of_false (by simp) ?_
      rintro ⟨hs, hv, -⟩
      exact h.elim hs fun ⟨htakes, heq⟩ => hv htakes heq
  · next h =>
      rw [Bool.or_eq_true, Bool.and_eq_true, isSome_lookup_iff, hempty, not_or, not_and] at h
      rw [Option.some_inj, eq_comm]
      exact ⟨fun heq => ⟨h.1, h.2, heq⟩, fun h => h.2.2⟩

/-- No option is there twice, and one that takes a value has one. -/
structure Found.IsSound (f : Found) : Prop where
  nodup : (f.switches.map (·.1)).Nodup
  value : ∀ x ∈ f.switches, x.1.takesValue → x.2 ≠ ""

namespace Found.IsSound

theorem add (h : f.IsSound) (hg : f.add s value = some g) : g.IsSound := by
  obtain ⟨hs, hv, rfl⟩ := add_eq_some_iff.mp hg
  constructor
  · rw [List.map_append]
    exact List.nodup_append_comm.mp (List.nodup_cons.mpr ⟨hs, h.nodup⟩)
  · exact List.forall_mem_append.mpr ⟨h.value, by simpa using hv⟩

theorem addThen (h : f.IsSound) (hg : (do return (← f.add s value, took)) = some (g, taken)) :
    g.IsSound := by
  obtain ⟨g', hadd, heq⟩ := Option.bind_eq_some_iff.mp hg
  obtain ⟨rfl, -⟩ := Prod.mk.inj (Option.some.inj heq)
  exact h.add hadd

theorem addNamed {attached : Option String} (h : f.IsSound)
    (hg : f.addNamed place next name attached = some (g, taken)) : g.IsSound := by
  obtain ⟨s, -, hg⟩ := Option.bind_eq_some_iff.mp hg
  split at hg
  · exact h.addThen hg
  · simp at hg
  · exact h.addThen hg
  · split at hg
    · exact h.addThen hg
    · simp at hg
  · simp at hg

theorem addLetters {cs : List Char} (h : f.IsSound)
    (hg : f.addLetters place next cs = some (g, taken)) : g.IsSound := by
  fun_induction Found.addLetters place next cs f with
  | case1 f =>
      obtain ⟨rfl, -⟩ := Prod.mk.inj (Option.some.inj hg)
      exact h
  | case8 c rest f s hl htakes ih =>
      obtain ⟨f', hadd, hg⟩ := Option.bind_eq_some_iff.mp hg
      exact ih f' (h.add hadd) hg
  | case2 | case5 | case6 => simp at hg
  | case3 | case4 | case7 => exact h.addThen hg

theorem addSwitches {arg : String} (h : f.IsSound)
    (hg : f.addSwitches place next arg = some (g, taken)) : g.IsSound := by
  unfold Found.addSwitches at hg
  split at hg
  · exact h.addNamed hg
  · exact h.addLetters hg
  · simp at hg

theorem scan (h : f.IsSound) (hg : scan place single args f = some (g, rest)) : g.IsSound := by
  fun_induction Invocation.scan place single args f with
  | case1 f =>
      obtain ⟨rfl, -⟩ := Prod.mk.inj (Option.some.inj hg)
      exact h
  | case2 | case8 => simp at hg
  | case3 | case4 =>
      obtain ⟨rfl, -⟩ := Prod.mk.inj (Option.some.inj hg)
      exact ⟨h.nodup, h.value⟩
  | case5 arg rest f _ _ _ ih => exact ih ⟨h.nodup, h.value⟩ hg
  | case6 arg f _ _ g rest hadd ih | case7 arg f _ _ g _ rest hadd ih =>
      simp only [hadd] at hg
      exact ih (h.addSwitches hadd) hg

theorem empty : ({} : Found).IsSound := ⟨List.nodup_nil, by simp⟩

end Found.IsSound

/-! ## What can be asked for -/

theorem any_isEmpty_iff : paths.any (·.isEmpty) ↔ "" ∈ paths := by
  simp

theorem isProper_of_command? {c : Command} (hf : f.IsSound) (h : command? name f = some c) :
    c.IsProper := by
  unfold command? at h
  split at h
  · simp at h
  · next hothers =>
      rw [any_isEmpty_iff] at hothers
      split at h
      · obtain rfl := Option.some.inj h
        cases hl : f.switches.lookup .outDir with
        | none => simp [Command.IsProper]
        | some dir =>
            have hdir := hf.value _ (mem_of_lookup hl) rfl
            simpa [Command.IsProper] using hdir
      · next path paths heq =>
          obtain rfl := Option.some.inj h
          exact ⟨List.cons_ne_nil path paths, heq ▸ hothers⟩
      · next path heq =>
          obtain rfl := Option.some.inj h
          intro hpath
          exact hothers (by simp [heq, hpath])
      · simp at h

/-- The style has a name too, if there is one. -/
def IsProper (i : Invocation) : Prop := i.style ≠ some "" ∧ i.command.IsProper

theorem isProper_of_ofArguments? {i : Invocation} (h : ofArguments? args = some i) :
    i.IsProper := by
  obtain ⟨⟨before, rest⟩, hbefore, h⟩ := Option.bind_eq_some_iff.mp h
  obtain ⟨name, hname, h⟩ := Option.bind_eq_some_iff.mp h
  obtain ⟨⟨after, read⟩, hafter, h⟩ := Option.bind_eq_some_iff.mp h
  obtain ⟨command, hcommand, h⟩ := Option.bind_eq_some_iff.mp h
  have hb := Found.IsSound.empty.scan hbefore
  have ha := Found.IsSound.empty.scan hafter
  obtain rfl := Option.some.inj h
  refine ⟨fun hstyle => ?_, isProper_of_command? ha hcommand⟩
  rcases List.mem_append.mp (mem_of_lookup hstyle) with hmem | hmem
  · exact ha.value _ hmem rfl rfl
  · exact hb.value _ hmem rfl rfl

/-! ## Spelling -/

/-- The names of options do not break the arguments that they stand in. -/
structure Place.IsPlain (p : Place) : Prop where
  named : ∀ x ∈ p.named, x.1 ≠ "" ∧ '=' ∉ x.1.toList
  lettered : ∀ x ∈ p.lettered, x.1 ≠ '-'

theorem Place.isPlain_default : ({} : Place).IsPlain := ⟨by decide, by decide⟩

theorem Place.isPlain_demo : Place.demo.IsPlain := ⟨by decide, by decide⟩

/-- The ways to write an option. Its value is in the same argument or is the next one. -/
inductive Spells (place : Place) : List String → Switch → String → Prop where
  | flag {name : String} {s : Switch} : place.named.lookup name = some s → s.takesValue = false →
    Spells place ["--" ++ name] s ""
  | attached {name value : String} {s : Switch} : place.named.lookup name = some s →
    s.takesValue = true → Spells place ["--" ++ name ++ "=" ++ value] s value
  | separate {name value : String} {s : Switch} : place.named.lookup name = some s →
    s.takesValue = true → isValue value → Spells place ["--" ++ name, value] s value
  | letter {c : Char} {s : Switch} : place.lettered.lookup c = some s → s.takesValue = false →
    Spells place ["-".push c] s ""
  | letterAttached {c : Char} {value : String} {s : Switch} : place.lettered.lookup c = some s →
    s.takesValue = true → Spells place ["-".push c ++ "=" ++ value] s value
  | letterJoined {c : Char} {value : String} {s : Switch} : place.lettered.lookup c = some s →
    s.takesValue = true → value ≠ "" → value.toList.head? ≠ some '=' →
    Spells place ["-".push c ++ value] s value
  | letterSeparate {c : Char} {value : String} {s : Switch} : place.lettered.lookup c = some s →
    s.takesValue = true → isValue value → Spells place ["-".push c, value] s value

theorem isValue_of_dashed {arg : String} {c : Char} {cs : List Char}
    (h : arg.toList = '-' :: c :: cs) : isValue arg = false := by
  have hne : arg ≠ "-" := by
    rintro rfl
    simp at h
  simp [isValue, hne, String.startsWith_string_iff, h]

theorem splitNamed_name {cs : List Char} (h : '=' ∉ cs) :
    splitNamed cs = (String.ofList cs, none) := by
  have hdrop : cs.dropWhile (· != '=') = [] :=
    List.dropWhile_eq_nil_iff.mpr fun c hc => by
      have hne : c ≠ '=' := fun heq => h (heq ▸ hc)
      simpa using hne
  rw [splitNamed, hdrop]

theorem splitNamed_attached {cs value : List Char} (h : '=' ∉ cs) :
    splitNamed (cs ++ '=' :: value) = (String.ofList cs, some (String.ofList value)) := by
  have hcs : ∀ c ∈ cs, (c != '=') = true := fun c hc => by
    have hne : c ≠ '=' := fun heq => h (heq ▸ hc)
    simpa using hne
  rw [splitNamed, List.dropWhile_append_of_pos hcs, List.takeWhile_append_of_pos hcs]
  simp

/-- An argument with options and, if they take it, the one after it. -/
theorem scan_of_addSwitches {arg : String} {c : Char} {cs : List Char}
    (harg : arg.toList = '-' :: c :: cs) (hmore : c ≠ '-' ∨ cs ≠ []) :
    scan place single (arg :: rest) f =
      match f.addSwitches place rest.head? arg, rest with
      | some (g, false), rest => scan place single rest g
      | some (g, true), _ :: rest => scan place single rest g
      | _, _ => none := by
  have hdashes : arg ≠ "--" := by
    rintro rfl
    obtain ⟨rfl, rfl⟩ : '-' = c ∧ [] = cs := by simpa using harg
    simp at hmore
  rw [scan.eq_def]
  exact (if_neg hdashes).trans (if_neg (by rw [isValue_of_dashed harg]; exact Bool.false_ne_true))

theorem addSwitches_named {arg : String} {cs : List Char} (harg : arg.toList = '-' :: '-' :: cs) :
    f.addSwitches place next arg =
      f.addNamed place next (splitNamed cs).1 (splitNamed cs).2 := by
  rw [Found.addSwitches, harg]
  rfl

theorem addSwitches_lettered {arg : String} {c : Char} {cs : List Char}
    (harg : arg.toList = '-' :: c :: cs) (hc : c ≠ '-') :
    f.addSwitches place next arg = f.addLetters place next (c :: cs) := by
  rw [Found.addSwitches, harg]
  split
  · next h => exact absurd (List.cons.inj (List.cons.inj h).2).1 hc
  · next h => rw [(List.cons.inj h).2]
  · next h => simp at h

theorem scan_of_spells (hp : place.IsPlain) (h : Spells place args s value)
    (hadd : f.add s value = some g) :
    scan place single (args ++ rest) f = scan place single rest g := by
  have hnamed : ∀ {name s}, place.named.lookup name = some s → name ≠ "" ∧ '=' ∉ name.toList :=
    fun hl => hp.named _ (mem_of_lookup hl)
  have hlettered : ∀ {c s}, place.lettered.lookup c = some s → c ≠ '-' :=
    fun hl => hp.lettered _ (mem_of_lookup hl)
  cases h with
  | @flag name s hl hs =>
      obtain ⟨hname, heq⟩ := hnamed hl
      have harg : ("--" ++ name).toList = '-' :: '-' :: name.toList := by simp
      rw [List.singleton_append, scan_of_addSwitches harg (.inr (by simpa using hname)),
        addSwitches_named harg, splitNamed_name heq]
      simp [Found.addNamed, hl, hs, hadd]
  | @attached name value s hl hs =>
      obtain ⟨-, heq⟩ := hnamed hl
      have harg : ("--" ++ name ++ "=" ++ value).toList =
          '-' :: '-' :: (name.toList ++ '=' :: value.toList) := by simp
      rw [List.singleton_append, scan_of_addSwitches harg (.inr (by simp)),
        addSwitches_named harg, splitNamed_attached heq]
      simp [Found.addNamed, hl, hs, hadd]
  | @separate name value s hl hs hv =>
      obtain ⟨hname, heq⟩ := hnamed hl
      have harg : ("--" ++ name).toList = '-' :: '-' :: name.toList := by simp
      rw [List.cons_append, List.singleton_append,
        scan_of_addSwitches harg (.inr (by simpa using hname)), addSwitches_named harg,
        splitNamed_name heq]
      simp [Found.addNamed, hl, hs, hv, hadd]
  | @letter c s hl hs =>
      have harg : ("-".push c).toList = '-' :: [c] := by simp
      rw [List.singleton_append, scan_of_addSwitches harg (.inl (hlettered hl)),
        addSwitches_lettered harg (hlettered hl)]
      simp [Found.addLetters, hl, hs, hadd]
  | @letterAttached c value s hl hs =>
      have harg : ("-".push c ++ "=" ++ value).toList = '-' :: c :: '=' :: value.toList := by simp
      rw [List.singleton_append, scan_of_addSwitches harg (.inl (hlettered hl)),
        addSwitches_lettered harg (hlettered hl)]
      simp [Found.addLetters, hl, hs, hadd]
  -- A sign at the start of this value would be taken for the one before a value.
  | @letterJoined c value s hl hs hne heq =>
      have harg : ("-".push c ++ value).toList = '-' :: c :: value.toList := by simp
      rw [List.singleton_append, scan_of_addSwitches harg (.inl (hlettered hl)),
        addSwitches_lettered harg (hlettered hl)]
      obtain ⟨d, ds, hds⟩ := List.exists_cons_of_ne_nil (l := value.toList) (by simpa using hne)
      have hd : d ≠ '=' := by simpa [hds] using heq
      have hvalue : String.ofList (d :: ds) = value := by rw [← hds, String.ofList_toList]
      simp [Found.addLetters, hl, hs, hds, hd, hvalue, hadd]
  | @letterSeparate c value s hl hs hv =>
      have harg : ("-".push c).toList = '-' :: [c] := by simp
      rw [List.cons_append, List.singleton_append, scan_of_addSwitches harg (.inl (hlettered hl)),
        addSwitches_lettered harg (hlettered hl)]
      simp [Found.addLetters, hl, hs, hv, hadd]

/-! ## Whole lines -/

/-- Options as they are written, with what they mean: none twice, and none with an empty value. -/
structure Written (place : Place) (l : List (List String × Switch × String)) : Prop where
  spells : ∀ x ∈ l, Spells place x.1 x.2.1 x.2.2
  nodup : (l.map (·.2.1)).Nodup
  value : ∀ x ∈ l, x.2.1.takesValue → x.2.2 ≠ ""

theorem scan_of_written {l : List (List String × Switch × String)} (hp : place.IsPlain)
    (h : Written place l) (hf : ∀ x ∈ l, x.2.1 ∉ f.switches.map (·.1)) :
    scan place single (l.flatMap (·.1) ++ rest) f =
      scan place single rest { f with switches := f.switches ++ l.map (·.2) } := by
  induction l generalizing f with
  | nil => simp
  | cons x l ih =>
      obtain ⟨hx, hspells⟩ := List.forall_mem_cons.mp h.spells
      obtain ⟨hnot, hnodup⟩ := List.nodup_cons.mp h.nodup
      obtain ⟨hv, hvalue⟩ := List.forall_mem_cons.mp h.value
      obtain ⟨hs, hfresh⟩ := List.forall_mem_cons.mp hf
      have hrest : ∀ y ∈ l, y.2.1 ∉ (f.switches ++ [x.2]).map (·.1) := by
        intro y hy
        have hne : y.2.1 ≠ x.2.1 := fun heq => hnot (List.mem_map.mpr ⟨y, hy, heq⟩)
        rw [List.map_append, List.mem_append, not_or]
        exact ⟨hfresh y hy, by simpa using hne⟩
      rw [List.flatMap_cons, List.append_assoc,
        scan_of_spells hp hx (Found.add_eq_some_iff.mpr ⟨hs, hv, rfl⟩),
        ih ⟨hspells, hnodup, hvalue⟩ hrest, List.map_cons, List.append_assoc,
        List.singleton_append]

/-- The place behind the name of a command. -/
def placeOf (name : String) : Place := if name = "demo" then .demo else {}

theorem isPlain_placeOf (name : String) : (placeOf name).IsPlain := by
  unfold placeOf
  split
  · exact Place.isPlain_demo
  · exact Place.isPlain_default

/-- However the options are written, they are understood, before the name of the command and after
it. All arguments behind two dashes are taken as they are. -/
theorem ofArguments?_of_written {before after : List (List String × Switch × String)}
    (hname : isValue name) (hbefore : Written {} before) (hafter : Written (placeOf name) after) :
    ofArguments? (before.flatMap (·.1) ++ name :: (after.flatMap (·.1) ++ "--" :: paths)) =
      (command? name ⟨after.map (·.2), paths⟩).map fun command =>
        { verbose := decide (.verbose ∈ (after ++ before).map (·.2.1))
          style := ((after ++ before).map (·.2)).lookup .style
          command } := by
  have hdashes : name ≠ "--" := by
    rintro rfl
    have hdashed := isValue_of_dashed (show "--".toList = ['-', '-'] by simp)
    simp [hdashed] at hname
  have hfirst : scan {} true (before.flatMap (·.1) ++
      name :: (after.flatMap (·.1) ++ "--" :: paths)) {} =
        some (⟨before.map (·.2), [name]⟩, after.flatMap (·.1) ++ "--" :: paths) := by
    rw [scan_of_written Place.isPlain_default hbefore (by simp), scan.eq_def]
    simp [hdashes, hname]
  have hsecond : scan (placeOf name) false (after.flatMap (·.1) ++ "--" :: paths) {} =
      some (⟨after.map (·.2), paths⟩, []) := by
    rw [scan_of_written (isPlain_placeOf name) hafter (by simp), scan.eq_def]
    simp
  have hverbose : (((after ++ before).map (·.2)).lookup .verbose).isSome =
      decide (.verbose ∈ (after ++ before).map (·.2.1)) := by
    rw [Bool.eq_iff_iff, isSome_lookup_iff, decide_eq_true_eq, List.map_map]
    rfl
  unfold ofArguments?
  simp only [hfirst, Option.bind_eq_bind, Option.bind_some, List.head?_cons]
  rw [show (if name = "demo" then Place.demo else {}) = placeOf name from rfl, hsecond]
  cases hc : command? name ⟨after.map (·.2), paths⟩ with
  | none => simp [hc]
  | some command => simp [hc, ← hverbose]

/-! ## A line for everything -/

end Invocation

def Command.name : Command → String
  | .demo _ => "demo"
  | .check _ => "check"
  | .dump _ => "dump"

def Command.paths : Command → List String
  | .demo _ => []
  | .check paths => paths
  | .dump path => [path]

namespace Invocation

def attached (name : String) (s : Switch) (value : String) : List String × Switch × String :=
  (["--" ++ name ++ "=" ++ value], s, value)

/-- The options before the name of the command. -/
def optionsBefore (i : Invocation) : List (List String × Switch × String) :=
  (if i.verbose then [(["--" ++ "verbose"], .verbose, "")] else []) ++
    i.style.toList.map (attached "style" .style)

/-- The options behind it. -/
def optionsAfter (i : Invocation) : List (List String × Switch × String) :=
  match i.command with
  | .demo outDir => [attached "out-dir" .outDir outDir]
  | .check _ | .dump _ => []

/-- A command line that asks for it. -/
def arguments (i : Invocation) : List String :=
  i.optionsBefore.flatMap (·.1) ++
    i.command.name :: (i.optionsAfter.flatMap (·.1) ++ "--" :: i.command.paths)

variable {i : Invocation}

theorem written_nil (place : Place) : Written place [] := ⟨by simp, List.nodup_nil, by simp⟩

theorem written_attached (hl : place.named.lookup name = some s) (hs : s.takesValue = true)
    (hv : value ≠ "") : Written place [attached name s value] where
  spells := by simpa [attached] using Spells.attached hl hs
  nodup := List.nodup_singleton _
  value := by simpa [attached] using fun _ => hv

theorem Written.flag {l : List (List String × Switch × String)} (h : Written place l)
    (hl : place.named.lookup name = some s) (hs : s.takesValue = false)
    (hfresh : s ∉ l.map (·.2.1)) : Written place ((["--" ++ name], s, "") :: l) where
  spells := List.forall_mem_cons.mpr ⟨.flag hl hs, h.spells⟩
  nodup := List.nodup_cons.mpr ⟨hfresh, h.nodup⟩
  value := List.forall_mem_cons.mpr ⟨by simp [hs], h.value⟩

theorem written_optionsBefore (h : i.IsProper) : Written {} i.optionsBefore := by
  have hstyle : Written {} (i.style.toList.map (attached "style" .style)) ∧
      .verbose ∉ (i.style.toList.map (attached "style" .style)).map (·.2.1) := by
    cases hs : i.style with
    | none => exact ⟨written_nil {}, by simp⟩
    | some style =>
        have hne : style ≠ "" := fun heq => h.1 (by rw [hs, heq])
        exact ⟨written_attached rfl rfl hne, by simp [attached]⟩
  unfold optionsBefore
  cases i.verbose with
  | false => exact hstyle.1
  | true => exact hstyle.1.flag rfl rfl hstyle.2

theorem written_optionsAfter (h : i.IsProper) :
    Written (placeOf i.command.name) i.optionsAfter := by
  obtain ⟨-, hc⟩ := h
  unfold optionsAfter
  cases hi : i.command with
  | demo outDir =>
      rw [hi] at hc
      exact written_attached rfl rfl hc
  | check paths => exact written_nil _
  | dump path => exact written_nil _

theorem command?_name (h : i.IsProper) :
    command? i.command.name ⟨i.optionsAfter.map (·.2), i.command.paths⟩ = some i.command := by
  obtain ⟨-, hc⟩ := h
  unfold optionsAfter
  cases hi : i.command with
  | demo outDir => simp [command?, Command.name, Command.paths, attached]
  | check paths =>
      rw [hi] at hc
      obtain ⟨path, paths, rfl⟩ := List.exists_cons_of_ne_nil hc.1
      have hany : (path :: paths).any (·.isEmpty) = false :=
        Bool.eq_false_iff.mpr (any_isEmpty_iff.not.mpr hc.2)
      simp only [command?, Command.name, Command.paths, hany, Bool.false_eq_true, if_false]
  | dump path =>
      rw [hi] at hc
      have hany : [path].any (·.isEmpty) = false :=
        Bool.eq_false_iff.mpr (any_isEmpty_iff.not.mpr (by simpa using Ne.symm hc))
      simp only [command?, Command.name, Command.paths, hany, Bool.false_eq_true, if_false]

theorem ofArguments?_arguments (h : i.IsProper) : ofArguments? i.arguments = some i := by
  have hname : isValue i.command.name := by
    cases i.command <;> simp [Command.name, isValue]
  rw [arguments, ofArguments?_of_written hname (written_optionsBefore h) (written_optionsAfter h),
    command?_name h, Option.map_some]
  obtain ⟨verbose, style, command⟩ := i
  cases verbose <;> cases style <;> cases command <;> rfl

/-- What a command line can ask for is all that is proper. -/
theorem isProper_iff : i.IsProper ↔ ∃ args, ofArguments? args = some i :=
  ⟨fun h => ⟨i.arguments, ofArguments?_arguments h⟩, fun ⟨_, h⟩ => isProper_of_ofArguments? h⟩

end Invocation

end FlowGraph
