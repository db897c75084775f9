import FlowGraph.Command.Run
import FlowGraph.Disk
import FlowGraph.Proofs.Dot.Described
import FlowGraph.Proofs.Dot.Twins
import FlowGraph.Proofs.Module.Loading

/-!
Checking files. All of them are loaded into one module, but nothing that is left there by one file
shows in what is said of another: each file is judged as if it were checked alone.
-/
namespace FlowGraph

/-! ## Blocks and edges of a graph -/

theorem Dot.Sketch.size_build (k : Dot.Sketch) (uid owner : Uid) (name : String) :
    (k.build (.empty uid name owner)).size = k.blocks.length := by
  simp [Function.size, build, Function.empty]

theorem Dot.Sketch.edgeCount_build {k : Dot.Sketch} (hk : k.Sound) (uid owner : Uid)
    (name : String) : (k.build (.empty uid name owner)).edgeCount = k.links.length := by
  have hempty := Function.Wired.empty uid name owner
  have hkeys : (k.build (.empty uid name owner)).keys = k.ids.map (k.key (.empty uid name owner)) := by
    rw [keys_build]
    rfl
  have hnodup : (k.build (.empty uid name owner)).keys.Nodup := by
    rw [hkeys]
    exact hk.nodup.map_on fun u hu v _ h => key_inj hu h
  have hdegree : ∀ id ∈ k.ids,
      (k.build (.empty uid name owner)).outDegree (k.key (.empty uid name owner) id) =
        (k.links.map (·.src)).count id := by
    intro id hid
    rw [Function.outDegree, successors_build hempty hk hid, List.length_map, List.count_eq_countP,
      List.countP_map, List.countP_eq_length_filter]
    exact congrArg List.length (List.filter_congr fun l _ => rfl)
  calc (k.build (.empty uid name owner)).edgeCount
      = (k.ids.map (k.links.map (·.src)).count).sum := by
        rw [Function.edgeCount_eq_sum hnodup, hkeys, List.map_map]
        exact congrArg List.sum (List.map_congr_left hdegree)
    _ = (k.links.map (·.src)).length :=
        sum_count_eq_length hk.nodup (by simpa using hk.src_mem)
    _ = k.links.length := List.length_map _

/-! ## Steps that touch no file -/

namespace Step

/-- What a step adds to the output. -/
def printed : Step → String
  | .print text => text
  | _ => ""

def isTalk : Step → Bool
  | .print _ | .complain _ => true
  | .makeDirectory _ | .write _ _ => false

theorem carryOutAll_of_isTalk (code : Nat) {ss : List Step} (h : ∀ s ∈ ss, s.isTalk)
    (a : Aftermath) :
    ∃ errors, carryOutAll code ss a =
      { a with code, output := a.output ++ String.join (ss.map printed), errors } := by
  induction ss generalizing a with
  | nil => exact ⟨a.errors, by simp [carryOutAll]⟩
  | cons s ss ih =>
      have hrest : ∀ t ∈ ss, t.isTalk := fun t ht => h t (List.mem_cons_of_mem s ht)
      cases s with
      | print text =>
          obtain ⟨errors, heq⟩ := ih hrest { a with output := a.output ++ text }
          exact ⟨errors, by simp [carryOutAll, carryOut, heq, printed, String.append_assoc]⟩
      | complain text =>
          obtain ⟨errors, heq⟩ := ih hrest { a with errors := a.errors ++ text }
          exact ⟨errors, by simp [carryOutAll, carryOut, heq, printed]⟩
      | makeDirectory path => simpa [isTalk] using h _ List.mem_cons_self
      | write path text => simpa [isTalk] using h _ List.mem_cons_self

end Step

theorem Event.isTalk_steps {verbose : Bool} {events : List Event} {s : Step}
    (h : s ∈ steps verbose events) : s.isTalk := by
  obtain ⟨e, -, rfl⟩ := List.mem_map.mp h
  rfl

theorem Event.join_printed_steps (verbose : Bool) (events : List Event) :
    String.join ((steps verbose events).map Step.printed) = "" := by
  have hempty : (steps verbose events).map Step.printed =
      List.replicate (steps verbose events).length "" := by
    refine List.eq_replicate_iff.mpr ⟨List.length_map _, fun text h => ?_⟩
    obtain ⟨s, hs, rfl⟩ := List.mem_map.mp h
    obtain ⟨e, -, rfl⟩ := List.mem_map.mp hs
    rfl
  rw [hempty]
  induction (steps verbose events).length with
  | zero => rfl
  | succ n ih => rw [List.replicate_succ, String.join_cons, ih, String.append_empty]

namespace Check

variable {m n : Module} {uid uid' : Uid} {path source : String} {text : Except FileError String}
  {g : Dot.Graph} {verbose : Bool}

/-- The file can be read as a graph, the graph repeats no tag at a block, and the function that it
is built into is sound. -/
inductive Good : Except FileError String → Dot.Graph → Prop where
  | mk {source : String} {g : Dot.Graph} : Dot.Graph.read source = .ok g → g.TagsDiffer →
    (∀ uid owner, ∃ i, (g.populate (.empty uid g.name owner)).1.function.inspect = .ok i ∧
      i.defect = none) →
    Good (.ok source) g

/-- What is said of a file is right. -/
inductive Fair : Except FileError String → Except String Function → Prop where
  | good {text : Except FileError String} {g : Dot.Graph} {f : Function} : Good text g →
    f.name = g.name → f.size = g.ids.length → f.edgeCount = g.links.length → Fair text (.ok f)
  | bad {text : Except FileError String} {complaint : String} :
    (∀ g, ¬ Good text g) → Fair text (.error complaint)

/-! ## One file -/

theorem judge_of_unreadable (e : FileError) :
    judge m uid path (.error e) =
      .ok (m, [], .error (path ++ ": " ++ (LoadError.file e).message)) := rfl

theorem judge_of_malformed {e : SyntaxError} (h : Dot.Graph.read source = .error e) :
    judge m uid path (.ok source) =
      .ok (m, [], .error { e with file := some path : SyntaxError }.line) := by
  simp only [judge, Module.loadFile_of_load (Module.load_of_read_error h), bind, Except.bind,
    Except.mapError, LoadError.inFile]
  rfl

theorem judge_of_refused (hm : m.Minted) (hread : Dot.Graph.read source = .ok g) {b : Dot.Building}
    {e : EditError} (hbuild : g.populate (.empty uid g.name m.uid) = (b, some e)) :
    judge m uid path (.ok source) = .ok
      ({ m with nextSerial := m.nextSerial + 1 },
        m.creation g.name :: b.events ++
          [.functionDeleted b.function.name b.function.size m.name],
        .error (path ++ ": " ++ e.message)) := by
  rw [judge, Module.loadFile_of_load (hm.load_of_refused hread hbuild)]
  rfl

theorem judge_of_built (hm : m.Minted) (hread : Dot.Graph.read source = .ok g) {b : Dot.Building}
    {i : Inspection} (hbuild : g.populate (.empty uid g.name m.uid) = (b, none))
    (hinspect : b.function.inspect = .ok i) :
    judge m uid path (.ok source) = .ok
      (m.push b.function, m.creation g.name :: b.events,
        match i.defect with
        | none => .ok b.function
        | some d => .error (path ++ ": " ++ d.message)) := by
  simp only [judge, Module.loadFile_of_load (hm.load_of_built hread hbuild), bind, Except.bind,
    Except.mapError, hm.function_push, hinspect]
  cases i.defect with
  | none => rfl
  | some d => rfl

/-- What is built from a graph has one defect or none, whatever its identities are. -/
theorem exists_defect (hg : g.TagsDiffer) :
    ∃ d, ∀ uid owner, ∃ b i, g.populate (.empty uid g.name owner) = (b, none) ∧
      b.function = g.sketch.build (.empty uid g.name owner) ∧ b.function.inspect = .ok i ∧
      i.defect = d := by
  have hbuilt : ∀ uid owner, ∃ b, g.populate (.empty uid g.name owner) = (b, none) ∧
      b.function = g.sketch.build (.empty uid g.name owner) ∧ b.function.Wired := by
    intro uid owner
    have hempty := Function.Wired.empty uid g.name owner
    obtain ⟨b, hbuild, hfollows⟩ := Dot.Graph.populate_of_tagsDiffer hempty hg
    have hwired := Function.Wired.kept.populate hempty g
    rw [hbuild] at hwired
    exact ⟨b, hbuild, hfollows.function_eq, hwired⟩
  obtain ⟨b₀, -, hfunction₀, hwired₀⟩ := hbuilt ⟨0⟩ ⟨0⟩
  rw [hfunction₀] at hwired₀
  obtain ⟨i₀, -, hi₀, -, -⟩ := Dot.Sketch.inspect_build g.sound_sketch hwired₀ hwired₀
  refine ⟨i₀.defect, fun uid owner => ?_⟩
  obtain ⟨b, hbuild, hfunction, hwired⟩ := hbuilt uid owner
  rw [hfunction] at hwired
  obtain ⟨i, j, hi, hj, hsame⟩ := Dot.Sketch.inspect_build g.sound_sketch hwired₀ hwired
  obtain rfl := Except.ok.inj (hi₀.symm.trans hi)
  exact ⟨b, j, hbuild, hfunction, hfunction ▸ hj, hsame⟩

/-- The function of a good file is sound by the verdict on it. -/
theorem good_iff_verdict : Good (.ok source) g ↔
    Dot.Graph.read source = .ok g ∧ g.TagsDiffer ∧
      ∀ uid owner, (g.populate (.empty uid g.name owner)).1.function.Verdict none := by
  have hsound : ∀ uid owner, _ ↔ (g.populate (.empty uid g.name owner)).1.function.Verdict none :=
    fun uid owner => (Function.Wired.kept.populate (.empty uid g.name owner) g).inspect_sound_iff
  constructor
  · rintro ⟨hread, hg, hinspect⟩
    exact ⟨hread, hg, fun uid owner => (hsound uid owner).mp (hinspect uid owner)⟩
  · rintro ⟨hread, hg, hverdict⟩
    exact .mk hread hg fun uid owner => (hsound uid owner).mpr (hverdict uid owner)

/-- A file is good if its graph repeats no tag and all its ids can be reached from the first one. -/
theorem good_iff : Good (.ok source) g ↔
    Dot.Graph.read source = .ok g ∧ g.TagsDiffer ∧
      ∀ first ∈ g.ids.head?, ∀ id ∈ g.ids, Dot.Leads g.links first id := by
  rw [good_iff_verdict]
  refine and_congr_right fun _ => and_congr_right fun hg => ⟨fun h => ?_, fun h uid owner => ?_⟩
  · exact (Dot.Graph.verdict_none_iff hg ⟨0⟩ g.name ⟨0⟩).mp (h ⟨0⟩ ⟨0⟩)
  · exact (Dot.Graph.verdict_none_iff hg uid g.name owner).mpr h

/-- One run of the check tells whether a file is good. -/
theorem Good.of_inspect {u o : Uid} (hread : Dot.Graph.read source = .ok g) (hg : g.TagsDiffer)
    (h : (g.populate (.empty u g.name o)).1.function.inspect.map (·.defect) = .ok none) :
    Good (.ok source) g := by
  obtain ⟨d, hdefect⟩ := exists_defect hg
  obtain ⟨b, i, hbuild, -, hi, hd⟩ := hdefect u o
  obtain rfl : d = none := by
    rw [hbuild, hi] at h
    exact hd.symm.trans (Except.ok.inj h)
  refine .mk hread hg fun uid owner => ?_
  obtain ⟨b, i, hbuild, -, hi, hd⟩ := hdefect uid owner
  exact ⟨i, by rw [hbuild]; exact hi, hd⟩

theorem Good.tagsDiffer {h : Dot.Graph} (hgood : Good (.ok source) h)
    (hread : Dot.Graph.read source = .ok g) : g.TagsDiffer := by
  cases hgood with
  | mk hread' htags _ =>
      obtain rfl := Except.ok.inj (hread'.symm.trans hread)
      exact htags

theorem Good.sound {h : Dot.Graph} (hgood : Good (.ok source) h)
    (hread : Dot.Graph.read source = .ok g) (uid owner : Uid) :
    ∃ i, (g.populate (.empty uid g.name owner)).1.function.inspect = .ok i ∧ i.defect = none := by
  cases hgood with
  | mk hread' _ hsound =>
      obtain rfl := Except.ok.inj (hread'.symm.trans hread)
      exact hsound uid owner

theorem judge_alike_of_tagsDiffer (hm : m.Minted) (hn : n.Minted) (hname : m.name = n.name)
    (uid uid' : Uid) (path : String) (hread : Dot.Graph.read source = .ok g) (hg : g.TagsDiffer) :
    ∃ m' n' events outcome outcome', judge m uid path (.ok source) = .ok (m', events, outcome) ∧
      judge n uid' path (.ok source) = .ok (n', events, outcome') ∧ m'.Minted ∧ m'.name = m.name ∧
      verdict path outcome = verdict path outcome' ∧ Fair (.ok source) outcome := by
  obtain ⟨-, k, htwins⟩ :=
    Dot.Graph.populate_twins (Dot.Alike.empty uid uid' m.uid n.uid g.name) g
  have hcreation : m.creation g.name = n.creation g.name := by
    rw [Module.creation, Module.creation, hname]
  obtain ⟨d, hdefect⟩ := exists_defect hg
  obtain ⟨b, i, hbuild, hfunction, hi, hd⟩ := hdefect uid m.uid
  obtain ⟨b', i', hbuild', hfunction', hi', hd'⟩ := hdefect uid' n.uid
  rw [hbuild, hbuild'] at htwins
  have hevents : b.events = b'.events := htwins.events_eq
  have hleft : judge m uid path _ = _ := judge_of_built hm hread hbuild hi
  have hright : judge n uid' path _ = _ := judge_of_built hn hread hbuild' hi'
  rw [hd] at hleft
  rw [hd', ← hcreation, ← hevents] at hright
  refine ⟨_, _, _, _, _, hleft, hright, hm.push _, rfl, ?_, ?_⟩
  · cases d with
    | some d => rfl
    | none =>
        have hsize : b.function.size = b'.function.size := by
          rw [hfunction, hfunction', Dot.Sketch.size_build, Dot.Sketch.size_build]
        have hedges : b.function.edgeCount = b'.function.edgeCount := by
          rw [hfunction, hfunction', Dot.Sketch.edgeCount_build g.sound_sketch,
            Dot.Sketch.edgeCount_build g.sound_sketch]
        have hnames : b.function.name = b'.function.name := by
          rw [hfunction, hfunction']
          rfl
        simp only [verdict, approval, hnames, hsize, hedges]
  · cases d with
    | some d =>
        refine .bad fun g' h => ?_
        obtain ⟨j, hj, hnone⟩ := h.sound hread uid m.uid
        rw [hbuild] at hj
        obtain rfl := Except.ok.inj (hi.symm.trans hj)
        simp [hd] at hnone
    | none =>
        have hgood : Good (.ok source) g :=
          .of_inspect hread hg (by rw [hbuild, hi, ← hd]; rfl)
        refine .good hgood ?_ ?_ ?_
        · rw [hfunction]
          rfl
        · rw [hfunction, Dot.Sketch.size_build, ← Dot.Graph.ids_sketch, Dot.Sketch.ids,
            List.length_map]
        · rw [hfunction, Dot.Sketch.edgeCount_build g.sound_sketch, Dot.Graph.links_sketch]

theorem judge_alike_of_not_tagsDiffer (hm : m.Minted) (hn : n.Minted) (hname : m.name = n.name)
    (uid uid' : Uid) (path : String) (hread : Dot.Graph.read source = .ok g)
    (hg : ¬ g.TagsDiffer) :
    ∃ m' n' events outcome outcome', judge m uid path (.ok source) = .ok (m', events, outcome) ∧
      judge n uid' path (.ok source) = .ok (n', events, outcome') ∧ m'.Minted ∧ m'.name = m.name ∧
      verdict path outcome = verdict path outcome' ∧ Fair (.ok source) outcome := by
  have halike := Dot.Alike.empty uid uid' m.uid n.uid g.name
  obtain ⟨hfailed, k, htwins⟩ := Dot.Graph.populate_twins halike g
  have hcreation : m.creation g.name = n.creation g.name := by
    rw [Module.creation, Module.creation, hname]
  obtain ⟨b, k', block, tag, hbuild, -⟩ := Dot.Graph.populate_of_not_tagsDiffer halike.left hg
  obtain ⟨b', hbuild'⟩ : ∃ b', g.populate (.empty uid' g.name n.uid) =
      (b', some (.duplicateTag g.name block tag)) := by
    rw [hbuild] at hfailed
    exact ⟨_, Prod.ext rfl hfailed.symm⟩
  rw [hbuild, hbuild'] at htwins
  have hevents : b.events = b'.events := htwins.events_eq
  have hnames : b.function.name = b'.function.name := by
    rw [htwins.left.function_eq, htwins.right.function_eq]
    rfl
  have hsize : b.function.size = b'.function.size := by
    rw [htwins.left.function_eq, htwins.right.function_eq, Dot.Sketch.size_build,
      Dot.Sketch.size_build]
  have hleft : judge m uid path _ = _ := judge_of_refused hm hread hbuild
  have hright : judge n uid' path _ = _ := judge_of_refused hn hread hbuild'
  rw [← hcreation, ← hevents, ← hnames, ← hsize, ← hname] at hright
  exact ⟨_, _, _, _, _, hleft, hright, hm.skip, rfl, rfl, .bad fun _ h => hg (h.tagsDiffer hread)⟩

/-- What is said of a file does not depend on what the module holds, and it is right. -/
theorem judge_alike (hm : m.Minted) (hn : n.Minted) (hname : m.name = n.name) (uid uid' : Uid)
    (path : String) (text : Except FileError String) :
    ∃ m' n' events outcome outcome', judge m uid path text = .ok (m', events, outcome) ∧
      judge n uid' path text = .ok (n', events, outcome') ∧ m'.Minted ∧ m'.name = m.name ∧
      verdict path outcome = verdict path outcome' ∧ Fair text outcome := by
  cases text with
  | error e =>
      exact ⟨m, n, _, _, _, judge_of_unreadable e, judge_of_unreadable e, hm, rfl, rfl,
        .bad fun _ h => nomatch h⟩
  | ok source =>
      cases hread : Dot.Graph.read source with
      | error e =>
          refine ⟨m, n, _, _, _, judge_of_malformed hread, judge_of_malformed hread, hm, rfl, rfl,
            .bad fun g h => ?_⟩
          cases h with
          | mk hread' _ _ => simp [hread] at hread'
      | ok g =>
          by_cases hg : g.TagsDiffer
          · exact judge_alike_of_tagsDiffer hm hn hname uid uid' path hread hg
          · exact judge_alike_of_not_tagsDiffer hm hn hname uid uid' path hread hg

/-! ## All files -/

/-- The line in the output for a file. -/
inductive Line (path : String) : Except FileError String → String → Prop where
  | good {text : Except FileError String} {g : Dot.Graph} : Good text g →
    Line path text
      s!"{path}: function {g.name} is correct ({g.ids.length} blocks, {g.links.length} edges).\n"
  | bad {text : Except FileError String} : (∀ g, ¬ Good text g) → Line path text ""

/-- The steps for a file do not depend on the module that the other files have left behind. -/
structure IsPart (verbose : Bool) (path : String) (text : Except FileError String)
    (part : List Step) (line : String) : Prop where
  judge_eq : ∀ m uid, m.Minted → m.name = "check" → ∃ m' events outcome,
    judge m uid path text = .ok (m', events, outcome) ∧ m'.Minted ∧ m'.name = "check" ∧
      Event.steps verbose events ++ [verdict path outcome] = part ∧
      (outcome.isOk ↔ ∃ g, Good text g)
  isTalk : ∀ s ∈ part, s.isTalk
  line_eq : String.join (part.map Step.printed) = line
  line_right : Line path text line

theorem Line.eq_of_good {line : String} (h : Line path text line) (hg : Good text g) :
    line =
      s!"{path}: function {g.name} is correct ({g.ids.length} blocks, {g.links.length} edges).\n" := by
  cases h with
  | bad hbad => exact absurd hg (hbad g)
  | good hg' =>
      cases hg with
      | mk hread _ _ =>
          cases hg' with
          | mk hread' _ _ =>
              obtain rfl := Except.ok.inj (hread'.symm.trans hread)
              rfl

theorem Line.eq_empty {line : String} (h : Line path text line) (hbad : ∀ g, ¬ Good text g) :
    line = "" := by
  cases h with
  | good hg => exact absurd hg (hbad _)
  | bad _ => rfl

theorem Fair.isOk_iff {outcome : Except String Function} (h : Fair text outcome) :
    outcome.isOk ↔ ∃ g, Good text g := by
  cases h with
  | good hgood => exact ⟨fun _ => ⟨_, hgood⟩, fun _ => rfl⟩
  | bad hbad => exact ⟨fun h => (nomatch h), fun ⟨g, hg⟩ => absurd hg (hbad g)⟩

theorem Fair.line {outcome : Except String Function} (h : Fair text outcome) (path : String) :
    Line path text (verdict path outcome).printed := by
  cases h with
  | bad hbad => exact .bad hbad
  | good hgood hname hsize hedges =>
      simp only [verdict, Step.printed, approval, hname, hsize, hedges]
      exact .good hgood

theorem exists_isPart (verbose : Bool) (path : String) (text : Except FileError String) :
    ∃ part line, IsPart verbose path text part line := by
  have halone := Module.Minted.empty ⟨0⟩ "check"
  obtain ⟨_, _, events, outcome, _, heq, -, -, -, -, hfair⟩ :=
    judge_alike halone halone rfl ⟨1⟩ ⟨1⟩ path text
  refine ⟨Event.steps verbose events ++ [verdict path outcome], _, ?_, ?_, rfl, ?_⟩
  · intro m uid hm hname
    obtain ⟨m', _, events', outcome', outcome'', hjudge, heq', hm', hname', hsame, hfair'⟩ :=
      judge_alike hm halone hname uid ⟨1⟩ path text
    obtain ⟨-, rfl, rfl⟩ : _ ∧ events = events' ∧ outcome = outcome'' := by
      simpa [heq] using heq'
    exact ⟨m', events, outcome', hjudge, hm', hname'.trans hname, by rw [hsame], hfair'.isOk_iff⟩
  · intro s hs
    rcases List.mem_append.mp hs with hs | hs
    · exact Event.isTalk_steps hs
    · obtain rfl := List.mem_singleton.mp hs
      cases outcome <;> rfl
  · rw [List.map_append, String.join_append, Event.join_printed_steps, String.empty_append]
    simpa using hfair.line path

theorem steps_eq {read : String → Except FileError String} {part : String → List Step}
    {line : String → String} {paths : List String}
    (h : ∀ path ∈ paths, IsPart verbose path (read path) (part path) (line path)) (hm : m.Minted)
    (hname : m.name = "check") (serial : Nat) :
    ∃ good, steps verbose read m serial paths = .ok (paths.flatMap part, good) ∧
      (good ↔ ∀ path ∈ paths, ∃ g, Good (read path) g) := by
  -- Of the module that one file leaves behind it counts only that its handles differ.
  induction paths generalizing m serial with
  | nil => exact ⟨true, rfl, by simp⟩
  | cons path paths ih =>
      obtain ⟨m', events, outcome, hjudge, hm', hname', hpart, hok⟩ :=
        (h path List.mem_cons_self).judge_eq m ⟨serial⟩ hm hname
      obtain ⟨good, hsteps, hgood⟩ :=
        ih (fun p hp => h p (List.mem_cons_of_mem path hp)) hm' hname' (serial + 1)
      refine ⟨outcome.isOk && good, ?_, ?_⟩
      · simp only [steps, hjudge, hsteps, bind, Except.bind, pure, Except.pure, List.flatMap_cons,
          ← hpart, List.append_assoc, List.singleton_append]
      · rw [Bool.and_eq_true, hok, hgood, List.forall_mem_cons]

theorem plan_eq {read : String → Except FileError String} {part : String → List Step}
    {line : String → String} {paths : List String}
    (h : ∀ path ∈ paths, IsPart verbose path (read path) (part path) (line path)) :
    ∃ code, plan verbose read paths = .ok { steps := paths.flatMap part, code } ∧
      (code = 0 ↔ ∀ path ∈ paths, ∃ g, Good (read path) g) ∧
      (code = 1 ↔ ¬ ∀ path ∈ paths, ∃ g, Good (read path) g) := by
  obtain ⟨good, hsteps, hgood⟩ := steps_eq h (Module.Minted.empty ⟨0⟩ "check") rfl 1
  refine ⟨if good then 0 else 1, ?_, ?_, ?_⟩
  · simp only [plan, hsteps, bind, Except.bind, pure, Except.pure]
  · rw [← hgood]
    cases good <;> simp
  · rw [← hgood]
    cases good <;> simp

theorem join_printed_flatMap {part : String → List Step} {line : String → String}
    (h : ∀ path, String.join ((part path).map Step.printed) = line path) (paths : List String) :
    String.join ((paths.flatMap part).map Step.printed) = String.join (paths.map line) := by
  induction paths with
  | nil => rfl
  | cons path paths ih =>
      rw [List.flatMap_cons, List.map_append, String.join_append, h, ih, List.map_cons,
        String.join_cons]

/-- Every file is judged on its own, in order. The command fails unless all files are good. -/
theorem each_file_on_its_own {args paths : List String} {i : Invocation} {fallback : Option String}
    {read : String → Except FileError String} {style : Dot.Style} {events : List Event}
    (hargs : Invocation.ofArguments? args = some i) (hcommand : i.command = .check paths)
    (hstyle : loadStyle read (i.style.or fallback) = .ok (style, events)) :
    ∃ (part : String → Plan) (line : String → String),
      (∀ path, plan i.verbose (fun _ => read path) [path] = .ok (part path) ∧
        ((part path).code = 0 ↔ ∃ g, Good (read path) g) ∧ Line path (read path) (line path)) ∧
      (planFor args fallback read).steps =
        Event.steps i.verbose events ++ paths.flatMap (fun path => (part path).steps) ∧
      ∀ d : Disk, ∃ code errors,
        (planFor args fallback read).carryOut d =
          { code, output := String.join (paths.map line), errors, disk := d } ∧
        (code = 0 ↔ ∀ path ∈ paths, ∃ g, Good (read path) g) ∧
        (code = 1 ↔ ¬ ∀ path ∈ paths, ∃ g, Good (read path) g) := by
  choose part line hpart using fun path => exists_isPart i.verbose path (read path)
  have halone : ∀ path, ∃ code,
      plan i.verbose (fun _ => read path) [path] = .ok { steps := part path, code } ∧
      (code = 0 ↔ ∃ g, Good (read path) g) := by
    intro path
    have hone : ∀ p ∈ [path], IsPart i.verbose p (read path) (part p) (line p) := by
      simpa using hpart path
    obtain ⟨code, hplan, hzero, -⟩ := plan_eq hone
    exact ⟨code, by simpa using hplan, by simpa using hzero⟩
  choose alone hplan halone using halone
  obtain ⟨code, hall, hcode⟩ := plan_eq fun path (_ : path ∈ paths) => hpart path
  have hplanFor : planFor args fallback read =
      { steps := Event.steps i.verbose events ++ paths.flatMap part, code } := by
    simp only [planFor, hargs, Invocation.plan, hstyle, hcommand, hall, bind, Except.bind, pure,
      Except.pure]
  have htalk : ∀ s ∈ Event.steps i.verbose events ++ paths.flatMap part, s.isTalk := by
    intro s hs
    rcases List.mem_append.mp hs with hs | hs
    · exact Event.isTalk_steps hs
    · obtain ⟨path, -, hs⟩ := List.mem_flatMap.mp hs
      exact (hpart path).isTalk s hs
  refine ⟨fun path => { steps := part path, code := alone path }, line,
    fun path => ⟨hplan path, halone path, (hpart path).line_right⟩, by rw [hplanFor], fun d => ?_⟩
  obtain ⟨errors, hcarry⟩ := Step.carryOutAll_of_isTalk code htalk
    { code := 0, output := "", errors := "", disk := d }
  rw [List.map_append, String.join_append, Event.join_printed_steps,
    join_printed_flatMap fun path => (hpart path).line_eq, String.empty_append,
    String.empty_append] at hcarry
  exact ⟨code, errors, by rw [Plan.carryOut, hplanFor]; exact hcarry, hcode⟩

/-- A file that is not there, and a good one behind it. -/
theorem each_file_on_its_own_missing :
    let read : String → Except FileError String := fun path =>
      if path = "good.dot" then .ok "digraph g \x7b a -> b \x7d" else .error .notFound
    let args := ["check", "missing.dot", "-v", "good.dot"]
    ∃ i, Invocation.ofArguments? args = some i ∧ i.command = .check ["missing.dot", "good.dot"] ∧
      loadStyle read (i.style.or none) = .ok ({}, []) ∧
      ∃ errors, (planFor args none read).carryOut .empty =
        { code := 1, output := "good.dot: function g is correct (2 blocks, 1 edges).\n", errors,
          disk := .empty } := by
  intro read args
  have hread : Dot.Graph.read "digraph g \x7b a -> b \x7d" = .ok ⟨some "g", [.edge "a" "b" []]⟩ := by
    cbv
  have hgood : Good (read "good.dot") ⟨some "g", [.edge "a" "b" []]⟩ :=
    .of_inspect (u := ⟨0⟩) (o := ⟨0⟩) hread (by decide) (by cbv)
  have hargs : Invocation.ofArguments? args =
      some ⟨true, none, .check ["missing.dot", "good.dot"]⟩ := by cbv
  obtain ⟨part, line, hpart, -, hcarry⟩ : ∃ (part : String → Plan) (line : String → String), _ :=
    each_file_on_its_own hargs rfl (rfl : loadStyle read (Option.or none none) = _)
  obtain ⟨code, errors, hcarry, -, hcode⟩ := hcarry .empty
  have hbad : ∀ g, ¬ Good (read "missing.dot") g := fun g h => by cases h
  have hmissing := (hpart "missing.dot").2.2.eq_empty hbad
  have hfails : code = 1 := hcode.mpr fun hall => by
    obtain ⟨g, h⟩ := hall "missing.dot" List.mem_cons_self
    exact hbad g h
  refine ⟨_, hargs, rfl, rfl, errors, ?_⟩
  rw [hcarry, hfails, List.map_cons, hmissing, List.map_singleton,
    (hpart "good.dot").2.2.eq_of_good hgood]
  cbv

end Check

end FlowGraph
