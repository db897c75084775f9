import FlowGraph.Proofs.Disk.Files
import Mathlib.Logic.Relation

/-!
Plans carried out on a disk. Whatever a plan does, and wherever it fails, nothing is lost, no file
is touched that it does not write, and nothing gets into a fixed directory. A plan that ends well
has written all its files.
-/
namespace FlowGraph

open Disk

variable {d d' : Disk} {place names : List String} {path text : String} {steps rest : List Step}
  {entries : List (String × Entry)} {s : Step} {a b : Aftermath} {code : Nat}

namespace Disk

/-! ## Changes -/

/-- What the steps may change at once: an empty directory is new, or a file is written. -/
inductive Change (steps : List Step) (d d' : Disk) : Prop where
  | directory {place : List String} : d.Puts place (.directory [] false) d' → Change steps d d'
  | file {path text : String} {place : List String} : .write path text ∈ steps →
    d.LeadsTo (Path.names path) place → d.Puts place (.file text) d' → Change steps d d'

theorem Change.exists_puts (h : Change steps d d') :
    ∃ place new, d.Puts place new d' ∧ new.isSound := by
  cases h with
  | directory h => exact ⟨_, _, h, rfl⟩
  | file _ _ h => exact ⟨_, _, h, rfl⟩

/-- Any number of changes. -/
def Changes (steps : List Step) : Disk → Disk → Prop := Relation.ReflTransGen (Change steps)

namespace Changes

theorem refl (steps : List Step) (d : Disk) : Changes steps d d := Relation.ReflTransGen.refl

theorem trans {d'' : Disk} (h : Changes steps d d') (h' : Changes steps d' d'') :
    Changes steps d d'' := Relation.ReflTransGen.trans h h'

theorem mono (h : Changes rest d d') (hsub : rest ⊆ steps) : Changes steps d d' := by
  refine Relation.ReflTransGen.mono (fun d d' hc => ?_) _ _ h
  cases hc with
  | directory hputs => exact .directory hputs
  | file hmem hleads hputs => exact .file (hsub hmem) hleads hputs

/-- What every single change keeps is kept. -/
theorem invariant {P : Disk → Prop} (hput : ∀ {d d' place new}, d.Puts place new d' →
    new.isSound → P d → P d') (h : Changes steps d d') (hd : P d) : P d' := by
  induction h with
  | refl => exact hd
  | tail _ hc ih =>
      obtain ⟨_, _, hputs, hnew⟩ := hc.exists_puts
      exact hput hputs hnew ih

theorem here_eq (h : Changes steps d d') : d'.here = d.here :=
  h.invariant (P := fun d' => d'.here = d.here) (fun hputs _ ih => hputs.here_eq.trans ih) rfl

theorem leadsTo (h : Changes steps d d') (hl : d.LeadsTo names place) :
    d'.LeadsTo names place :=
  h.invariant (fun hputs _ ih => hputs.leadsTo ih) hl

theorem hasDirectory (h : Changes steps d d') (hd : d.top.HasDirectory place) :
    d'.top.HasDirectory place :=
  h.invariant (P := fun d => d.top.HasDirectory place) (fun hputs _ ih => hputs.hasDirectory ih) hd

theorem isSound (h : Changes steps d d') (hs : d.top.isSound) : d'.top.isSound :=
  h.invariant (P := fun d => d.top.isSound)
    (fun hputs hnew ih => Entry.isSound_put hputs.put_eq hnew ih hputs.isName) hs

/-- The names in a fixed directory stay. -/
theorem fixed (h : Changes steps d d') (hd : d.top.at? place = some (.directory entries true)) :
    ∃ entries', d'.top.at? place = some (.directory entries' true) ∧
      entries'.map (·.1) = entries.map (·.1) := by
  refine h.invariant (P := fun d => ∃ entries', d.top.at? place =
    some (.directory entries' true) ∧ entries'.map (·.1) = entries.map (·.1)) ?_ ⟨entries, hd, rfl⟩
  rintro d d' _ _ hputs - ⟨entries', hd', hnames⟩
  obtain ⟨entries'', hd'', hnames'⟩ := hputs.fixed hd'
  exact ⟨entries'', hd'', hnames'.trans hnames⟩

/-- A file stays, be it with another text. -/
theorem file_kept (h : Changes steps d d') (hf : d.top.at? place = some (.file text)) :
    ∃ text', d'.top.at? place = some (.file text') := by
  induction h with
  | refl => exact ⟨text, hf⟩
  | tail _ hc ih =>
      obtain ⟨text', hf'⟩ := ih
      cases hc with
      | @directory place' hputs =>
          have hne : place ≠ place' := by
            rintro rfl
            exact absurd rfl (hputs.old _ hf').2
          exact ⟨text', (hputs.file_iff hne).mpr hf'⟩
      | @file _ text'' place' _ _ hputs =>
          by_cases hne : place = place'
          · subst hne
            exact ⟨text'', hputs.at?_self⟩
          · exact ⟨text', (hputs.file_iff hne).mpr hf'⟩

/-- A file has the text that it had, or the one that a step writes there. -/
theorem file_written (h : Changes steps d d') (hf : d'.top.at? place = some (.file text)) :
    d.top.at? place = some (.file text) ∨
      ∃ path, .write path text ∈ steps ∧ d'.LeadsTo (Path.names path) place := by
  induction h with
  | refl => exact .inl hf
  | tail _ hc ih =>
      cases hc with
      | @directory place' hputs =>
          have hne : place ≠ place' := by
            rintro rfl
            simp [hputs.at?_self] at hf
          exact (ih ((hputs.file_iff hne).mp hf)).imp_right fun ⟨path, hmem, hleads⟩ =>
            ⟨path, hmem, hputs.leadsTo hleads⟩
      | @file path' text' place' hmem hleads hputs =>
          by_cases hne : place = place'
          · subst hne
            obtain rfl : text' = text := by simpa [hputs.at?_self] using hf
            exact .inr ⟨path', hmem, hputs.leadsTo hleads⟩
          · exact (ih ((hputs.file_iff hne).mp hf)).imp_right fun ⟨path, hmem, hleads⟩ =>
              ⟨path, hmem, hputs.leadsTo hleads⟩

/-- What a path reads is read still, unless a step writes there. -/
theorem read (h : Changes steps d d') (hr : d.read path = .ok text) :
    ∃ text', d'.read path = .ok text' ∧ (text' = text ∨ ∃ other, .write other text' ∈ steps) := by
  obtain ⟨hcheck, place, hleads, hf⟩ := read_eq_iff.mp hr
  obtain ⟨text', hf'⟩ := h.file_kept hf
  refine ⟨text', read_eq_iff.mpr ⟨hcheck, place, h.leadsTo hleads, hf'⟩, ?_⟩
  rcases h.file_written hf' with hold | ⟨other, hmem, -⟩
  · exact .inl (by simpa [hf, eq_comm] using hold)
  · exact .inr ⟨other, hmem⟩

theorem holdsDirectory (h : Changes steps d d') (hd : d.holdsDirectory names) :
    d'.holdsDirectory names := by
  obtain ⟨hcheck, place, hleads, hplace⟩ := holdsDirectory_iff.mp hd
  exact holdsDirectory_iff.mpr ⟨hcheck, place, h.leadsTo hleads, h.hasDirectory hplace⟩

end Changes

/-! ## Steps -/

theorem changes_ensureDirectory (steps : List Step) (names : List String) (d : Disk) :
    Changes steps d ((ensureDirectory names).run d).2 := by
  rw [run_ensureDirectory]
  cases hm : d.makeDirectory names with
  | error e => exact .refl steps d
  | ok d' =>
      obtain ⟨_, -, -, -, hputs⟩ := puts_of_makeDirectory hm
      exact .single (.directory hputs)

/-- The directory is there if there is no complaint. -/
theorem holdsDirectory_ensureDirectory (h : (ensureDirectory names).run d = (none, d')) :
    d'.holdsDirectory names := by
  rw [run_ensureDirectory] at h
  cases hm : d.makeDirectory names with
  | error e =>
      simp only [hm] at h
      obtain ⟨hnone, rfl⟩ := Prod.mk.inj h
      by_contra hd
      simp [hd] at hnone
  | ok d'' =>
      obtain rfl := (Prod.mk.inj (hm ▸ h)).2
      exact holdsDirectory_makeDirectory hm

/-- After a complaint that something is missing, the directories above are made first. -/
theorem run_makeAll (hn : names ≠ []) (d : Disk) :
    ((ensureDirectory names).run d).1 ≠ some .notFound ∧
        (Path.makeAll ensureDirectory names).run d = (ensureDirectory names).run d ∨
      ∃ d', (ensureDirectory names).run d = (some .notFound, d') ∧
        ((∃ d'', (Path.makeAll ensureDirectory (Path.enclosing names)).run d' = (none, d'') ∧
            (Path.makeAll ensureDirectory names).run d = (ensureDirectory names).run d'') ∨
          ∃ e d'', (Path.makeAll ensureDirectory (Path.enclosing names)).run d' = (some e, d'') ∧
            (Path.makeAll ensureDirectory names).run d = (some e, d'')) := by
  obtain ⟨outcome, d', hmade⟩ : ∃ outcome d', (ensureDirectory names).run d = (outcome, d') :=
    ⟨_, _, rfl⟩
  rw [Path.makeAll, dif_neg hn, StateT.run_bind, hmade]
  cases outcome with
  | none => exact .inl ⟨by simp, rfl⟩
  | some e =>
      by_cases he : e = .notFound
      · subst he
        refine .inr ⟨d', rfl, ?_⟩
        obtain ⟨outcome, d'', habove⟩ : ∃ outcome d'',
            (Path.makeAll ensureDirectory (Path.enclosing names)).run d' = (outcome, d'') :=
          ⟨_, _, rfl⟩
        cases outcome with
        | none =>
            refine .inl ⟨d'', habove, ?_⟩
            change StateT.run (Path.makeAll ensureDirectory (Path.enclosing names) >>= _) d' = _
            rw [StateT.run_bind, habove]
            rfl
        | some e =>
            refine .inr ⟨e, d'', habove, ?_⟩
            change StateT.run (Path.makeAll ensureDirectory (Path.enclosing names) >>= _) d' = _
            rw [StateT.run_bind, habove]
            rfl
      · refine .inl ⟨by simpa using he, ?_⟩
        cases e with
        | notFound => exact absurd rfl he
        | _ => rfl

theorem changes_makeAll (steps : List Step) (names : List String) (d : Disk) :
    Changes steps d ((Path.makeAll ensureDirectory names).run d).2 := by
  induction hn : names.length using Nat.strongRecOn generalizing names d with
  | ind n ih =>
      by_cases hnil : names = []
      · rw [Path.makeAll, dif_pos hnil]
        exact .refl steps d
      have hmade := changes_ensureDirectory steps names d
      have habove := ih _ (hn ▸ Path.length_enclosing_lt hnil) (Path.enclosing names)
      rcases run_makeAll hnil d with ⟨-, hrun⟩ | ⟨d', hm, ⟨d'', ha, hrun⟩ | ⟨e, d'', ha, hrun⟩⟩
      · rwa [hrun]
      · rw [hm] at hmade
        rw [hrun]
        have hthere := habove d' rfl
        rw [ha] at hthere
        exact (hmade.trans hthere).trans (changes_ensureDirectory steps names d'')
      · rw [hm] at hmade
        rw [hrun]
        have hthere := habove d' rfl
        rw [ha] at hthere
        exact hmade.trans hthere

theorem changes_makeDirectories (steps : List Step) (h : d.makeDirectories names = .ok d') :
    Changes steps d d' := by
  have hmade := changes_makeAll steps names d
  unfold makeDirectories at h
  split at h
  · next d'' hm =>
      rw [hm] at hmade
      obtain rfl := Except.ok.inj h
      exact hmade
  · simp at h

/-- The directory that was asked for is there, however many had to be made. -/
theorem holdsDirectory_makeDirectories (hn : names ≠ []) (h : d.makeDirectories names = .ok d') :
    d'.holdsDirectory names := by
  unfold makeDirectories at h
  split at h
  · next d'' hm =>
      obtain rfl := Except.ok.inj h
      rcases run_makeAll hn d with ⟨-, hrun⟩ | ⟨d', -, ⟨d'', -, hrun⟩ | ⟨e, d'', -, hrun⟩⟩
      · exact holdsDirectory_ensureDirectory (hrun.symm.trans hm)
      · exact holdsDirectory_ensureDirectory (hrun.symm.trans hm)
      · exact absurd (Prod.mk.inj (hrun.symm.trans hm)).1 (by simp)
  · simp at h

/-- What steps leave of a disk. -/
structure Leaves (steps : List Step) (d d' : Disk) : Prop where
  here_eq : d'.here = d.here
  isSound : d.top.isSound → d'.top.isSound
  leadsTo : ∀ {names place}, d.LeadsTo names place → d'.LeadsTo names place
  hasDirectory : ∀ {place}, d.top.HasDirectory place → d'.top.HasDirectory place
  fixed : ∀ {place entries}, d.top.at? place = some (.directory entries true) →
    ∃ entries', d'.top.at? place = some (.directory entries' true) ∧
      entries'.map (·.1) = entries.map (·.1)
  file_kept : ∀ {place text}, d.top.at? place = some (.file text) →
    ∃ text', d'.top.at? place = some (.file text')
  file_written : ∀ {place text}, d'.top.at? place = some (.file text) →
    d.top.at? place = some (.file text) ∨
      ∃ path, .write path text ∈ steps ∧ d'.LeadsTo (Path.names path) place

theorem Changes.leaves (h : Changes steps d d') : Leaves steps d d' where
  here_eq := h.here_eq
  isSound := h.isSound
  leadsTo := h.leadsTo
  hasDirectory := h.hasDirectory
  fixed := h.fixed
  file_kept := h.file_kept
  file_written := h.file_written

end Disk

/-! ## Plans -/

namespace Step

theorem disk_of_bind {changed : Except FileError Disk}
    (h : (do return { a with disk := ← changed }) = Except.ok b) : changed = .ok b.disk := by
  obtain ⟨d, hd, h⟩ := exists_of_bind_eq_ok h
  obtain rfl := Except.ok.inj h
  exact hd

theorem changes_carryOut (h : s.carryOut a = .ok b) (hs : s ∈ steps) :
    Changes steps a.disk b.disk := by
  cases s with
  | print text =>
      obtain rfl := Except.ok.inj h
      exact .refl steps a.disk
  | complain text =>
      obtain rfl := Except.ok.inj h
      exact .refl steps a.disk
  | makeDirectory path => exact changes_makeDirectories steps (disk_of_bind h)
  | write path text =>
      obtain ⟨_, -, hleads, hputs⟩ := puts_of_write (disk_of_bind h)
      exact .single (.file hs hleads hputs)

theorem changes_carryOutAll (code : Nat) (steps : List Step) (a : Aftermath) :
    Changes steps a.disk (carryOutAll code steps a).disk := by
  induction steps generalizing a with
  | nil => exact .refl [] a.disk
  | cons s rest ih =>
      rw [carryOutAll]
      cases hs : s.carryOut a with
      | error e => exact .refl _ a.disk
      | ok b =>
          exact (changes_carryOut hs List.mem_cons_self).trans
            ((ih b).mono (List.subset_cons_self s rest))

/-- Steps end with the code 0 only if none of them fails. -/
theorem exists_carryOut (h : (carryOutAll code (s :: rest) a).code = 0) :
    ∃ b, s.carryOut a = .ok b ∧ carryOutAll code (s :: rest) a = carryOutAll code rest b := by
  rw [carryOutAll] at h ⊢
  cases hs : s.carryOut a with
  | error e => simp [hs] at h
  | ok b => exact ⟨b, rfl, rfl⟩

theorem read_carryOutAll (h : (carryOutAll code steps a).code = 0)
    (hmem : .write path text ∈ steps) :
    ∃ text', (carryOutAll code steps a).disk.read path = .ok text' ∧
      ∃ other, .write other text' ∈ steps := by
  induction steps generalizing a with
  | nil => simp at hmem
  | cons s rest ih =>
      obtain ⟨b, hs, heq⟩ := exists_carryOut h
      rw [heq] at h ⊢
      rcases List.mem_cons.mp hmem with rfl | hmem
      · -- What was written here may be written over by a later step.
        have hread := read_write (disk_of_bind hs)
        obtain ⟨text', hread', rfl | ⟨other, hother⟩⟩ :=
          (changes_carryOutAll code rest b).read hread
        · exact ⟨_, hread', path, List.mem_cons_self⟩
        · exact ⟨_, hread', other, List.mem_cons_of_mem _ hother⟩
      · obtain ⟨text', hread, other, hother⟩ := ih h hmem
        exact ⟨text', hread, other, List.mem_cons_of_mem _ hother⟩

theorem holdsDirectory_carryOutAll (h : (carryOutAll code steps a).code = 0)
    (hmem : .makeDirectory path ∈ steps) (hpath : Path.names path ≠ []) :
    (carryOutAll code steps a).disk.holdsDirectory (Path.names path) := by
  induction steps generalizing a with
  | nil => simp at hmem
  | cons s rest ih =>
      obtain ⟨b, hs, heq⟩ := exists_carryOut h
      rw [heq] at h ⊢
      rcases List.mem_cons.mp hmem with rfl | hmem
      · exact (changes_carryOutAll code rest b).holdsDirectory
          (holdsDirectory_makeDirectories hpath (disk_of_bind hs))
      · exact ih h hmem

end Step

/-- Wherever a plan ends, this much holds of what it leaves. -/
theorem Plan.leaves_carryOut (p : Plan) (d : Disk) : Leaves p.steps d (p.carryOut d).disk :=
  (Step.changes_carryOutAll p.code p.steps ⟨0, "", "", d⟩).leaves

/-- A plan that ends well has written every file and made every directory. -/
theorem Plan.carryOut_of_code (p : Plan) (d : Disk) (h : (p.carryOut d).code = 0) :
    (∀ path text, .write path text ∈ p.steps → ∃ text', (p.carryOut d).disk.read path = .ok text' ∧
      ∃ other, .write other text' ∈ p.steps) ∧
    ∀ path, .makeDirectory path ∈ p.steps → Path.names path ≠ [] →
      (p.carryOut d).disk.holdsDirectory (Path.names path) :=
  ⟨fun _ _ => Step.read_carryOutAll h, fun _ => Step.holdsDirectory_carryOutAll h⟩

namespace Disk

/-! ## A disk with files -/

theorem changes_foldl (files : List (String × String)) (d : Disk) :
    Changes (files.map fun x => .write x.1 x.2) d
      (files.foldl (fun d x =>
        match d.makeDirectories (Path.names x.1).dropLast >>= (·.write x.1 x.2) with
        | .ok d' => d'
        | .error _ => d) d) := by
  induction files generalizing d with
  | nil => exact .refl [] d
  | cons x files ih =>
      have hrest := fun d => (ih d).mono (List.subset_cons_self (Step.write x.1 x.2) _)
      rw [List.foldl_cons, List.map_cons]
      cases hm : d.makeDirectories (Path.names x.1).dropLast with
      | error e => exact hrest d
      | ok made =>
          have hmade := changes_makeDirectories
            (.write x.1 x.2 :: files.map fun x => .write x.1 x.2) hm
          cases hw : made.write x.1 x.2 with
          | error e =>
              simp only [bind, Except.bind, hw]
              exact hrest d
          | ok written =>
              obtain ⟨_, -, hleads, hputs⟩ := puts_of_write hw
              simp only [bind, Except.bind, hw]
              exact (hmade.tail (.file List.mem_cons_self hleads hputs)).trans (hrest written)

theorem changes_ofFiles (files : List (String × String)) :
    Changes (files.map fun x => .write x.1 x.2) empty (ofFiles files) :=
  changes_foldl files empty

theorem isSound_empty : empty.top.isSound := by decide +kernel

theorem leadsTo_empty : empty.LeadsTo [] empty.here := by
  have h : empty.follow [] = .ok ⟨empty.here, empty.top.at? empty.here⟩ := by rfl
  exact (follow_eq_ok_iff.mp h).1

/-! ## What is listed -/

theorem mem_texts_iff (hs : d.top.isSound) (hh : d.LeadsTo [] d.here) :
    (place, text) ∈ d.texts ↔ d.top.at? (d.here ++ place) = some (.file text) := by
  have hfollow := follow_eq_ok_iff.mpr ⟨hh, rfl⟩
  rw [texts, hfollow]
  cases hat : d.top.at? d.here with
  | none => simp [Entry.at?_append, hat]
  | some e =>
      have he : e.isSound := Entry.isSound_at? hs hat
      simp [Entry.mem_texts_iff e he, Entry.at?_append, hat]

theorem lookup_texts_iff (hs : d.top.isSound) (hh : d.LeadsTo [] d.here) :
    d.texts.lookup place = some text ↔ d.top.at? (d.here ++ place) = some (.file text) := by
  rw [← mem_texts_iff hs hh]
  refine ⟨mem_of_lookup, fun hmem => ?_⟩
  cases hl : d.texts.lookup place with
  | none => exact absurd (List.mem_map_of_mem hmem) (not_mem_of_lookup hl)
  | some text' =>
      have hat := (mem_texts_iff hs hh).mp hmem
      have hat' := (mem_texts_iff hs hh).mp (mem_of_lookup hl)
      simpa [hat] using hat'.symm

theorem Leaves.leadsTo_here (h : Leaves steps d d') (hh : d.LeadsTo [] d.here) :
    d'.LeadsTo [] d'.here := by
  rw [h.here_eq]
  exact h.leadsTo hh

/-- Every change that is listed was written by a step, to a path that leads there. -/
theorem Leaves.write_of_mem_changes (h : Leaves steps d d') (hs : d.top.isSound)
    (hh : d.LeadsTo [] d.here) (hmem : (path, text) ∈ d'.changes d) :
    ∃ place other, path = Path.text place ∧ .write other text ∈ steps ∧
      d'.LeadsTo (Path.names other) (d.here ++ place) := by
  simp only [changes, List.mem_map, List.mem_filter, Prod.mk.injEq, decide_eq_true_eq] at hmem
  obtain ⟨⟨place, text⟩, ⟨hmem, hnew⟩, rfl, rfl⟩ := hmem
  have hfile := (mem_texts_iff (h.isSound hs) (h.leadsTo_here hh)).mp hmem
  rw [h.here_eq] at hfile
  rcases h.file_written hfile with hold | ⟨other, hwrite, hleads⟩
  · exact absurd ((lookup_texts_iff hs hh).mpr hold) hnew
  · exact ⟨place, other, rfl, hwrite, hleads⟩

end Disk

/-- Whatever files there are before, all that changes in them was written by the plan. -/
theorem Plan.write_of_mem_changes (p : Plan) (files : List (String × String))
    (h : (path, text) ∈ (p.carryOut (ofFiles files)).disk.changes (ofFiles files)) :
    ∃ place other, path = Path.text place ∧ .write other text ∈ p.steps ∧
      (p.carryOut (ofFiles files)).disk.LeadsTo (Path.names other)
        ((ofFiles files).here ++ place) :=
  have hfiles := (changes_ofFiles files).leaves
  (p.leaves_carryOut (ofFiles files)).write_of_mem_changes (hfiles.isSound isSound_empty)
    (hfiles.leadsTo_here leadsTo_empty) h

/-- The devices of the kernel stay as they are. -/
theorem Plan.at?_sys (p : Plan) (files : List (String × String)) :
    (p.carryOut (ofFiles files)).disk.top.at? ["sys"] = some (.directory [] true) := by
  have hsys : empty.top.at? ["sys"] = some (.directory [] true) := by rfl
  obtain ⟨entries, hfiles, hnames⟩ := (changes_ofFiles files).leaves.fixed hsys
  obtain ⟨entries', hplan, hnames'⟩ := (p.leaves_carryOut (ofFiles files)).fixed hfiles
  obtain rfl : entries' = [] := by simpa [hnames] using hnames'
  exact hplan

end FlowGraph
