import FlowGraph.Disk
import FlowGraph.Proofs.Disk.Entry

/-!
Files and directories of a disk. What was written is read, a directory that was made is there, and
whatever a plan does, no file is touched that it does not write.
-/
namespace FlowGraph

theorem exists_of_bind_eq_ok {ε α β : Type} {x : Except ε α} {k : α → Except ε β} {b : β}
    (h : x >>= k = .ok b) : ∃ a, x = .ok a ∧ k a = .ok b := by
  cases x with
  | error e => simp [bind, Except.bind] at h
  | ok a => exact ⟨a, rfl, h⟩

namespace Disk

open Entry (HasDirectory IsName)

variable {d d' : Disk} {place names other : List String} {path text text' : String}
  {new : Entry} {found : Option Entry} {p : Plan}

/-! ## Where paths lead -/

/-- The names of a path from the top on. -/
def fromTop (here names : List String) : List String :=
  match names with
  | "/" :: names => names
  | names => here ++ names

/-- Where the names of a path lead. -/
def LeadsTo (d : Disk) (names place : List String) : Prop :=
  d.top.Follows [] (fromTop d.here names) place

theorem follow_eq_ok_iff :
    d.follow names = .ok ⟨place, found⟩ ↔ d.LeadsTo names place ∧ found = d.top.at? place := by
  have hfollow : d.follow names = d.top.follow [] (fromTop d.here names) := by
    rcases names with - | ⟨name, names⟩
    · rfl
    · by_cases hname : name = "/"
      · subst hname
        rfl
      · simp [follow, fromTop, hname]
  have hway : Entry.IsWay d.top [] := trivial
  rw [hfollow, Entry.follow_eq_ok_iff hway]
  rfl

theorem locate_eq_ok_iff : d.locate names = .ok ⟨place, found⟩ ↔
    checkPath names = .ok () ∧ d.LeadsTo names place ∧ found = d.top.at? place := by
  rw [← follow_eq_ok_iff, locate]
  cases checkPath names with
  | error e => simp [bind, Except.bind]
  | ok u => simp [bind, Except.bind]

theorem LeadsTo.isName (h : d.LeadsTo names place) : ∀ name ∈ place, IsName name :=
  Entry.Follows.isName h (by simp)

/-! ## One change -/

/-- An entry without content is put at a place. It is new there, or both it and what was there are
no directories. -/
structure Puts (d : Disk) (place : List String) (new : Entry) (d' : Disk) : Prop where
  put_eq : Entry.put new place d.top = some d'.top
  here_eq : d'.here = d.here
  shell_eq : new.shell = new
  old : ∀ old, d.top.at? place = some old → ¬ old.isDirectory ∧ ¬ new.isDirectory
  isName : ∀ name ∈ place, IsName name

theorem Entry.isDirectory_iff {e : Entry} :
    e.isDirectory ↔ ∃ entries fixed, e = .directory entries fixed := by
  cases e <;> simp [isDirectory]

theorem Entry.shell_eq_of_not_isDirectory {e : Entry} (h : ¬ e.isDirectory) : e.shell = e := by
  cases e with
  | directory entries fixed => exact absurd rfl h
  | file text => rfl
  | binary => rfl

namespace Puts

theorem at?_self (h : d.Puts place new d') : d'.top.at? place = some new :=
  Entry.at?_put_self h.put_eq

theorem old_shell (h : d.Puts place new d') (old : Entry) (ho : d.top.at? place = some old) :
    old.shell = old :=
  Entry.shell_eq_of_not_isDirectory (h.old old ho).1

theorem shell_at? (h : d.Puts place new d') (hne : other ≠ place) :
    (d'.top.at? other).map Entry.shell = (d.top.at? other).map Entry.shell :=
  Entry.shell_at?_put h.put_eq h.shell_eq h.old_shell hne

theorem file_iff (h : d.Puts place new d') (hne : other ≠ place) :
    d'.top.at? other = some (.file text) ↔ d.top.at? other = some (.file text) := by
  have hfile : ∀ e : Option Entry,
      e.map Entry.shell = some (.file text) ↔ e = some (.file text) := by
    intro e
    rcases e with - | ⟨text⟩ | - | ⟨entries, fixed⟩ <;> simp [Entry.shell]
  rw [← hfile, h.shell_at? hne, hfile]

theorem old_eq (h : d.Puts place new d') (old : Entry) (ho : d.top.at? place = some old) :
    old.shell = old ∧ ¬ old.isDirectory :=
  ⟨h.old_shell old ho, (h.old old ho).1⟩

theorem leadsTo (h : d.Puts place new d') (hl : d.LeadsTo names other) :
    d'.LeadsTo names other := by
  rw [LeadsTo, h.here_eq]
  exact Entry.Follows.put hl h.put_eq h.shell_eq h.old_eq

theorem hasDirectory (h : d.Puts place new d') (hd : d.top.HasDirectory other) :
    d'.top.HasDirectory other :=
  hd.put h.put_eq h.shell_eq h.old_eq

theorem fixed {entries : List (String × Entry)} (h : d.Puts place new d')
    (hd : d.top.at? other = some (.directory entries true)) :
    ∃ entries', d'.top.at? other = some (.directory entries' true) ∧
      entries'.map (·.1) = entries.map (·.1) := by
  refine Entry.names_at?_put h.put_eq h.old_shell hd ?_
  rintro rfl
  exact absurd rfl (h.old _ hd).1

end Puts

theorem put_eq_ok_iff {spot : Spot} :
    d.put spot new = .ok d' ↔ Entry.put new spot.names d.top = some d'.top ∧ d'.here = d.here := by
  unfold put
  obtain ⟨top, here⟩ := d
  obtain ⟨top', here'⟩ := d'
  cases Entry.put new spot.names top with
  | none => simp
  | some t => simp [eq_comm]

theorem puts_of_write (h : d.write path text = .ok d') :
    ∃ place, checkPath (Path.names path) = .ok () ∧ d.LeadsTo (Path.names path) place ∧
      d.Puts place (.file text) d' := by
  obtain ⟨⟨place, found⟩, hl, h⟩ := exists_of_bind_eq_ok h
  obtain ⟨hcheck, hleads, rfl⟩ := locate_eq_ok_iff.mp hl
  have hdirectory : ∀ old, d.top.at? place = some old → ¬ old.isDirectory := by
    rintro old ho hdir
    obtain ⟨entries, fixed, rfl⟩ := Entry.isDirectory_iff.mp hdir
    simp [ho] at h
  have hput : d.put ⟨place, d.top.at? place⟩ (.file text) = .ok d' := by
    split at h
    · simp at h
    · exact h
  obtain ⟨hput, hhere⟩ := put_eq_ok_iff.mp hput
  exact ⟨place, hcheck, hleads, hput, hhere, rfl,
    fun old ho => ⟨hdirectory old ho, by simp [Entry.isDirectory]⟩, hleads.isName⟩

/-- The names of a directory without the slashes behind them. -/
def strip (names : List String) : List String := (names.reverse.dropWhile (· = "")).reverse

theorem puts_of_makeDirectory (h : d.makeDirectory names = .ok d') :
    ∃ place, checkPath names = .ok () ∧ d.LeadsTo (strip names) place ∧
      d.top.at? place = none ∧ d.Puts place (.directory [] false) d' := by
  obtain ⟨u, hcheck, h⟩ := exists_of_bind_eq_ok h
  obtain ⟨⟨place, found⟩, hl, h⟩ := exists_of_bind_eq_ok h
  obtain ⟨hleads, rfl⟩ := follow_eq_ok_iff.mp hl
  split at h
  · simp at h
  · next hnone =>
      have hnone : d.top.at? place = none := Option.not_isSome_iff_eq_none.mp hnone
      obtain ⟨hput, hhere⟩ := put_eq_ok_iff.mp h
      exact ⟨place, hcheck, hleads, hnone, hput, hhere, rfl, by simp [hnone], hleads.isName⟩

/-! ## Reading and writing -/

theorem read_eq_iff : d.read path = .ok text ↔ checkPath (Path.names path) = .ok () ∧
    ∃ place, d.LeadsTo (Path.names path) place ∧ d.top.at? place = some (.file text) := by
  constructor
  · intro h
    obtain ⟨⟨place, found⟩, hl, h⟩ := exists_of_bind_eq_ok h
    obtain ⟨hcheck, hleads, hfound⟩ := locate_eq_ok_iff.mp hl
    split at h
    · next text' hfile =>
        obtain rfl := Except.ok.inj h
        exact ⟨hcheck, place, hleads, hfound.symm.trans hfile⟩
    all_goals simp at h
  · rintro ⟨hcheck, place, hleads, hfile⟩
    have hl := locate_eq_ok_iff.mpr ⟨hcheck, hleads, rfl⟩
    simp only [read, hl, hfile, bind, Except.bind]
    rfl

/-- What was written is read. -/
theorem read_write (h : d.write path text = .ok d') : d'.read path = .ok text := by
  obtain ⟨place, hcheck, hleads, hputs⟩ := puts_of_write h
  exact read_eq_iff.mpr ⟨hcheck, place, hputs.leadsTo hleads, hputs.at?_self⟩

/-- Another path to the file reads what was written, and every other file keeps its text. -/
theorem read_of_write {other : String} (h : d.write path text = .ok d')
    (ho : d.read other = .ok text') :
    d'.read other = .ok text' ∨ d'.read other = .ok text ∧
      ∃ place, d.LeadsTo (Path.names path) place ∧ d.LeadsTo (Path.names other) place := by
  obtain ⟨place, -, hleads, hputs⟩ := puts_of_write h
  obtain ⟨hcheck, place', hleads', hfile⟩ := read_eq_iff.mp ho
  by_cases hne : place' = place
  · subst hne
    exact .inr ⟨read_eq_iff.mpr ⟨hcheck, place', hputs.leadsTo hleads', hputs.at?_self⟩,
      place', hleads, hleads'⟩
  · exact .inl (read_eq_iff.mpr
      ⟨hcheck, place', hputs.leadsTo hleads', (hputs.file_iff hne).mpr hfile⟩)

/-! ## Directories -/

theorem holdsDirectory_iff : d.holdsDirectory names ↔
    checkPath names = .ok () ∧ ∃ place, d.LeadsTo names place ∧ HasDirectory d.top place := by
  constructor
  · intro h
    unfold holdsDirectory at h
    cases hl : d.locate names with
    | error e => simp [hl] at h
    | ok spot =>
        obtain ⟨place, found⟩ := spot
        obtain ⟨hcheck, hleads, rfl⟩ := locate_eq_ok_iff.mp hl
        simp only [hl] at h
        obtain ⟨e, he, hdir⟩ := (Option.any_eq_true _ _).mp h
        obtain ⟨entries, fixed, rfl⟩ := Entry.isDirectory_iff.mp hdir
        exact ⟨hcheck, place, hleads, entries, fixed, he⟩
  · rintro ⟨hcheck, place, hleads, entries, fixed, hat⟩
    have hl := locate_eq_ok_iff.mpr ⟨hcheck, hleads, rfl⟩
    rw [holdsDirectory, hl]
    simp [hat, Entry.isDirectory]

theorem exists_strip (names : List String) :
    ∃ n, names = strip names ++ List.replicate n "" := by
  refine ⟨(names.reverse.takeWhile (· = "")).length, ?_⟩
  have hslashes : names.reverse.takeWhile (· = "") =
      List.replicate (names.reverse.takeWhile (· = "")).length "" :=
    List.eq_replicate_iff.mpr ⟨rfl, fun name h => by
      simpa using List.all_eq_true.mp List.all_takeWhile name h⟩
  calc names = names.reverse.reverse := (List.reverse_reverse names).symm
    _ = (names.reverse.takeWhile (· = "") ++ names.reverse.dropWhile (· = "")).reverse := by
        rw [List.takeWhile_append_dropWhile]
    _ = strip names ++ List.replicate (names.reverse.takeWhile (· = "")).length "" := by
        rw [List.reverse_append, hslashes]
        simp [strip]

/-- A directory that was made is there. -/
theorem holdsDirectory_makeDirectory (h : d.makeDirectory names = .ok d') :
    d'.holdsDirectory names := by
  obtain ⟨place, hcheck, hleads, -, hputs⟩ := puts_of_makeDirectory h
  have hdirectory : HasDirectory d'.top place := ⟨[], false, hputs.at?_self⟩
  -- The slashes behind the names were not followed when the directory was made.
  obtain ⟨n, hnames⟩ := exists_strip names
  have hfrom : fromTop d'.here names = fromTop d'.here (strip names) ++ List.replicate n "" := by
    conv_lhs => rw [hnames]
    generalize strip names = ns
    rcases ns with - | ⟨name, ns⟩
    · cases n with
      | zero => simp
      | succ n => simp [fromTop, List.replicate_succ]
    · by_cases hname : name = "/"
      · subst hname
        rfl
      · simp [fromTop, hname]
  refine holdsDirectory_iff.mpr ⟨hcheck, place, ?_, hdirectory⟩
  rw [LeadsTo, hfrom]
  exact (hputs.leadsTo hleads).trans (by rw [hputs.at?_self]; rfl) (hdirectory.follows_slashes n)

theorem run_ensureDirectory (names : List String) (d : Disk) :
    (ensureDirectory names).run d =
      match d.makeDirectory names with
      | .ok d' => (none, d')
      | .error e => (if d.holdsDirectory names then none else some e, d) := by
  unfold ensureDirectory
  cases hm : d.makeDirectory names with
  | ok d' => simp [hm]; rfl
  | error e =>
      by_cases hd : d.holdsDirectory names <;> simp [hm, hd] <;> rfl

end Disk

end FlowGraph
