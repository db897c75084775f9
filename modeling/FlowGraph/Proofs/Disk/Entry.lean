import FlowGraph.Disk.Entry
import FlowGraph.Proofs.Lookup
import Mathlib.Tactic.Common

/-!
Trees of files that change at one place. What is put at a place is there, every other place keeps
what it has, and names that lead somewhere lead there still.
-/
namespace FlowGraph

namespace Disk.Entry

variable {top top' new old e : Entry} {place names rest p q : List String} {name : String}
  {entries : List (String × Entry)} {fixed : Bool} {way : List (String × Entry)}

/-! ## Places -/

/-- What is at a place. The place is given by the names on the straight way there. -/
def at? : Entry → List String → Option Entry
  | e, [] => some e
  | .directory entries _, name :: rest => (entries.lookup name).bind (at? · rest)
  | _, _ :: _ => none

@[simp] theorem at?_nil (e : Entry) : e.at? [] = some e := by
  cases e <;> rfl

@[simp] theorem at?_directory_cons (entries : List (String × Entry)) (fixed : Bool) (name : String)
    (rest : List String) : (directory entries fixed).at? (name :: rest) =
      (entries.lookup name).bind (at? · rest) := rfl

theorem at?_append (e : Entry) (p q : List String) :
    e.at? (p ++ q) = (e.at? p).bind (at? · q) := by
  induction p generalizing e with
  | nil => simp
  | cons name p ih =>
      cases e with
      | directory entries fixed => simp [ih, Option.bind_assoc]
      | file text => rfl
      | binary => rfl

theorem at?_child (h : top.at? place = some (.directory entries fixed)) (name : String) :
    top.at? (place ++ [name]) = entries.lookup name := by
  simp [at?_append, h]

/-- An entry without what is in it. -/
def shell : Entry → Entry
  | .directory _ fixed => .directory [] fixed
  | e => e

theorem at?_cons_of_shell (h : e.shell = e) (name : String) (rest : List String) :
    e.at? (name :: rest) = none := by
  cases e with
  | directory entries fixed =>
      obtain rfl : [] = entries := (Entry.directory.inj h).1
      rfl
  | file text => rfl
  | binary => rfl

/-! ## Putting an entry at a place -/

/-- On the way an entry is exchanged, or at its end one is added. -/
theorem put_cases (h : put new (name :: rest) top = some top') :
    ∃ entries fixed, top = .directory entries fixed ∧
      ((∃ old changed, entries.lookup name = some old ∧ put new rest old = some changed ∧
          top' = .directory (entries.map fun p => (p.1, if p.1 = name then changed else p.2))
            fixed) ∨
        (entries.lookup name = none ∧ rest = [] ∧ fixed = false ∧
          top' = .directory (entries ++ [(name, new)]) fixed)) := by
  cases top with
  | file text => simp [put] at h
  | binary => simp [put] at h
  | directory entries fixed =>
      refine ⟨entries, fixed, rfl, ?_⟩
      cases hl : entries.lookup name with
      | some old =>
          simp only [put, hl] at h
          obtain ⟨changed, hc, heq⟩ := Option.bind_eq_some_iff.mp h
          exact .inl ⟨old, changed, rfl, hc, (Option.some.inj heq).symm⟩
      | none =>
          simp only [put, hl] at h
          split at h
          · next hnew =>
              obtain ⟨hrest, hfixed⟩ : rest = [] ∧ fixed = false := by simpa using hnew
              exact .inr ⟨rfl, hrest, hfixed, (Option.some.inj h).symm⟩
          · exact absurd h (by simp)

theorem at?_put_self (h : put new place top = some top') : top'.at? place = some new := by
  induction place generalizing top top' with
  | nil =>
      obtain rfl := Option.some.inj h
      exact at?_nil _
  | cons name rest ih =>
      obtain ⟨entries, fixed, rfl, ⟨old, changed, hl, hc, rfl⟩ | ⟨hl, rfl, -, rfl⟩⟩ := put_cases h
      · simpa [lookup_map_replace, hl] using ih hc
      · simp [List.lookup_append, hl]

/-- An entry at another place may only gain or lose something that is in it. -/
theorem shell_at?_put (h : put new place top = some top') (hnew : new.shell = new)
    (hold : ∀ old, top.at? place = some old → old.shell = old) (hq : q ≠ place) :
    (top'.at? q).map shell = (top.at? q).map shell := by
  induction place generalizing top top' q with
  | nil =>
      obtain rfl := Option.some.inj h
      obtain ⟨name, rest, rfl⟩ := List.exists_cons_of_ne_nil hq
      rw [at?_cons_of_shell hnew, at?_cons_of_shell (hold top (at?_nil top))]
  | cons name rest ih =>
      obtain ⟨entries, fixed, rfl, ⟨old, changed, hl, hc, rfl⟩ | ⟨hl, rfl, -, rfl⟩⟩ := put_cases h
      · cases q with
        | nil => rfl
        | cons n q =>
            rw [at?_directory_cons, at?_directory_cons, lookup_map_replace]
            by_cases hn : n = name
            · subst hn
              simp only [hl, Option.map_some, if_true, Option.bind_some]
              exact ih hc (by simpa [hl] using hold) (by simpa using hq)
            · simp [hn]
      · cases q with
        | nil => rfl
        | cons n q =>
            rw [at?_directory_cons, at?_directory_cons, List.lookup_append]
            by_cases hn : n = name
            · subst hn
              obtain ⟨m, q, rfl⟩ := List.exists_cons_of_ne_nil (l := q) (by simpa using hq)
              simp [hl, at?_cons_of_shell hnew]
            · simp [List.lookup_cons, beq_false_of_ne hn]

/-- A directory that is fixed keeps its names. -/
theorem names_at?_put (h : put new place top = some top')
    (hold : ∀ old, top.at? place = some old → old.shell = old)
    (hq : top.at? q = some (.directory entries true)) (hne : q ≠ place) :
    ∃ entries', top'.at? q = some (.directory entries' true) ∧
      entries'.map (·.1) = entries.map (·.1) := by
  induction place generalizing top top' q with
  | nil =>
      obtain ⟨name, rest, rfl⟩ := List.exists_cons_of_ne_nil hne
      simp [at?_cons_of_shell (hold top (at?_nil top))] at hq
  | cons name rest ih =>
      obtain ⟨es, fixed, rfl, ⟨old, changed, hl, hc, rfl⟩ | ⟨hl, rfl, rfl, rfl⟩⟩ := put_cases h
      · cases q with
        | nil =>
            obtain ⟨rfl, rfl⟩ := Entry.directory.inj (Option.some.inj hq)
            exact ⟨_, rfl, by rw [List.map_map]; rfl⟩
        | cons n q =>
            rw [at?_directory_cons] at hq
            rw [at?_directory_cons, lookup_map_replace]
            by_cases hn : n = name
            · subst hn
              simp only [hl, Option.bind_some] at hq
              simp only [hl, Option.map_some, if_true, Option.bind_some]
              exact ih hc (by simpa [hl] using hold) hq (by simpa using hne)
            · exact ⟨entries, by simpa [hn] using hq, rfl⟩
      · cases q with
        | nil => simp at hq
        | cons n q =>
            rw [at?_directory_cons] at hq
            rw [at?_directory_cons, List.lookup_append]
            by_cases hn : n = name
            · simp [hn, hl] at hq
            · exact ⟨entries, by simpa [List.lookup_cons, beq_false_of_ne hn] using hq, rfl⟩

/-! ## Names -/

/-- An entry of that name can be reached in its directory. -/
def IsName (name : String) : Prop :=
  name ≠ "" ∧ name ≠ "." ∧ name ≠ ".." ∧ name.utf8ByteSize ≤ nameLimit

instance : DecidablePred IsName := fun _ => inferInstanceAs (Decidable (_ ∧ _))

mutual

/-- In every directory the names differ, and all entries can be reached. -/
def isSound : Entry → Bool
  | .file _ | .binary => true
  | .directory entries _ =>
    decide ((entries.map (·.1)).Nodup ∧ ∀ name ∈ entries.map (·.1), IsName name) &&
      allSound entries

def allSound : List (String × Entry) → Bool
  | [] => true
  | (_, entry) :: rest => entry.isSound && allSound rest

end

theorem allSound_iff : allSound entries ↔ ∀ x ∈ entries, x.2.isSound := by
  induction entries with
  | nil => simp [allSound]
  | cons x entries ih => simp [allSound, ih]

theorem isSound_directory_iff : (directory entries fixed).isSound ↔
    (entries.map (·.1)).Nodup ∧ (∀ name ∈ entries.map (·.1), IsName name) ∧
      ∀ x ∈ entries, x.2.isSound := by
  rw [isSound, Bool.and_eq_true, decide_eq_true_eq, allSound_iff, and_assoc]

theorem isSound_at? (htop : top.isSound) (h : top.at? place = some e) : e.isSound := by
  induction place generalizing top with
  | nil =>
      obtain rfl := Option.some.inj ((at?_nil top).symm.trans h)
      exact htop
  | cons name rest ih =>
      cases top with
      | file text => simp [at?] at h
      | binary => simp [at?] at h
      | directory entries fixed =>
          obtain ⟨old, hl, hrest⟩ := Option.bind_eq_some_iff.mp h
          exact ih ((isSound_directory_iff.mp htop).2.2 _ (mem_of_lookup hl)) hrest

theorem isSound_put (h : put new place top = some top') (hnew : new.isSound) (htop : top.isSound)
    (hplace : ∀ name ∈ place, IsName name) : top'.isSound := by
  induction place generalizing top top' with
  | nil =>
      obtain rfl := Option.some.inj h
      exact hnew
  | cons name rest ih =>
      obtain ⟨hname, hrest⟩ := List.forall_mem_cons.mp hplace
      obtain ⟨entries, fixed, rfl, ⟨old, changed, hl, hc, rfl⟩ | ⟨hl, rfl, -, rfl⟩⟩ := put_cases h
      · obtain ⟨hnodup, hnames, hentries⟩ := isSound_directory_iff.mp htop
        have hchanged := ih hc (hentries _ (mem_of_lookup hl)) hrest
        refine isSound_directory_iff.mpr ⟨?_, ?_, ?_⟩
        · rwa [List.map_map]
        · rwa [List.map_map]
        · rintro x hx
          obtain ⟨y, hy, rfl⟩ := List.mem_map.mp hx
          by_cases hyname : y.1 = name
          · simpa [hyname] using hchanged
          · simpa [hyname] using hentries y hy
      · obtain ⟨hnodup, hnames, hentries⟩ := isSound_directory_iff.mp htop
        refine isSound_directory_iff.mpr ⟨?_, ?_, ?_⟩
        · rw [List.map_append]
          exact List.nodup_append_comm.mp (List.nodup_cons.mpr ⟨not_mem_of_lookup hl, hnodup⟩)
        · rw [List.map_append]
          exact List.forall_mem_append.mpr ⟨hnames, by simpa using hname⟩
        · exact List.forall_mem_append.mpr ⟨hentries, by simpa using hnew⟩

/-! ## Following names -/

/-- At the place there is a directory. -/
def HasDirectory (top : Entry) (place : List String) : Prop :=
  ∃ entries fixed, top.at? place = some (.directory entries fixed)

/-- Where names lead from a place. Only the last one may be new. -/
inductive Follows (top : Entry) : List String → List String → List String → Prop where
  | here (place : List String) : Follows top place [] place
  | stay {place rest q : List String} {name : String} : top.HasDirectory place →
    name = "" ∨ name = "." → Follows top place rest q → Follows top place (name :: rest) q
  | up {place rest q : List String} : top.HasDirectory place →
    Follows top place.dropLast rest q → Follows top place (".." :: rest) q
  | down {place rest q : List String} {name : String} : IsName name →
    (top.at? (place ++ [name])).isSome → Follows top (place ++ [name]) rest q →
    Follows top place (name :: rest) q
  | new {place : List String} {name : String} : top.HasDirectory place → IsName name →
    top.at? (place ++ [name]) = none → Follows top place [name] (place ++ [name])

/-- The place at the end of a way. -/
def placeOf (way : List (String × Entry)) : List String := (way.map (·.1)).reverse

/-- Every step of the way leads to what is in the tree. -/
def IsWay (top : Entry) : List (String × Entry) → Prop
  | [] => True
  | (name, e) :: way => top.at? (placeOf way ++ [name]) = some e ∧ IsWay top way

theorem placeOf_cons (x : String × Entry) (way : List (String × Entry)) :
    placeOf (x :: way) = placeOf way ++ [x.1] := by
  simp [placeOf]

theorem placeOf_tail (way : List (String × Entry)) :
    placeOf way.tail = (placeOf way).dropLast := by
  simp [placeOf, List.map_tail]

theorem IsWay.at?_placeOf (h : IsWay top way) : top.at? (placeOf way) = some (last top way) := by
  cases way with
  | nil => exact at?_nil top
  | cons x way =>
      rw [placeOf_cons]
      exact h.1

theorem IsWay.tail (h : IsWay top way) : IsWay top way.tail := by
  cases way with
  | nil => exact h
  | cons x way => exact h.2

theorem Follows.hasDirectory (h : Follows top place (name :: rest) q) :
    top.HasDirectory place := by
  cases h with
  | stay hd _ _ => exact hd
  | up hd _ => exact hd
  | new hd _ _ => exact hd
  | down _ hsome _ =>
      rw [at?_append] at hsome
      cases he : top.at? place with
      | none => simp [he] at hsome
      | some e =>
          cases e with
          | directory entries fixed => exact ⟨entries, fixed, he⟩
          | file text => simp [he, at?] at hsome
          | binary => simp [he, at?] at hsome

theorem follows_stay_iff (hd : top.HasDirectory place) (h : name = "" ∨ name = ".") :
    Follows top place (name :: rest) q ↔ Follows top place rest q := by
  refine ⟨fun hf => ?_, .stay hd h⟩
  cases hf with
  | stay _ _ hrest => exact hrest
  | up _ _ => simp at h
  | down hname _ _ => exact absurd h (by simp [hname.1, hname.2.1])
  | new _ hname _ => exact absurd h (by simp [hname.1, hname.2.1])

theorem follows_up_iff (hd : top.HasDirectory place) :
    Follows top place (".." :: rest) q ↔ Follows top place.dropLast rest q := by
  refine ⟨fun hf => ?_, .up hd⟩
  cases hf with
  | stay _ h _ => simp at h
  | up _ hrest => exact hrest
  | down hname _ _ => exact absurd rfl hname.2.2.1
  | new _ hname _ => exact absurd rfl hname.2.2.1

theorem follows_down_iff (hname : IsName name) (h : top.at? (place ++ [name]) = some e) :
    Follows top place (name :: rest) q ↔ Follows top (place ++ [name]) rest q := by
  refine ⟨fun hf => ?_, .down hname (by rw [h]; rfl)⟩
  cases hf with
  | stay _ hstay _ => exact absurd hstay (by simp [hname.1, hname.2.1])
  | up _ _ => exact absurd rfl hname.2.2.1
  | down _ _ hrest => exact hrest
  | new _ _ hnone => simp [h] at hnone

theorem follows_new_iff (hd : top.HasDirectory place) (hname : IsName name)
    (h : top.at? (place ++ [name]) = none) :
    Follows top place (name :: rest) q ↔ rest = [] ∧ q = place ++ [name] := by
  constructor
  · intro hf
    cases hf with
    | stay _ hstay _ => exact absurd hstay (by simp [hname.1, hname.2.1])
    | up _ _ => exact absurd rfl hname.2.2.1
    | down _ hsome _ => simp [h] at hsome
    | new _ _ _ => exact ⟨rfl, rfl⟩
  · rintro ⟨rfl, rfl⟩
    exact .new hd hname h

theorem not_follows (hstay : ¬ (name = "" ∨ name = ".")) (hup : name ≠ "..")
    (hname : ¬ IsName name) : ¬ Follows top place (name :: rest) q := by
  intro hf
  cases hf with
  | stay _ h _ => exact hstay h
  | up _ _ => exact hup rfl
  | down h _ _ => exact hname h
  | new _ h _ => exact hname h

theorem isName_of_follow (hstay : ¬ (decide (name = "") || decide (name = ".")) = true)
    (hup : name ≠ "..") (hlong : ¬ nameLimit < name.utf8ByteSize) : IsName name := by
  simp only [Bool.or_eq_true, decide_eq_true_eq, not_or] at hstay
  exact ⟨hstay.1, hstay.2, hup, Nat.not_lt.mp hlong⟩

/-- Names are followed as it is said above, and what is found is what is at the place. -/
theorem follow_eq_ok_iff {found : Option Entry} (hw : IsWay top way) :
    follow top way names = .ok ⟨q, found⟩ ↔
      Follows top (placeOf way) names q ∧ found = top.at? q := by
  have hplace := hw.at?_placeOf
  -- A name leads nowhere below a file, or stays, or goes up, down or to something new.
  fun_induction follow top way names with
  | case1 way =>
      constructor
      · intro h
        obtain ⟨rfl, rfl⟩ := Spot.mk.inj (Except.ok.inj h)
        exact ⟨.here _, hplace.symm⟩
      · rintro ⟨hf, rfl⟩
        cases hf
        rw [hplace]
        rfl
  | case2 way name rest text hlast =>
      refine iff_of_false (by simp) fun ⟨hf, _⟩ => ?_
      obtain ⟨entries, fixed, hd⟩ := hf.hasDirectory
      simp [hplace, hlast] at hd
  | case3 way name rest hlast =>
      refine iff_of_false (by simp) fun ⟨hf, _⟩ => ?_
      obtain ⟨entries, fixed, hd⟩ := hf.hasDirectory
      simp [hplace, hlast] at hd
  | case4 way name rest entries fixed hlast hstay ih =>
      have hd : top.HasDirectory (placeOf way) := ⟨entries, fixed, by rw [hplace, hlast]⟩
      refine (ih hw hplace).trans ?_
      rw [follows_stay_iff hd (by simpa using hstay)]
  | case5 way rest entries fixed hlast hstay ih =>
      have hd : top.HasDirectory (placeOf way) := ⟨entries, fixed, by rw [hplace, hlast]⟩
      refine (ih hw.tail hw.tail.at?_placeOf).trans ?_
      rw [placeOf_tail, follows_up_iff hd]
  | case6 way name rest entries fixed hlast hstay hup hlong =>
      refine iff_of_false (by simp) fun ⟨hf, _⟩ => ?_
      exact not_follows (by simpa using hstay) hup (fun h => Nat.not_le.mpr hlong h.2.2.2) hf
  | case7 way name rest entries fixed hlast hstay hup hlong entry hl ih =>
      have hname := isName_of_follow hstay hup hlong
      have hat : top.at? (placeOf way ++ [name]) = some entry :=
        (at?_child (by rw [hplace, hlast]) name).trans hl
      have hway : IsWay top ((name, entry) :: way) := ⟨hat, hw⟩
      refine (ih hway hway.at?_placeOf).trans ?_
      rw [placeOf_cons, follows_down_iff hname hat]
  | case8 way name rest entries fixed hlast hstay hup hlong hl hrest =>
      have hd : top.HasDirectory (placeOf way) := ⟨entries, fixed, by rw [hplace, hlast]⟩
      have hat : top.at? (placeOf way ++ [name]) = none :=
        (at?_child (by rw [hplace, hlast]) name).trans hl
      rw [follows_new_iff hd (isName_of_follow hstay hup hlong) hat]
      constructor
      · intro h
        obtain ⟨rfl, rfl⟩ := Spot.mk.inj (Except.ok.inj h)
        exact ⟨⟨by simpa using hrest, rfl⟩, hat.symm⟩
      · rintro ⟨⟨-, rfl⟩, rfl⟩
        rw [hat]
        rfl
  | case9 way name rest entries fixed hlast hstay hup hlong hl hrest =>
      have hd : top.HasDirectory (placeOf way) := ⟨entries, fixed, by rw [hplace, hlast]⟩
      have hat : top.at? (placeOf way ++ [name]) = none :=
        (at?_child (by rw [hplace, hlast]) name).trans hl
      rw [follows_new_iff hd (isName_of_follow hstay hup hlong) hat]
      exact iff_of_false (by simp) fun ⟨⟨hnil, _⟩, _⟩ => hrest (by simp [hnil])

/-- Names can be followed further from where something is. -/
theorem Follows.trans (h : Follows top p names q) (hq : (top.at? q).isSome)
    (hmore : Follows top q rest place) : Follows top p (names ++ rest) place := by
  induction h with
  | here p => exact hmore
  | stay hd hstay _ ih => exact .stay hd hstay (ih hq hmore)
  | up hd _ ih => exact .up hd (ih hq hmore)
  | down hname hsome _ ih => exact .down hname hsome (ih hq hmore)
  | new _ _ hnone => simp [hnone] at hq

/-- Slashes behind a directory lead nowhere else. -/
theorem HasDirectory.follows_slashes (h : top.HasDirectory place) (n : Nat) :
    Follows top place (List.replicate n "") place := by
  induction n with
  | zero => exact .here place
  | succ n ih => exact .stay h (.inl rfl) ih

/-! ## What stays -/

/-- What was led to has names that can be reached. -/
theorem Follows.isName (h : Follows top place names q) (hplace : ∀ name ∈ place, IsName name) :
    ∀ name ∈ q, IsName name := by
  induction h with
  | here place => exact hplace
  | stay _ _ _ ih => exact ih hplace
  | up _ _ ih => exact ih fun name h => hplace name (List.dropLast_subset _ h)
  | down hname _ _ ih => exact ih (List.forall_mem_append.mpr ⟨hplace, by simpa using hname⟩)
  | new _ hname _ => exact List.forall_mem_append.mpr ⟨hplace, by simpa using hname⟩

theorem HasDirectory.put (h : top.HasDirectory q) (hput : put new place top = some top')
    (hnew : new.shell = new)
    (hold : ∀ old, top.at? place = some old → old.shell = old ∧ ¬ old.isDirectory) :
    top'.HasDirectory q := by
  obtain ⟨entries, fixed, hq⟩ := h
  have hne : q ≠ place := by
    rintro rfl
    exact absurd rfl (hold _ hq).2
  have hshell := shell_at?_put hput hnew (fun old ho => (hold old ho).1) hne
  rw [hq, Option.map_some, Option.map_eq_some_iff] at hshell
  obtain ⟨e, he, hs⟩ := hshell
  cases e with
  | directory entries' fixed' => exact ⟨entries', fixed', he⟩
  | file text => simp [shell] at hs
  | binary => simp [shell] at hs

/-- Names lead where they led, whatever is put where there is no directory. -/
theorem Follows.put (h : Follows top p names q) (hput : put new place top = some top')
    (hnew : new.shell = new)
    (hold : ∀ old, top.at? place = some old → old.shell = old ∧ ¬ old.isDirectory) :
    Follows top' p names q := by
  have hself := at?_put_self hput
  have hsome : ∀ {r}, r ≠ place → (top'.at? r).isSome = (top.at? r).isSome := by
    intro r hne
    simpa using congrArg Option.isSome
      (shell_at?_put hput hnew (fun old ho => (hold old ho).1) hne)
  induction h with
  | here place => exact .here place
  | stay hd hstay _ ih => exact .stay (hd.put hput hnew hold) hstay ih
  | up hd _ ih => exact .up (hd.put hput hnew hold) ih
  | @down p rest q name hname hat _ ih =>
      refine .down hname ?_ ih
      by_cases hne : p ++ [name] = place
      · rw [hne, hself]
        rfl
      · rwa [hsome hne]
  | @new p name hd hname hat =>
      -- What is put may be just what was missing here.
      by_cases hne : p ++ [name] = place
      · exact .down hname (by rw [hne, hself]; rfl) (.here _)
      · refine .new (hd.put hput hnew hold) hname ?_
        have := hsome hne
        rwa [hat, Option.isSome_none, Option.isSome_eq_false_iff, Option.isNone_iff_eq_none] at this

/-! ## Listing -/

mutual

/-- The texts are those of the files at their places. -/
theorem mem_texts_iff {text : String} : (e : Entry) → e.isSound → ∀ place : List String,
    (q, text) ∈ e.texts place ↔ ∃ rest, q = place ++ rest ∧ e.at? rest = some (.file text)
  | .file text', _, place => by
      rw [texts, List.mem_singleton]
      constructor
      · rintro ⟨rfl, rfl⟩
        exact ⟨[], (List.append_nil _).symm, rfl⟩
      · rintro ⟨rest, rfl, hat⟩
        cases rest with
        | nil => simpa using hat.symm
        | cons name rest => simp [at?] at hat
  | .binary, _, place => by
      rw [texts]
      refine iff_of_false List.not_mem_nil ?_
      rintro ⟨rest, -, hat⟩
      cases rest <;> simp [at?] at hat
  | .directory entries fixed, h, place => by
      obtain ⟨hnodup, -, hentries⟩ := isSound_directory_iff.mp h
      rw [texts, mem_textsIn_iff entries hentries]
      constructor
      · rintro ⟨x, hx, rest, rfl, hat⟩
        refine ⟨x.1 :: rest, rfl, ?_⟩
        rw [at?_directory_cons, lookup_of_mem hnodup hx, Option.bind_some, hat]
      · rintro ⟨rest, rfl, hat⟩
        cases rest with
        | nil => simp at hat
        | cons name rest =>
            rw [at?_directory_cons] at hat
            obtain ⟨old, hl, hat⟩ := Option.bind_eq_some_iff.mp hat
            exact ⟨(name, old), mem_of_lookup hl, rest, rfl, hat⟩

theorem mem_textsIn_iff {text : String} : (entries : List (String × Entry)) →
    (∀ x ∈ entries, x.2.isSound) → ∀ {place : List String},
      (q, text) ∈ textsIn place entries ↔
        ∃ x ∈ entries, ∃ rest, q = place ++ x.1 :: rest ∧ x.2.at? rest = some (.file text)
  | [], _, place => by simp [textsIn]
  | (name, entry) :: entries, h, place => by
      obtain ⟨hentry, hrest⟩ := List.forall_mem_cons.mp h
      rw [textsIn, List.mem_append, mem_texts_iff entry hentry, mem_textsIn_iff entries hrest]
      simp

end

end Disk.Entry

end FlowGraph
