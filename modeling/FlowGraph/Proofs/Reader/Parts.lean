import FlowGraph.Reader.Found
import Mathlib.Tactic.Common

/-!
What the parts of a reader find: single characters, words, blanks and repetitions.
-/
namespace FlowGraph

theorem Text.byteSize_append (cs ds : List Char) :
    Text.byteSize (cs ++ ds) = Text.byteSize cs + Text.byteSize ds := by
  induction cs with
  | nil => simp
  | cons c cs ih => simp [ih, Nat.add_assoc]

theorem Text.byteSize_lt_cons (c : Char) (cs : List Char) :
    Text.byteSize cs < Text.byteSize (c :: cs) := by
  have := Char.utf8Size_pos c
  simp only [Text.byteSize_cons]
  omega

namespace Reader

variable {α β : Type} {r s : Reader α} {text rest : List Char}

/-! ## Sequences -/

theorem found_bind_eq_some_iff {k : α → Reader β} {b : β} :
    found (r >>= k) text = some (b, rest) ↔
      ∃ a mid, r.found text = some (a, mid) ∧ (k a).found mid = some (b, rest) := by
  rw [found_bind, Option.bind_eq_some_iff]
  constructor
  · rintro ⟨⟨a, mid⟩, hr, hk⟩
    exact ⟨a, mid, hr, hk⟩
  · rintro ⟨a, mid, hr, hk⟩
    exact ⟨(a, mid), hr, hk⟩

theorem found_bind_of {k : α → Reader β} {a : α} {mid : List Char}
    (h : r.found text = some (a, mid)) : found (r >>= k) text = (k a).found mid := by
  rw [found_bind, h]
  rfl

theorem found_bind_none {k : α → Reader β} (h : r.found text = none) :
    found (r >>= k) text = none := by
  rw [found_bind, h]
  rfl

theorem found_eq_none (h : ∀ {a rest}, r.found text ≠ some (a, rest)) : r.found text = none :=
  Option.eq_none_iff_forall_ne_some.mpr fun _ => h

theorem found_pure_eq_some_iff {a b : α} :
    found (pure a) text = some (b, rest) ↔ b = a ∧ rest = text := by
  rw [found_pure, Option.some.injEq, Prod.mk.injEq, eq_comm, @eq_comm _ text]

theorem found_seqRight {t : Reader β} :
    found (r *> t) text = (r.found text).bind fun (_, d) => t.found d := by
  show found (r >>= fun _ => t) text = _
  rw [found_bind]

theorem found_seqLeft {t : Reader β} :
    found (r <* t) text =
      (r.found text).bind fun (a, d) => (t.found d).map fun (_, rest) => (a, rest) := by
  show found (r >>= fun a => t >>= fun _ => pure a) text = _
  rw [found_bind]
  congr 1
  funext ⟨a, d⟩
  simp only [found_bind]
  cases t.found d <;> rfl

/-- A whole text is read exactly if the reader finds a value and leaves nothing. -/
theorem runAll_eq_ok_iff {source : String} {a : α} :
    r.runAll source = .ok a ↔ r.found source.toList = some (a, []) := by
  rw [runAll, run_eq_ok_iff, found_seqLeft]
  cases r.found source.toList with
  | none => simp
  | some p =>
      obtain ⟨b, d⟩ := p
      cases d <;> simp

/-! ## Characters and words -/

theorem found_satisfy_eq_some_iff {p : Char → Bool} {es : List Expectation} {c : Char} :
    found (satisfy p es) text = some (c, rest) ↔ p c ∧ text = c :: rest := by
  cases text with
  | nil => simp
  | cons y ys =>
      by_cases h : p y
      · simp only [found_satisfy_cons, h, ↓reduceIte, Option.some.injEq, Prod.mk.injEq,
          List.cons.injEq]
        constructor
        · rintro ⟨rfl, rfl⟩
          exact ⟨h, rfl, rfl⟩
        · rintro ⟨-, rfl, rfl⟩
          exact ⟨rfl, rfl⟩
      · simp only [found_satisfy_cons, h, Bool.false_eq_true, ↓reduceIte, reduceCtorEq,
          List.cons.injEq, false_iff, not_and]
        rintro hc rfl
        exact absurd hc h

/-- Only the notes differ. -/
theorem found_ofClass (p : Char → Bool) (es : List Expectation) (text : List Char) :
    found (ofClass p) text = found (satisfy p es) text := by
  cases text with
  | nil => simp
  | cons y ys => simp

theorem found_ofClass_eq_some_iff {p : Char → Bool} {c : Char} :
    found (ofClass p) text = some (c, rest) ↔ p c ∧ text = c :: rest := by
  rw [found_ofClass p [], found_satisfy_eq_some_iff]

theorem found_char_eq_some_iff {x c : Char} :
    found (char x) text = some (c, rest) ↔ c = x ∧ text = x :: rest := by
  rw [char, found_satisfy_eq_some_iff, beq_iff_eq]
  constructor
  · rintro ⟨rfl, htext⟩
    exact ⟨rfl, htext⟩
  · rintro ⟨rfl, htext⟩
    exact ⟨rfl, htext⟩

theorem found_oneOf_eq_some_iff {xs : List Char} {c : Char} :
    found (oneOf xs) text = some (c, rest) ↔ c ∈ xs ∧ text = c :: rest := by
  rw [oneOf, found_satisfy_eq_some_iff, List.contains_iff_mem]

theorem found_noneOf_eq_some_iff {xs : List Char} {c : Char} :
    found (noneOf xs) text = some (c, rest) ↔ c ∉ xs ∧ text = c :: rest := by
  rw [noneOf, found_satisfy_eq_some_iff, Bool.not_eq_true', List.contains_eq_mem,
    decide_eq_false_iff_not]

theorem found_char_self (x : Char) (rest : List Char) :
    found (char x) (x :: rest) = some (x, rest) :=
  found_char_eq_some_iff.mpr ⟨rfl, rfl⟩

theorem found_char_eq_none {x : Char} (h : ∀ rest, text ≠ x :: rest) :
    found (char x) text = none :=
  found_eq_none fun hf => h _ (found_char_eq_some_iff.mp hf).2

theorem found_word_eq_some_iff {w : List Char} :
    found (word w) text = some ((), rest) ↔ text = w ++ rest := by
  induction w generalizing text with
  | nil => simp [word, eq_comm]
  | cons x xs ih =>
      rw [word, found_bind_eq_some_iff]
      constructor
      · rintro ⟨c, mid, hc, hw⟩
        rw [(found_char_eq_some_iff.mp hc).2, ih.mp hw]
        rfl
      · intro h
        exact ⟨x, xs ++ rest, found_char_eq_some_iff.mpr ⟨rfl, h⟩, ih.mpr rfl⟩

theorem found_word_eq_none {w : List Char} (h : ∀ rest, text ≠ w ++ rest) :
    found (word w) text = none :=
  found_eq_none fun hf => h _ (found_word_eq_some_iff.mp hf)

/-! ## Blanks -/

theorem found_blanks : found blanks text = some ((), text.dropWhile Text.isBlank) :=
  found_skip _ _

theorem found_padded : found (padded r) text =
    (r.found (text.dropWhile Text.isBlank)).map fun (a, d) => (a, d.dropWhile Text.isBlank) := by
  rw [padded, found_bind_of found_blanks, found_bind]
  cases r.found (text.dropWhile Text.isBlank) with
  | none => rfl
  | some p =>
      simp only [Option.bind_some, Option.map_some]
      rw [found_bind_of found_blanks, found_pure]

theorem found_padded_eq_some_iff {a : α} :
    found (padded r) text = some (a, rest) ↔ ∃ mid,
      r.found (text.dropWhile Text.isBlank) = some (a, mid) ∧
        rest = mid.dropWhile Text.isBlank := by
  rw [found_padded, Option.map_eq_some_iff]
  constructor
  · rintro ⟨⟨b, mid⟩, hr, h⟩
    simp only [Prod.mk.injEq] at h
    obtain ⟨rfl, rfl⟩ := h
    exact ⟨mid, hr, rfl⟩
  · rintro ⟨mid, hr, rfl⟩
    exact ⟨(a, mid), hr, rfl⟩

/-! ## Choices and repetitions -/

theorem found_orElse_none (h : r.found text = none) :
    found (r <|> s) text = s.found text := by
  rw [found_orElse, h, Option.none_or]

theorem found_orElse_of {a : α} (h : r.found text = some (a, rest)) :
    found (r <|> s) text = some (a, rest) := by
  rw [found_orElse, h, Option.some_or]

theorem found_optional_of {a : α} (h : r.found text = some (a, rest)) :
    found r.optional text = some (some a, rest) := by
  rw [found_optional, h]
  rfl

theorem found_optional_none (h : r.found text = none) :
    found r.optional text = some (none, text) := by
  rw [found_optional, h]
  rfl

theorem found_optional_eq_some_iff {o : Option α} :
    found r.optional text = some (o, rest) ↔
      (∃ a, o = some a ∧ r.found text = some (a, rest)) ∨
        o = none ∧ rest = text ∧ r.found text = none := by
  cases hr : r.found text with
  | none =>
      rw [found_optional_none hr]
      simp [eq_comm]
  | some p =>
      rw [found_optional_of hr]
      simp [Prod.ext_iff, eq_comm]

/-- Values found one after the other, until no more is found. -/
inductive Finds (r : Reader α) : List Char → List α → List Char → Prop where
  | stop {text : List Char} : r.found text = none → Finds r text [] text
  | more {text mid rest : List Char} {a : α} {as : List α} :
    r.found text = some (a, mid) → Finds r mid as rest → Finds r text (a :: as) rest

/-- Values found one after the other, whether or not one more could be found. -/
inductive Passes (r : Reader α) : List Char → List α → List Char → Prop where
  | nil {text : List Char} : Passes r text [] text
  | cons {text mid rest : List Char} {a : α} {as : List α} :
    r.found text = some (a, mid) → Passes r mid as rest → Passes r text (a :: as) rest

theorem passes_of_found_many {as : List α} (h : found r.many text = some (as, rest)) :
    Passes r text as rest := by
  induction as generalizing text with
  | nil =>
      rw [found_many] at h
      cases hr : r.found text with
      | none =>
          obtain rfl : text = rest := by simpa [hr] using h
          exact .nil
      | some p =>
          obtain ⟨a, mid⟩ := p
          simp only [hr] at h
          split at h
          · simp at h
          · obtain rfl : text = rest := by simpa using h
            exact .nil
  | cons a as ih =>
      rw [found_many] at h
      cases hr : r.found text with
      | none => simp [hr] at h
      | some p =>
          obtain ⟨b, mid⟩ := p
          simp only [hr] at h
          split at h
          · simp only [Option.map_eq_some_iff, Prod.mk.injEq, List.cons.injEq, Prod.exists] at h
            obtain ⟨bs, d, hm, ⟨rfl, rfl⟩, rfl⟩ := h
            exact .cons hr (ih hm)
          · simp at h

/-- A value takes up at least one character. -/
def Consumes (r : Reader α) : Prop :=
  ∀ {text rest a}, r.found text = some (a, rest) → Text.byteSize rest < Text.byteSize text

theorem found_many_eq_some_iff (hr : Consumes r) {as : List α} :
    found r.many text = some (as, rest) ↔ Finds r text as rest := by
  -- Every value takes up text, so the guard that ends a repetition in one place never acts.
  constructor
  · intro h
    induction as generalizing text with
    | nil =>
        rw [found_many] at h
        cases hf : r.found text with
        | none =>
            simp only [hf, Option.some.injEq, Prod.mk.injEq, true_and] at h
            exact h ▸ .stop hf
        | some p =>
            obtain ⟨a, mid⟩ := p
            simp only [hf, hr hf, ↓reduceIte, Option.map_eq_some_iff, Prod.mk.injEq, reduceCtorEq,
              false_and, and_false, exists_false] at h
    | cons a as ih =>
        rw [found_many] at h
        cases hf : r.found text with
        | none => simp [hf] at h
        | some p =>
            obtain ⟨b, mid⟩ := p
            simp only [hf, hr hf, ↓reduceIte, Option.map_eq_some_iff, Prod.mk.injEq,
              List.cons.injEq, Prod.exists] at h
            obtain ⟨bs, d, hm, ⟨rfl, rfl⟩, rfl⟩ := h
            exact .more hf (ih hm)
  · intro h
    induction h with
    | stop hf => rw [found_many, hf]
    | more hf _ ih =>
        rw [found_many, hf]
        simp only [hr hf, ↓reduceIte, ih, Option.map_some]

theorem consumes_ofClass (p : Char → Bool) : Consumes (ofClass p) := by
  intro text rest c h
  rw [(found_ofClass_eq_some_iff.mp h).2]
  exact Text.byteSize_lt_cons _ _

/-- A class is read as far as it goes. -/
theorem finds_ofClass_iff {p : Char → Bool} {cs : List Char} :
    Finds (ofClass p) text cs rest ↔
      text = cs ++ rest ∧ (∀ c ∈ cs, p c) ∧ ∀ c ∈ rest.head?, ¬ p c := by
  constructor
  · intro h
    induction h with
    | @stop text hf =>
        refine ⟨rfl, by simp, fun c hc => ?_⟩
        cases text with
        | nil => simp at hc
        | cons x xs =>
            obtain rfl : x = c := by simpa using hc
            simpa using hf
    | more hc _ ih =>
        obtain ⟨hp, rfl⟩ := found_ofClass_eq_some_iff.mp hc
        obtain ⟨rfl, hcs, hr⟩ := ih
        exact ⟨rfl, List.forall_mem_cons.mpr ⟨hp, hcs⟩, hr⟩
  · rintro ⟨rfl, hcs, hr⟩
    induction cs with
    | nil =>
        refine .stop ?_
        cases rest with
        | nil => simp
        | cons x xs => simpa using hr x rfl
    | cons c cs ih =>
        obtain ⟨hc, hcs⟩ := List.forall_mem_cons.mp hcs
        exact .more (found_ofClass_eq_some_iff.mpr ⟨hc, rfl⟩) (ih hcs)

theorem found_many1_ofClass_eq_some_iff {p : Char → Bool} {cs : List Char} :
    found (many1 (ofClass p)) text = some (cs, rest) ↔
      text = cs ++ rest ∧ cs ≠ [] ∧ (∀ c ∈ cs, p c) ∧ ∀ c ∈ rest.head?, ¬ p c := by
  simp only [many1, found_bind_eq_some_iff, found_pure_eq_some_iff,
    found_many_eq_some_iff (consumes_ofClass _), finds_ofClass_iff, found_ofClass_eq_some_iff]
  constructor
  · rintro ⟨c, _, ⟨hc, rfl⟩, cs, _, ⟨rfl, hcs, hr⟩, rfl, rfl⟩
    exact ⟨rfl, by simp, List.forall_mem_cons.mpr ⟨hc, hcs⟩, hr⟩
  · rintro ⟨rfl, hne, hcs, hr⟩
    obtain ⟨c, cs, rfl⟩ := List.exists_cons_of_ne_nil hne
    obtain ⟨hc, hcs⟩ := List.forall_mem_cons.mp hcs
    exact ⟨c, cs ++ rest, ⟨hc, rfl⟩, cs, rest, ⟨rfl, hcs, hr⟩, rfl, rfl⟩

/-! ## What is found comes from the parts -/

/-- The reader finds the value in some text. -/
def CanFind (r : Reader α) (a : α) : Prop := ∃ text rest, r.found text = some (a, rest)

namespace CanFind

variable {t : Reader β} {a : α} {as : List α} {b : β}

theorem or (h : CanFind (r <|> s) a) : r.CanFind a ∨ s.CanFind a := by
  obtain ⟨text, rest, h⟩ := h
  rw [found_orElse, Option.or_eq_some_iff] at h
  exact h.imp (fun h => ⟨text, rest, h⟩) fun h => ⟨text, rest, h.2⟩

theorem bind {k : α → Reader β} (h : CanFind (r >>= k) b) :
    ∃ a, r.CanFind a ∧ (k a).CanFind b := by
  obtain ⟨text, rest, h⟩ := h
  obtain ⟨a, mid, ha, hb⟩ := found_bind_eq_some_iff.mp h
  exact ⟨a, ⟨text, mid, ha⟩, ⟨mid, rest, hb⟩⟩

theorem of_pure {a' : α} (h : CanFind (pure a) a') : a' = a := by
  obtain ⟨text, rest, h⟩ := h
  exact (found_pure_eq_some_iff.mp h).1

theorem seqLeft (h : CanFind (r <* t) a) : r.CanFind a := by
  have h : CanFind (r >>= fun a => t >>= fun _ => pure a) a := h
  obtain ⟨a', ha, h⟩ := h.bind
  obtain ⟨_, -, h⟩ := h.bind
  exact h.of_pure ▸ ha

theorem seqRight (h : CanFind (r *> t) b) : t.CanFind b := by
  have h : CanFind (r >>= fun _ => t) b := h
  obtain ⟨_, -, h⟩ := h.bind
  exact h

theorem optional (h : CanFind r.optional (some a)) : r.CanFind a := by
  rcases h.or with h | h
  · obtain ⟨a', ha, h⟩ := h.bind
    exact Option.some.inj h.of_pure ▸ ha
  · exact absurd h.of_pure (by simp)

theorem many (h : CanFind r.many as) : ∀ a ∈ as, r.CanFind a := by
  obtain ⟨text, rest, h⟩ := h
  have hp := passes_of_found_many h
  clear h
  induction hp with
  | nil => simp
  | cons ha _ ih => exact List.forall_mem_cons.mpr ⟨⟨_, _, ha⟩, ih⟩

theorem separated (h : CanFind (Reader.separated r t) as) : ∀ a ∈ as, r.CanFind a := by
  obtain ⟨first, hfirst, h⟩ := h.bind
  cases first with
  | none =>
      obtain rfl := h.of_pure
      simp
  | some first =>
      obtain ⟨others, hothers, h⟩ := h.bind
      obtain ⟨_, -, h⟩ := h.bind
      obtain rfl := h.of_pure
      exact List.forall_mem_cons.mpr ⟨hfirst.optional, fun a ha => (hothers.many a ha).seqRight⟩

theorem not_fail (h : CanFind fail a) : False := by
  obtain ⟨text, rest, h⟩ := h
  simp [found, fail] at h

end CanFind

end Reader

end FlowGraph
