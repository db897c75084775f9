import FlowGraph.Proofs.Reader.Parts
import Mathlib

/-!
Where readers complain. The one complaint that is reported stands at a place where some part of the
reader has complained, and each part complains at a place that those before it have led to.
-/
namespace FlowGraph

/-! ## Sizes -/

theorem Text.utf8ByteSize_eq (s : String) : s.utf8ByteSize = Text.byteSize s.toList := by
  have hlen : ∀ cs : List Char, String.utf8Len cs = Text.byteSize cs := by
    intro cs
    induction cs with
    | nil => rfl
    | cons c cs ih => rw [String.utf8Len_cons, Text.byteSize_cons, ih, Nat.add_comm]
  rw [← hlen, ← String.utf8ByteSize_ofList, String.ofList_toList]

/-! ## Settling -/

namespace Note

theorem place_settleOne (pending : Option Complaint) (n : Note) :
    ∃ c, settleOne pending n = some c ∧
      (c.place = n.complaint.place ∨ ∃ old ∈ pending, c.place = old.place) := by
  cases pending with
  | none => exact ⟨_, rfl, .inl rfl⟩
  | some old =>
      simp only [settleOne]
      split
      · exact ⟨_, rfl, .inl rfl⟩
      · split
        · exact ⟨_, rfl, .inr ⟨old, rfl, rfl⟩⟩
        · exact ⟨_, rfl, .inr ⟨old, rfl, rfl⟩⟩

/-- The complaint that notes amount to is at the place of one of them. -/
theorem place_settle {notes : List Note} {c : Complaint} (h : settle notes = some c) :
    ∃ n ∈ notes, n.complaint.place = c.place := by
  have hfold : ∀ {pending}, notes.foldl settleOne pending = some c →
      (∃ old ∈ pending, c.place = old.place) ∨ ∃ n ∈ notes, n.complaint.place = c.place := by
    clear h
    induction notes with
    | nil => exact fun h => .inl ⟨c, h, rfl⟩
    | cons n notes ih =>
        intro pending h
        obtain ⟨d, hd, hplace⟩ := place_settleOne pending n
        rw [List.foldl_cons, hd] at h
        rcases ih h with ⟨old, hold, heq⟩ | ⟨n', hn', heq⟩
        · obtain rfl := Option.some.inj (Option.mem_def.mp hold)
          rcases hplace with hplace | ⟨old', hold', hplace⟩
          · exact .inr ⟨n, List.mem_cons_self, (heq.trans hplace).symm⟩
          · exact .inl ⟨old', hold', heq.trans hplace⟩
        · exact .inr ⟨n', List.mem_cons_of_mem n hn', heq⟩
  rcases hfold h with ⟨old, hold, -⟩ | hn
  · simp at hold
  · exact hn

end Note

namespace Reader

variable {α β : Type} {r s : Reader α} {k : α → Reader β} {text rest q : List Char}

/-- In reading `text`, a part has complained about what it found in the place of `q`. -/
def Complains (r : Reader α) (text q : List Char) : Prop :=
  ∃ n ∈ (r (.before text)).notes, n.complaint.place.rest = q

namespace Complains

/-! ## Single parts -/

theorem not_pure {a : α} : ¬ Complains (pure a) text q := by
  rintro ⟨n, hn, -⟩
  exact absurd hn (List.not_mem_nil)

theorem not_skip {p : Char → Bool} : ¬ Complains (skip p) text q := by
  rintro ⟨n, hn, -⟩
  exact absurd hn (List.not_mem_nil)

theorem satisfy {p : Char → Bool} {es : List Expectation}
    (h : Complains (satisfy p es) text q) : q = text := by
  obtain ⟨n, hn, rfl⟩ := h
  cases text with
  | nil =>
      obtain rfl : n = .add ⟨.before [], es⟩ := by simpa [Reader.satisfy, reject] using hn
      rfl
  | cons c cs =>
      by_cases hc : p c
      · simp [Reader.satisfy, hc] at hn
      · obtain rfl : n = .add ⟨.before (c :: cs), es⟩ := by
          simpa [Reader.satisfy, reject, hc] using hn
        rfl

theorem ofClass {p : Char → Bool} (h : Complains (ofClass p) text q) : q = text := by
  obtain ⟨n, hn, rfl⟩ := h
  cases text with
  | nil =>
      obtain rfl : n = .add ⟨.before [], [.anyChar]⟩ := by simpa [Reader.ofClass, reject] using hn
      rfl
  | cons c cs =>
      by_cases hc : p c
      · simp [Reader.ofClass, hc] at hn
      · obtain rfl : n = .merge ⟨.before (c :: cs), [.otherChar]⟩ := by
          simpa [Reader.ofClass, reject, hc] using hn
        rfl

theorem endOfInput (h : Complains endOfInput text q) : q = text := by
  obtain ⟨n, hn, rfl⟩ := h
  cases text with
  | nil => simp [Reader.endOfInput] at hn
  | cons c cs =>
      obtain rfl : n = .add ⟨.before (c :: cs), [.endOfInput]⟩ := by
        simpa [Reader.endOfInput, reject] using hn
      rfl

/-! ## Sequences, choices and repetitions -/

theorem bind (h : Complains (r >>= k) text q) :
    Complains r text q ∨ ∃ a mid, r.found text = some (a, mid) ∧ Complains (k a) mid q := by
  obtain ⟨n, hn, hq⟩ := h
  simp only [Bind.bind] at hn
  cases hr : r (.before text) with
  | mk result notes =>
      cases result with
      | none =>
          rw [hr] at hn
          exact .inl ⟨n, by rwa [hr], hq⟩
      | some p =>
          obtain ⟨a, d⟩ := p
          rw [hr] at hn
          rcases List.mem_append.mp hn with hn | hn
          · exact .inl ⟨n, by rwa [hr], hq⟩
          · refine .inr ⟨a, d.rest, by rw [found, hr]; rfl, n, ?_, hq⟩
            rwa [Cursor.before_rest]

theorem orElse (h : Complains (r <|> s) text q) : Complains r text q ∨ Complains s text q := by
  obtain ⟨n, hn, hq⟩ := h
  have hn : n ∈ (r.orElse s (.before text)).notes := hn
  simp only [Reader.orElse] at hn
  cases hr : r (.before text) with
  | mk result notes =>
      cases result with
      | some p =>
          rw [hr] at hn
          exact .inl ⟨n, by rwa [hr], hq⟩
      | none =>
          rw [hr] at hn
          rcases List.mem_append.mp hn with hn | hn
          · exact .inl ⟨n, by rwa [hr], hq⟩
          · exact .inr ⟨n, hn, hq⟩

theorem optional (h : Complains r.optional text q) : Complains r text q := by
  rcases Complains.orElse h with h | h
  · rcases Complains.bind h with h | ⟨_, _, -, h⟩
    · exact h
    · exact absurd h not_pure
  · exact absurd h not_pure

theorem labelled {name : String} (h : Complains (labelled name r) text q) :
    Complains r text q := by
  obtain ⟨n, hn, hq⟩ := h
  simp only [Reader.labelled] at hn
  cases hsettle : Note.settle (r (.before text)).notes with
  | none =>
      rw [hsettle] at hn
      exact ⟨n, hn, hq⟩
  | some inner =>
      rw [hsettle] at hn
      obtain rfl := List.mem_singleton.mp hn
      obtain ⟨n', hn', hplace⟩ := Note.place_settle hsettle
      exact ⟨n', hn', by rw [hplace]; exact hq⟩

theorem padded (h : Complains (padded r) text q) :
    Complains r (text.dropWhile Text.isBlank) q := by
  rcases h.bind with h | ⟨_, mid, hblanks, h⟩
  · exact absurd h not_skip
  · rw [found_blanks] at hblanks
    obtain ⟨-, rfl⟩ := Prod.mk.inj (Option.some.inj hblanks)
    rcases h.bind with h | ⟨_, _, -, h⟩
    · exact h
    · rcases h.bind with h | ⟨_, _, -, h⟩
      · exact absurd h not_skip
      · exact absurd h not_pure

end Complains

/-- A repetition complains where it has come to. -/
theorem Complains.many (h : Complains r.many text q) :
    ∃ as mid, Passes r text as mid ∧ Complains r mid q := by
  induction hsize : Text.byteSize text using Nat.strongRecOn generalizing text with
  | ind size ih =>
      obtain ⟨n, hn, hq⟩ := h
      rw [Reader.many] at hn
      cases hr : r (.before text) with
      | mk result notes =>
          cases result with
          | none =>
              rw [hr] at hn
              exact ⟨[], text, .nil, n, by rwa [hr], hq⟩
          | some p =>
              obtain ⟨a, d⟩ := p
              have hfound : r.found text = some (a, d.rest) := by
                rw [found, hr]
                rfl
              rw [hr] at hn
              simp only at hn
              split at hn
              · next hlt =>
                rcases List.mem_append.mp hn with hn | hn
                · exact ⟨[], text, .nil, n, by rwa [hr], hq⟩
                · have hrest : Complains r.many d.rest q := ⟨n, by rwa [Cursor.before_rest], hq⟩
                  have hsmaller : Text.byteSize d.rest < size := by
                    rw [← hsize, ← d.left_eq]
                    exact hlt
                  obtain ⟨as, mid, hpasses, hmid⟩ := ih _ hsmaller hrest rfl
                  exact ⟨a :: as, mid, .cons hfound hpasses, hmid⟩
              · exact ⟨[], text, .nil, n, by rwa [hr], hq⟩

/-! ## Errors -/

/-- An error covers the character at its place, if there is one. -/
theorem run_eq_error {source : String} {e : SyntaxError} (h : r.run source = .error e) :
    e.file = none ∧ ∃ q, (q = source.toList ∨ Complains r source.toList q) ∧
      e.start = Text.byteSize source.toList - Text.byteSize q ∧
      e.stop = Text.byteSize source.toList - Text.byteSize q.tail := by
  have herror : ∀ c : Complaint, (c.toError (Text.byteSize source.toList)).file = none ∧
      (c.toError (Text.byteSize source.toList)).start =
        Text.byteSize source.toList - Text.byteSize c.place.rest ∧
      (c.toError (Text.byteSize source.toList)).stop =
        Text.byteSize source.toList - Text.byteSize c.place.rest.tail := by
    rintro ⟨place, expected⟩
    obtain ⟨rest, rfl⟩ : ∃ rest, place = .before rest := ⟨place.rest, by simp⟩
    cases rest with
    | nil => exact ⟨rfl, rfl, rfl⟩
    | cons c cs => exact ⟨rfl, rfl, by simp [Complaint.toError]⟩
  simp only [run] at h
  cases hr : r (.before source.toList) with
  | mk result notes =>
      cases result with
      | some p => simp [hr] at h
      | none =>
          simp only [hr, Except.error.injEq, Cursor.left_before] at h
          subst h
          cases hsettle : Note.settle notes with
          | none =>
              obtain ⟨hfile, hplace⟩ := herror ⟨.before source.toList, []⟩
              exact ⟨hfile, source.toList, .inl rfl, hplace⟩
          | some c =>
              obtain ⟨n, hn, hplace⟩ := Note.place_settle hsettle
              obtain ⟨hfile, hplaces⟩ := herror c
              exact ⟨hfile, c.place.rest, .inr ⟨n, by rwa [hr], by rw [hplace]⟩, hplaces⟩

end Reader

end FlowGraph
