/-! A place in a text that is read from left to right. -/
namespace FlowGraph

/-- The length of a text in UTF-8 bytes. -/
def Text.byteSize : List Char → Nat
  | [] => 0
  | c :: cs => c.utf8Size + byteSize cs

@[simp] theorem Text.byteSize_nil : Text.byteSize [] = 0 := rfl

@[simp] theorem Text.byteSize_cons (c : Char) (cs : List Char) :
    Text.byteSize (c :: cs) = c.utf8Size + Text.byteSize cs := rfl

/-- The text still to be read, with its length in bytes. -/
structure Cursor where
  rest : List Char
  left : Nat
  left_eq : left = Text.byteSize rest
deriving DecidableEq, Repr

namespace Cursor

@[ext] theorem ext {a b : Cursor} (h : a.rest = b.rest) : a = b := by
  obtain ⟨ra, la, ha⟩ := a
  obtain ⟨rb, lb, hb⟩ := b
  subst ha hb
  cases h
  rfl

/-- The place before a text. -/
def before (text : List Char) : Cursor := ⟨text, Text.byteSize text, rfl⟩

@[simp] theorem rest_before (text : List Char) : (before text).rest = text := rfl

@[simp] theorem left_before (text : List Char) : (before text).left = Text.byteSize text := rfl

@[simp] theorem before_rest (c : Cursor) : before c.rest = c := Cursor.ext rfl

/-- The next character and the place after it. -/
def next? (c : Cursor) : Option (Char × Cursor) :=
  match h : c.rest with
  | [] => none
  | x :: xs => some (x, ⟨xs, c.left - x.utf8Size, by simp [c.left_eq, h]⟩)

@[simp] theorem next?_before_nil : (before []).next? = none := rfl

@[simp] theorem next?_before_cons (x : Char) (xs : List Char) :
    (before (x :: xs)).next? = some (x, before xs) := by
  simp only [next?, before, Option.some.injEq, Prod.mk.injEq, true_and]
  exact Cursor.ext rfl

theorem left_lt_of_next? {c d : Cursor} {x : Char} (h : c.next? = some (x, d)) :
    d.left < c.left := by
  rw [← before_rest c] at h ⊢
  cases hr : c.rest with
  | nil => simp [hr] at h
  | cons y ys =>
    simp only [hr, next?_before_cons, Option.some.injEq, Prod.mk.injEq] at h
    have := Char.utf8Size_pos y
    simp [← h.2, before, this]

/-- Skips the characters that satisfy `p`. -/
def skip (c : Cursor) (p : Char → Bool) : Cursor :=
  match _h : c.next? with
  | some (x, d) => if p x then d.skip p else c
  | none => c
termination_by c.left
decreasing_by exact left_lt_of_next? _h

theorem rest_skip (c : Cursor) (p : Char → Bool) : (c.skip p).rest = c.rest.dropWhile p := by
  obtain ⟨cs, rfl⟩ : ∃ cs, c = before cs := ⟨c.rest, (before_rest c).symm⟩
  induction cs with
  | nil => rw [skip]; simp
  | cons x xs ih =>
    rw [skip]
    split
    · next y d h =>
      simp only [next?_before_cons, Option.some.injEq, Prod.mk.injEq] at h
      obtain ⟨rfl, rfl⟩ := h
      by_cases hx : p x <;> simp [hx, ih]
    · next h => simp at h

end Cursor

end FlowGraph
