import FlowGraph.Reader.Basic

/-!
What a reader finds in a text and what it leaves of it, whatever the notes. Notes never change
what is found.
-/
namespace FlowGraph.Reader

variable {α β : Type}

/-- The value found at the beginning of a text, and the rest of the text. -/
def found (r : Reader α) (text : List Char) : Option (α × List Char) :=
  (r (.before text)).result.map fun (a, c) => (a, c.rest)

@[simp] theorem found_pure (a : α) (text : List Char) :
    found (pure a) text = some (a, text) := rfl

theorem found_bind (r : Reader α) (k : α → Reader β) (text : List Char) :
    found (r >>= k) text = (r.found text).bind fun (a, rest) => (k a).found rest := by
  simp only [found, bind]
  cases h : r (.before text) with
  | mk result notes =>
    cases result with
    | none => simp
    | some p => obtain ⟨a, c⟩ := p; simp

@[simp] theorem found_satisfy_nil (p : Char → Bool) (es : List Expectation) :
    found (satisfy p es) [] = none := by
  simp [found, satisfy, reject]

@[simp] theorem found_satisfy_cons (p : Char → Bool) (es : List Expectation) (c : Char)
    (cs : List Char) : found (satisfy p es) (c :: cs) = if p c then some (c, cs) else none := by
  by_cases h : p c <;> simp [found, satisfy, reject, h]

@[simp] theorem found_ofClass_nil (p : Char → Bool) : found (ofClass p) [] = none := by
  simp [found, ofClass, reject]

@[simp] theorem found_ofClass_cons (p : Char → Bool) (c : Char) (cs : List Char) :
    found (ofClass p) (c :: cs) = if p c then some (c, cs) else none := by
  by_cases h : p c <;> simp [found, ofClass, reject, h]

@[simp] theorem found_endOfInput (text : List Char) :
    found endOfInput text = if text = [] then some ((), []) else none := by
  cases text <;> simp [found, endOfInput, reject]

theorem found_orElse (r s : Reader α) (text : List Char) :
    found (r <|> s) text = (r.found text).or (s.found text) := by
  show found (r.orElse s) text = _
  simp only [found, orElse]
  cases h : r (.before text) with
  | mk result notes => cases result <;> simp

theorem found_optional (r : Reader α) (text : List Char) :
    found r.optional text =
      some (((r.found text).map fun (a, rest) => (some a, rest)).getD (none, text)) := by
  rw [optional, found_orElse, found_bind]
  cases r.found text <;> simp

@[simp] theorem found_skip (p : Char → Bool) (text : List Char) :
    found (skip p) text = some ((), text.dropWhile p) := by
  simp [found, skip, Cursor.rest_skip]

theorem found_many (r : Reader α) (text : List Char) :
    found r.many text =
      match r.found text with
      | none => some ([], text)
      | some (a, rest) =>
        if Text.byteSize rest < Text.byteSize text then
          (found r.many rest).map fun (as, rest') => (a :: as, rest')
        else some ([], text) := by
  rw [found, many]
  simp only [found]
  cases h : r (.before text) with
  | mk result notes =>
    cases result with
    | none => simp
    | some p =>
      obtain ⟨a, c⟩ := p
      simp only [Option.map_some, Cursor.before_rest, ← c.left_eq, Cursor.left_before]
      by_cases hlt : c.left < Text.byteSize text <;> simp [hlt, Function.comp_def]

@[simp] theorem found_labelled (name : String) (r : Reader α) (text : List Char) :
    found (labelled name r) text = r.found text := by
  simp only [found, labelled]
  split <;> rfl

/-- A text is read to the end exactly if the reader finds a value in it. -/
theorem run_eq_ok_iff (r : Reader α) (source : String) (a : α) :
    r.run source = .ok a ↔ ∃ rest, r.found source.toList = some (a, rest) := by
  simp only [run, found]
  cases h : r (.before source.toList) with
  | mk result notes =>
    cases result with
    | none => simp
    | some p => obtain ⟨b, c⟩ := p; simp

end FlowGraph.Reader
