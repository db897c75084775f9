import FlowGraph.Proofs.Dot.Written

/-!
Quoting and reading undo each other. Every character is escaped on its own, and there is one way to
quote a text that breaks no line.
-/
namespace FlowGraph.Text

open Reader FlowGraph.Dot FlowGraph.Dot.Derivation

variable {c e : Char} {cs w m pre post rest : List Char} {s t : String}

/-! ## Escapes as replacements -/

/-- The text with `w` in the place of every `c`. -/
def replace (c : Char) (w s : String) : String :=
  String.ofList (s.toList.flatMap fun d => if d = c then w.toList else [d])

theorem toList_replace (c : Char) (w s : String) :
    (replace c w s).toList = s.toList.flatMap fun d => if d = c then w.toList else [d] := by
  simp [replace]

/-- Backslashes come first, so the backslash of an escape is not escaped again. -/
theorem escape_eq_replace (s : String) :
    escape s =
      replace '\r' "\\r" (replace '\n' "\\n" (replace '"' "\\\"" (replace '\\' "\\\\" s))) := by
  rw [← String.toList_inj, toList_escape]
  simp only [toList_replace, List.flatMap_assoc, escapeList]
  congr 1
  funext c
  by_cases hslash : c = '\\'
  · subst hslash; rfl
  by_cases hquote : c = '"'
  · subst hquote; rfl
  by_cases hfeed : c = '\n'
  · subst hfeed; rfl
  by_cases hreturn : c = '\r'
  · subst hreturn; rfl
  simp [escapeChar, hslash, hquote, hfeed, hreturn]

/-! ## What does not stand in an escaped text -/

theorem not_mem_escapeList (h : c = '\n' ∨ c = '\r') (cs : List Char) : c ∉ escapeList cs := by
  intro hc
  obtain ⟨d, -, hd⟩ := List.mem_flatMap.mp hc
  unfold escapeChar at hd
  split at hd
  · rcases h with rfl | rfl <;> simp at hd
  · rcases h with rfl | rfl <;> simp at hd
  · rcases h with rfl | rfl <;> simp at hd
  · rcases h with rfl | rfl <;> simp at hd
  · next hfeed hreturn =>
      obtain rfl := List.mem_singleton.mp hd
      exact h.elim hfeed hreturn

/-- How many backslashes stand at the end. -/
def slashes (cs : List Char) : Nat := (cs.rtakeWhile (· = '\\')).length

theorem slashes_le (cs : List Char) : slashes cs ≤ cs.length :=
  (List.rtakeWhile_suffix _ cs).length_le

theorem slashes_cons (c : Char) (cs : List Char) : slashes (c :: cs) =
    if slashes cs = cs.length ∧ c = '\\' then slashes cs + 1 else slashes cs := by
  simp only [slashes, List.rtakeWhile, List.reverse_cons, List.length_reverse, List.takeWhile_append]
  by_cases hall : (cs.reverse.takeWhile (· = '\\')).length = cs.length <;>
    by_cases hc : c = '\\' <;> simp [hall, hc]

/-- An escape puts no backslash or two before what comes behind it. -/
theorem odd_slashes_cons_cons (h : Odd (slashes pre)) : Odd (slashes ('\\' :: e :: pre)) := by
  have hle := slashes_le pre
  have hstep := slashes_cons e pre
  simp only [slashes_cons '\\', List.length_cons, and_true]
  rw [Nat.odd_iff] at h ⊢
  split at hstep <;> split <;> omega

/-- A quote in an escaped text is escaped: the backslashes before it come in pairs but for one. -/
theorem odd_slashes (h : escapeList cs = pre ++ '"' :: post) : Odd (slashes pre) := by
  induction cs generalizing pre with
  | nil => simp at h
  | cons c cs ih =>
      rw [escapeList_cons] at h
      rcases escapeChar_cases c with ⟨e, he, -⟩ | ⟨hc, hquote, hslash⟩
      · rw [he] at h
        match pre with
        | [] => simp at h
        | [a] =>
            obtain ⟨rfl, -⟩ : '\\' = a ∧ _ := List.cons.inj h
            decide
        | a :: b :: pre =>
            obtain ⟨rfl, rfl, hrest⟩ : '\\' = a ∧ e = b ∧ escapeList cs = pre ++ '"' :: post := by
              simpa using h
            exact odd_slashes_cons_cons (ih hrest)
      · rw [hc] at h
        cases pre with
        | nil => exact absurd (List.cons.inj h).1 hquote
        | cons a pre =>
            obtain ⟨rfl, hrest⟩ : c = a ∧ escapeList cs = pre ++ '"' :: post := by simpa using h
            rw [slashes_cons, if_neg fun hand => hslash hand.2]
            exact ih hrest

/-! ## One way to quote a text -/

theorem escapeChar_of_unescapeChar? (h : unescapeChar? e = some c) : escapeChar c = ['\\', e] := by
  unfold unescapeChar? at h
  split at h <;> cases h <;> rfl

theorem escapeChar_of_plain (hquote : c ≠ '"') (hslash : c ≠ '\\') (hfeed : c ≠ '\n')
    (hreturn : c ≠ '\r') : escapeChar c = [c] := by
  simp [escapeChar, *]

theorem eq_escapeList_of_spells (h : Spells w m) (hfeed : '\n' ∉ w) (hreturn : '\r' ∉ w) :
    w = escapeList m := by
  induction h with
  | nil => rfl
  | plain hquote hslash _ ih =>
      simp only [List.mem_cons, not_or] at hfeed hreturn
      rw [escapeList_cons,
        escapeChar_of_plain hquote hslash (Ne.symm hfeed.1) (Ne.symm hreturn.1),
        ← ih hfeed.2 hreturn.2]
      rfl
  | escaped hc _ ih =>
      simp only [List.mem_cons, not_or] at hfeed hreturn
      rw [escapeList_cons, escapeChar_of_unescapeChar? hc, ← ih hfeed.2.2 hreturn.2.2]
      rfl

theorem found_quotedText_escape (s : String) (rest : List Char) :
    found quotedText ('"' :: ((escape s).toList ++ '"' :: rest)) = some (s, rest) :=
  found_quotedText_eq_some_iff.mpr
    ⟨_, _, by rw [toList_escape], spells_escapeList s.toList, (String.ofList_toList).symm⟩

/-- What is read as a whole quoted text. -/
theorem runAll_quotedText_eq_ok_iff :
    quotedText.runAll t = .ok s ↔ ∃ w, t.toList = '"' :: (w ++ ['"']) ∧ Spells w s.toList := by
  rw [runAll_eq_ok_iff, found_quotedText_eq_some_iff]
  constructor
  · rintro ⟨w, m, ht, hw, rfl⟩
    exact ⟨w, ht, by rwa [String.toList_ofList]⟩
  · rintro ⟨w, ht, hw⟩
    exact ⟨w, s.toList, ht, hw, String.ofList_toList.symm⟩

theorem quoted_of_runAll (h : quotedText.runAll t = .ok s) (hfeed : '\n' ∉ t.toList)
    (hreturn : '\r' ∉ t.toList) : t = "\"" ++ escape s ++ "\"" := by
  obtain ⟨w, ht, hw⟩ := runAll_quotedText_eq_ok_iff.mp h
  have hfeed' : '\n' ∉ w := fun hw => hfeed (by simp [ht, hw])
  have hreturn' : '\r' ∉ w := fun hw => hreturn (by simp [ht, hw])
  rw [← String.toList_inj, ht, eq_escapeList_of_spells hw hfeed' hreturn']
  simp [toList_escape]

/-- A value ends before a separator and before the end of its list. -/
theorem found_ident_wordOrQuoted (s : String) (h : rest.head? ∈ [some ',', some ';', some ']']) :
    found ident ((wordOrQuoted s).toList ++ rest) = some (s, rest) := by
  refine found_ident_eq_some_iff.mpr (id_wordOrQuoted s rest fun c hc => ?_)
  rw [Option.mem_def.mp hc] at h
  have hends : c = ',' ∨ c = ';' ∨ c = ']' := by simpa using h
  rcases hends with rfl | rfl | rfl <;> simp [IsWordChar]

/-- Escapes are four replacements, one after the other. What is written between two quotes is read
back up to the second one, and the text between them breaks no line and has no quote but behind a
backslash that is not escaped itself. A quoted text that breaks no line is what would be written for
its meaning. A value of an attribute is read back where its list goes on or ends. -/
theorem quoted_and_read (s t : String) (rest : List Char) :
    escape s =
        replace '\r' "\\r" (replace '\n' "\\n" (replace '"' "\\\"" (replace '\\' "\\\\" s))) ∧
      found quotedText ('"' :: ((escape s).toList ++ '"' :: rest)) = some (s, rest) ∧
      ('\n' ∉ (escape s).toList ∧ '\r' ∉ (escape s).toList ∧
        ∀ pre post, (escape s).toList = pre ++ '"' :: post → Odd (slashes pre)) ∧
      (quotedText.runAll t = .ok s → '\n' ∉ t.toList → '\r' ∉ t.toList →
        t = "\"" ++ escape s ++ "\"") ∧
      (rest.head? ∈ [some ',', some ';', some ']'] →
        found ident ((wordOrQuoted s).toList ++ rest) = some (s, rest)) := by
  refine ⟨escape_eq_replace s, found_quotedText_escape s rest, ⟨?_, ?_, ?_⟩, quoted_of_runAll,
    found_ident_wordOrQuoted s⟩
  · rw [toList_escape]
    exact not_mem_escapeList (.inl rfl) s.toList
  · rw [toList_escape]
    exact not_mem_escapeList (.inr rfl) s.toList
  · intro pre post h
    rw [toList_escape] at h
    exact odd_slashes h

/-- A text that begins with what looks like an escape and ends with a backslash, before a quote. -/
theorem quoted_and_read_slashes :
    let s := "\\n\"\n\\"
    let t := "\"\\\\n\\\"\\n\\\\\""
    let rest := [';', '"']
    quotedText.runAll t = .ok s ∧ t = "\"" ++ escape s ++ "\"" ∧
      found quotedText ('"' :: ((escape s).toList ++ '"' :: rest)) = some (s, rest) ∧
      found ident ((wordOrQuoted s).toList ++ rest) = some (s, rest) := by
  intro s t rest
  obtain ⟨-, hread, -, hwritten, hvalue⟩ := quoted_and_read s t rest
  have ht : quotedText.runAll t = .ok s :=
    runAll_quotedText_eq_ok_iff.mpr ⟨escapeList s.toList, by decide, spells_escapeList _⟩
  exact ⟨ht, hwritten ht (by decide) (by decide), hread, hvalue (by decide)⟩

end FlowGraph.Text
