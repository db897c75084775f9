import FlowGraph.Dot.Derivation
import FlowGraph.Dot.Grammar
import FlowGraph.Proofs.Reader.Parts
import Mathlib

/-!
Blanks, ids and assignments: what the readers find is what the grammar derives. An id neither
begins with a blank nor can be read in two ways, so the blanks before it are all skipped.
-/
namespace FlowGraph.Dot

open Reader FlowGraph.Dot.Derivation

variable {text rest rest' mid : List Char} {s s' : String} {x : Attribute}

/-! ## Blanks -/

namespace Derivation

theorem Skips.refl (text : List Char) : Skips text text := ⟨[], rfl, by simp⟩

theorem Skips.trans (h : Skips text mid) (h' : Skips mid rest) : Skips text rest := by
  obtain ⟨bs, rfl, hbs⟩ := h
  obtain ⟨cs, rfl, hcs⟩ := h'
  refine ⟨bs ++ cs, (List.append_assoc _ _ _).symm, fun c hc => ?_⟩
  rcases List.mem_append.mp hc with hc | hc
  · exact hbs c hc
  · exact hcs c hc

theorem skips_dropWhile (text : List Char) : Skips text (text.dropWhile Text.isBlank) :=
  ⟨text.takeWhile Text.isBlank, List.takeWhile_append_dropWhile.symm,
    fun _ hc => List.mem_takeWhile_imp hc⟩

/-- However many blanks are skipped, skipping all of them leads to the same place. -/
theorem Skips.dropWhile_eq (h : Skips text rest) :
    text.dropWhile Text.isBlank = rest.dropWhile Text.isBlank := by
  obtain ⟨bs, rfl, hbs⟩ := h
  induction bs with
  | nil => rfl
  | cons b bs ih =>
      rw [List.cons_append, List.dropWhile_cons_of_pos (hbs b List.mem_cons_self)]
      exact ih fun c hc => hbs c (List.mem_cons_of_mem b hc)

theorem Skips.byteSize_le (h : Skips text rest) : Text.byteSize rest ≤ Text.byteSize text := by
  obtain ⟨bs, rfl, -⟩ := h
  rw [Text.byteSize_append]
  omega

/-- The text does not begin with a blank. -/
def Solid (text : List Char) : Prop := ∀ c ∈ text.head?, ¬ Text.isBlank c

theorem solid_cons {c : Char} (h : ¬ Text.isBlank c) (cs : List Char) : Solid (c :: cs) := by
  intro d hd
  obtain rfl : c = d := by simpa using hd
  exact h

theorem Solid.dropWhile_eq (h : Solid text) : text.dropWhile Text.isBlank = text := by
  cases text with
  | nil => rfl
  | cons c cs => exact List.dropWhile_cons_of_neg (h c rfl)

theorem solid_dropWhile (text : List Char) : Solid (text.dropWhile Text.isBlank) := by
  intro c hc
  have := List.head?_dropWhile_not Text.isBlank text
  rw [Option.mem_def.mp hc] at this
  simpa using this

theorem Skips.dropWhile_eq_of_solid (h : Skips text rest) (hr : Solid rest) :
    text.dropWhile Text.isBlank = rest := h.dropWhile_eq.trans hr.dropWhile_eq

/-! ## Words -/

theorem isWordChar_iff {c : Char} : Dot.isWordChar c ↔ IsWordChar c := by
  simp [Dot.isWordChar, IsWordChar, or_assoc]

theorem IsWordChar.not_blank {c : Char} (h : IsWordChar c) : ¬ Text.isBlank c := by
  have hn : c.toNat = 46 ∨ (48 ≤ c.toNat ∧ c.toNat ≤ 57) ∨ (65 ≤ c.toNat ∧ c.toNat ≤ 90) ∨
      c.toNat = 95 ∨ (97 ≤ c.toNat ∧ c.toNat ≤ 122) := by
    rcases h with h | rfl | rfl
    · simp only [Char.isAlphanum, Char.isAlpha, Char.isUpper, Char.isLower, Char.isDigit,
        Bool.or_eq_true, Bool.and_eq_true, decide_eq_true_eq, UInt32.le_iff_toNat_le] at h
      change ((65 ≤ c.toNat ∧ c.toNat ≤ 90) ∨ (97 ≤ c.toNat ∧ c.toNat ≤ 122)) ∨
        (48 ≤ c.toNat ∧ c.toNat ≤ 57) at h
      omega
    · simp
    · simp
  simp only [Text.isBlank, Bool.or_eq_true, Bool.and_eq_true, decide_eq_true_eq, beq_iff_eq]
  omega

/-! ## Quoted texts -/

theorem found_escaped_eq_some_iff {c : Char} :
    found escaped text = some (c, rest) ↔
      ∃ e, text = '\\' :: e :: rest ∧ Text.unescapeChar? e = some c := by
  have hchar : ∀ (e : Char) (ds : List Char), found (char '\\' <|> char '"' <|>
      (do let _ ← char 'n'; return '\n') <|> (do let _ ← char 'r'; return '\r')) (e :: ds) =
        (Text.unescapeChar? e).map fun c => (c, ds) := by
    intro e ds
    simp only [found_orElse, found_bind, char, found_satisfy_cons, beq_iff_eq]
    by_cases hb : e = '\\'
    · subst hb; rfl
    by_cases hq : e = '"'
    · subst hq; rfl
    by_cases hn : e = 'n'
    · subst hn; rfl
    by_cases hr : e = 'r'
    · subst hr; rfl
    simp [Text.unescapeChar?, hb, hq, hn, hr]
  rw [escaped, found_bind_eq_some_iff]
  constructor
  · rintro ⟨b, mid, hb, hc⟩
    obtain ⟨rfl, rfl⟩ := found_char_eq_some_iff.mp hb
    cases mid with
    | nil => simp [found_orElse, found_bind, char] at hc
    | cons e ds =>
        rw [hchar] at hc
        obtain ⟨d, hd, hp⟩ := Option.map_eq_some_iff.mp hc
        obtain ⟨rfl, rfl⟩ := Prod.mk.inj hp
        exact ⟨e, rfl, hd⟩
  · rintro ⟨e, rfl, hc⟩
    exact ⟨'\\', e :: rest, found_char_self _ _, by rw [hchar, hc]; rfl⟩

/-- One character between quotes. -/
theorem found_quotedChar_eq_some_iff {c : Char} :
    found (noneOf ['\\', '"'] <|> escaped) text = some (c, rest) ↔
      (c ≠ '"' ∧ c ≠ '\\' ∧ text = c :: rest) ∨
        ∃ e, text = '\\' :: e :: rest ∧ Text.unescapeChar? e = some c := by
  rw [found_orElse, Option.or_eq_some_iff, found_noneOf_eq_some_iff, found_escaped_eq_some_iff]
  constructor
  · rintro (⟨hc, rfl⟩ | ⟨-, he⟩)
    · simp only [List.mem_cons, List.not_mem_nil, or_false, not_or] at hc
      exact .inl ⟨hc.2, hc.1, rfl⟩
    · exact .inr he
  · rintro (⟨hq, hb, rfl⟩ | ⟨e, rfl, he⟩)
    · exact .inl ⟨by simp [hq, hb], rfl⟩
    · exact .inr ⟨by simp [noneOf], e, rfl, he⟩

theorem consumes_quotedChar : Consumes (noneOf ['\\', '"'] <|> escaped) := by
  intro text rest c h
  rcases found_quotedChar_eq_some_iff.mp h with ⟨-, -, rfl⟩ | ⟨e, rfl, -⟩
  · exact Text.byteSize_lt_cons _ _
  · exact (Text.byteSize_lt_cons _ _).trans (Text.byteSize_lt_cons _ _)

theorem spells_of_passes {cs : List Char}
    (h : Passes (noneOf ['\\', '"'] <|> escaped) text cs rest) :
    ∃ w, text = w ++ rest ∧ Spells w cs := by
  induction h with
  | nil => exact ⟨[], rfl, .nil⟩
  | cons hc _ ih =>
      obtain ⟨w, rfl, hw⟩ := ih
      rcases found_quotedChar_eq_some_iff.mp hc with ⟨hq, hb, rfl⟩ | ⟨e, rfl, he⟩
      · exact ⟨_, rfl, .plain hq hb hw⟩
      · exact ⟨_, rfl, .escaped he hw⟩

theorem finds_of_spells {w cs : List Char} (h : Spells w cs) (rest : List Char) :
    Finds (noneOf ['\\', '"'] <|> escaped) (w ++ '"' :: rest) cs ('"' :: rest) := by
  induction h with
  | nil =>
      refine .stop (found_eq_none fun hf => ?_)
      rcases found_quotedChar_eq_some_iff.mp hf with ⟨hq, -, h⟩ | ⟨e, h, -⟩
      · exact absurd (List.cons.inj h).1.symm hq
      · exact absurd (List.cons.inj h).1 (by decide)
  | plain hq hb _ ih => exact .more (found_quotedChar_eq_some_iff.mpr (.inl ⟨hq, hb, rfl⟩)) ih
  | escaped he _ ih => exact .more (found_quotedChar_eq_some_iff.mpr (.inr ⟨_, rfl, he⟩)) ih

theorem found_quotedText_eq_some_iff :
    found quotedText text = some (s, rest) ↔
      ∃ w m, text = '"' :: (w ++ '"' :: rest) ∧ Spells w m ∧ s = String.ofList m := by
  rw [quotedText, found_labelled, found_bind_eq_some_iff]
  constructor
  · rintro ⟨q, mid, hq, h⟩
    obtain ⟨rfl, rfl⟩ := found_char_eq_some_iff.mp hq
    obtain ⟨cs, after, hcs, hend⟩ := found_bind_eq_some_iff.mp h
    obtain ⟨w, rfl, hw⟩ := spells_of_passes (passes_of_found_many hcs)
    obtain ⟨q', after', hq', hs⟩ := found_bind_eq_some_iff.mp hend
    obtain ⟨rfl, rfl⟩ := found_char_eq_some_iff.mp hq'
    simp only [found_pure, Option.some.injEq, Prod.mk.injEq] at hs
    obtain ⟨rfl, rfl⟩ := hs
    exact ⟨w, cs, rfl, hw, rfl⟩
  · rintro ⟨w, m, rfl, hw, rfl⟩
    refine ⟨'"', _, found_char_self _ _, ?_⟩
    rw [found_bind_of ((found_many_eq_some_iff consumes_quotedChar).mpr (finds_of_spells hw rest)),
      found_bind_of (found_char_self _ _), found_pure]

/-! ## Bare words -/

theorem found_bareWord_eq_some_iff :
    found bareWord text = some (s, rest) ↔
      ∃ word, Word text word rest ∧ s = String.ofList word := by
  simp only [bareWord, found_labelled, found_bind_eq_some_iff, found_many1_ofClass_eq_some_iff,
    found_pure_eq_some_iff, isWordChar_iff]
  constructor
  · rintro ⟨word, _, ⟨htext, hne, hword, hr⟩, rfl, rfl⟩
    exact ⟨word, ⟨htext, hne, hword, hr⟩, rfl⟩
  · rintro ⟨word, ⟨htext, hne, hword, hr⟩, rfl⟩
    exact ⟨word, rest, ⟨htext, hne, hword, hr⟩, rfl, rfl⟩

/-! ## Ids -/

theorem found_ident_eq_some_iff : found ident text = some (s, rest) ↔ Id text s rest := by
  rw [ident, found_labelled, found_orElse, Option.or_eq_some_iff, found_quotedText_eq_some_iff,
    found_bareWord_eq_some_iff]
  constructor
  · rintro (⟨w, m, rfl, hw, rfl⟩ | ⟨-, word, hword, rfl⟩)
    · exact .quoted hw
    · exact .bare hword
  · intro h
    cases h with
    | quoted hw => exact .inl ⟨_, _, rfl, hw, rfl⟩
    | @bare _ word _ hword =>
        refine .inr ⟨found_eq_none fun hf => ?_, word, hword, rfl⟩
        -- A quote is no character of a word.
        obtain ⟨w, m, rfl, -⟩ := found_quotedText_eq_some_iff.mp hf
        obtain ⟨ht, hne, hall, -⟩ := hword
        obtain ⟨c, cs, rfl⟩ := List.exists_cons_of_ne_nil hne
        have hc := hall c List.mem_cons_self
        rw [← (List.cons.inj ht).1] at hc
        exact absurd hc (by simp [IsWordChar])

/-- A text begins with a character of an id. -/
def StartsId (text : List Char) : Prop := ∃ c cs, text = c :: cs ∧ (c = '"' ∨ IsWordChar c)

theorem StartsId.solid (h : StartsId text) : Solid text := by
  obtain ⟨c, cs, rfl, rfl | hc⟩ := h
  · exact solid_cons (by decide) cs
  · exact solid_cons hc.not_blank cs

theorem StartsId.ne_cons (h : StartsId text) {d : Char} (hd : ¬ (d = '"' ∨ IsWordChar d))
    (ds : List Char) : text ≠ d :: ds := by
  obtain ⟨c, cs, rfl, hc⟩ := h
  intro he
  exact hd ((List.cons.inj he).1 ▸ hc)

theorem Id.startsId (h : Id text s rest) : StartsId text := by
  cases h with
  | quoted _ => exact ⟨_, _, rfl, .inl rfl⟩
  | bare hword =>
      obtain ⟨rfl, hne, hall, -⟩ := hword
      obtain ⟨c, cs, rfl⟩ := List.exists_cons_of_ne_nil hne
      exact ⟨c, cs ++ rest, rfl, .inr (hall c List.mem_cons_self)⟩

theorem Id.solid (h : Id text s rest) : Solid text := h.startsId.solid

theorem Id.byteSize_lt (h : Id text s rest) : Text.byteSize rest < Text.byteSize text := by
  cases h with
  | @quoted w m rest hw =>
      have := Char.utf8Size_pos '"'
      simp only [Text.byteSize_cons, Text.byteSize_append]
      omega
  | bare hword =>
      obtain ⟨rfl, hne, -, -⟩ := hword
      obtain ⟨c, cs, rfl⟩ := List.exists_cons_of_ne_nil hne
      have := Char.utf8Size_pos c
      simp only [Text.byteSize_cons, Text.byteSize_append]
      omega

/-- A text begins with one id at most. -/
theorem Id.unique (h : Id text s rest) (h' : Id text s' rest') : s = s' ∧ rest = rest' := by
  have := (found_ident_eq_some_iff.mpr h).symm.trans (found_ident_eq_some_iff.mpr h')
  simpa using this

/-! ## Assignments -/

theorem found_assignment_eq_some_iff :
    found assignment text = some (x, rest) ↔ Assignment text x rest := by
  simp only [assignment, found_bind_eq_some_iff, found_ident_eq_some_iff,
    found_padded_eq_some_iff, found_char_eq_some_iff, found_pure, Option.some.injEq,
    Prod.mk.injEq]
  constructor
  · rintro ⟨key, b, hkey, _, _, ⟨c, ⟨rfl, hb⟩, rfl⟩, value, _, hvalue, rfl, rfl⟩
    exact .mk hkey (hb ▸ skips_dropWhile b) (skips_dropWhile c) hvalue
  · intro h
    cases h with
    | mk hkey hb hc hvalue =>
        rename_i b c d key value
        have heq := solid_cons (show ¬ Text.isBlank '=' by decide) c
        refine ⟨key, b, hkey, '=', d, ⟨c, ⟨rfl, hb.dropWhile_eq_of_solid heq⟩, ?_⟩, value, rest,
          hvalue, rfl, rfl⟩
        exact (hc.dropWhile_eq_of_solid hvalue.solid).symm

theorem Assignment.startsId (h : Assignment text x rest) : StartsId text := by
  cases h with
  | mk hkey _ _ _ => exact hkey.startsId

theorem Assignment.solid (h : Assignment text x rest) : Solid text := h.startsId.solid

theorem Assignment.byteSize_lt (h : Assignment text x rest) :
    Text.byteSize rest < Text.byteSize text := by
  cases h with
  | mk hkey hb hc hvalue =>
      rename_i b c d key value
      have h1 := hkey.byteSize_lt
      have h2 := hb.byteSize_le
      have h3 := hc.byteSize_le
      have h4 := hvalue.byteSize_lt
      have h5 := Text.byteSize_lt_cons '=' c
      omega

end Derivation

end FlowGraph.Dot
