import FlowGraph.Proofs.Lookup
import FlowGraph.Proofs.Reader.Parts
import FlowGraph.Toml.Text
import Mathlib.Tactic.Common

/-!
TOML texts between double quotes. The reader finds exactly what can be spelled there, and every text
can be spelled.
-/
namespace FlowGraph.Toml

open Reader

variable {text rest w : List Char} {c : Char} {n : Nat}

/-! ## Hexadecimal digits -/

theorem found_exactly_eq_some_iff {p : Char → Bool} {cs : List Char} :
    found (exactly p n) text = some (cs, rest) ↔
      cs.length = n ∧ (∀ c ∈ cs, p c) ∧ text = cs ++ rest := by
  induction n generalizing text cs rest with
  | zero =>
      rw [exactly, found_pure_eq_some_iff, List.length_eq_zero_iff]
      constructor
      · rintro ⟨rfl, rfl⟩
        simp
      · rintro ⟨rfl, -, rfl⟩
        simp
  | succ n ih =>
      simp only [exactly, found_bind_eq_some_iff, found_ofClass_eq_some_iff, ih,
        found_pure_eq_some_iff]
      constructor
      · rintro ⟨c, _, ⟨hc, rfl⟩, cs, _, ⟨hlength, hcs, rfl⟩, rfl, rfl⟩
        exact ⟨by simp [hlength], List.forall_mem_cons.mpr ⟨hc, hcs⟩, rfl⟩
      · rintro ⟨hlength, hcs, rfl⟩
        obtain ⟨c, cs, rfl⟩ := List.exists_cons_of_length_eq_add_one hlength
        obtain ⟨hc, hcs⟩ := List.forall_mem_cons.mp hcs
        exact ⟨c, cs ++ rest, ⟨hc, rfl⟩, cs, rest, ⟨by simpa using hlength, hcs, rfl⟩, rfl, rfl⟩

/-- The last `n` hexadecimal digits of a number. -/
def hexDigits : Nat → Nat → List Char
  | 0, _ => []
  | n + 1, code => hexDigits n (code / 16) ++ [Nat.digitChar (code % 16)]

theorem length_hexDigits (n code : Nat) : (hexDigits n code).length = n := by
  induction n generalizing code with
  | zero => rfl
  | succ n ih => simp [hexDigits, ih]

theorem isHexDigit_digitChar : ∀ d < 16, isHexDigit (Nat.digitChar d) := by decide

theorem digitValue_digitChar : ∀ d < 16, digitValue (Nat.digitChar d) = d := by decide

theorem isHexDigit_of_mem_hexDigits {code : Nat} (h : c ∈ hexDigits n code) : isHexDigit c := by
  induction n generalizing code with
  | zero => simp [hexDigits] at h
  | succ n ih =>
      rcases List.mem_append.mp h with h | h
      · exact ih h
      · obtain rfl := List.mem_singleton.mp h
        exact isHexDigit_digitChar _ (Nat.mod_lt _ (by decide))

theorem numberOf_hexDigits {code : Nat} (h : code < Nat.pow 16 n) :
    numberOf 16 (hexDigits n code) = code := by
  induction n generalizing code with
  | zero => simpa [hexDigits, numberOf, eq_comm] using h
  | succ n ih =>
      have hdiv : code / 16 < Nat.pow 16 n :=
        Nat.div_lt_of_lt_mul (Nat.mul_comm (Nat.pow 16 n) 16 ▸ h)
      have hvalue := digitValue_digitChar (code % 16) (Nat.mod_lt _ (by decide))
      have hinit : (hexDigits n (code / 16)).foldl (fun n d => n * 16 + digitValue d) 0 =
          code / 16 := ih hdiv
      rw [hexDigits, numberOf, List.foldl_append, hinit]
      simp only [List.foldl_cons, List.foldl_nil, hvalue]
      omega

/-! ## Characters between quotes -/

/-- What a letter after a backslash stands for. -/
def shortEscapes : List (Char × Char) :=
  [('b', '\x08'), ('t', '\t'), ('n', '\n'), ('f', '\x0c'), ('r', '\r'), ('e', '\x1b'), ('"', '"'),
    ('\\', '\\')]

/-- How many digits follow a letter after a backslash. -/
def numberEscapes : List (Char × Nat) := [('x', 2), ('u', 4), ('U', 8)]

/-- The ways to write a character between quotes. -/
inductive Spells : List Char → Char → Prop where
  | plain {c : Char} : isControl c = false → c ≠ '"' → c ≠ '\\' → Spells [c] c
  | short {x c : Char} : shortEscapes.lookup x = some c → Spells ['\\', x] c
  | numbered {x : Char} {digits : List Char} :
    numberEscapes.lookup x = some digits.length → (∀ d ∈ digits, isHexDigit d) →
    (numberOf 16 digits).isValidChar →
    Spells ('\\' :: x :: digits) (Char.ofNat (numberOf 16 digits))

theorem lookup_shortEscapes {x : Char} (h : numberEscapes.lookup x = some n) :
    shortEscapes.lookup x = none := by
  have hmem := mem_of_lookup h
  simp only [numberEscapes, List.mem_cons, Prod.mk.injEq, List.not_mem_nil, or_false] at hmem
  rcases hmem with ⟨rfl, -⟩ | ⟨rfl, -⟩ | ⟨rfl, -⟩ <;> rfl

theorem found_numbered_eq_some_iff : found (numbered n) text = some (c, rest) ↔
    ∃ digits : List Char, digits.length = n ∧ (∀ d ∈ digits, isHexDigit d) ∧
      (numberOf 16 digits).isValidChar ∧ text = digits ++ rest ∧
        c = Char.ofNat (numberOf 16 digits) := by
  simp only [numbered, found_bind_eq_some_iff, found_exactly_eq_some_iff]
  constructor
  · rintro ⟨digits, _, ⟨hlength, hdigits, rfl⟩, h⟩
    split at h
    · next hvalid =>
        obtain ⟨rfl, rfl⟩ := found_pure_eq_some_iff.mp h
        exact ⟨digits, hlength, hdigits, hvalid, rfl, rfl⟩
    · simp [found, fail] at h
  · rintro ⟨digits, hlength, hdigits, hvalid, rfl, rfl⟩
    exact ⟨digits, rest, ⟨hlength, hdigits, rfl⟩, by rw [if_pos hvalid, found_pure]⟩

/-- What follows a backslash. -/
def afterBackslash (x : Char) : Reader Char :=
  match shortEscapes.lookup x, numberEscapes.lookup x with
  | some c, _ => pure c
  | none, some n => numbered n
  | none, none => fail

theorem escape_eq :
    escape = (do let _ ← char '\\'; let x ← ofClass fun _ => true; afterBackslash x) := by
  unfold escape
  congr
  funext _
  congr
  funext x
  split
  all_goals try rfl
  next hb ht hn hf hr he hquote hslash hx hu hU =>
    have hshort : shortEscapes.lookup x = none := by
      simpa [shortEscapes, List.lookup_eq_none_iff] using
        ⟨hb, ht, hn, hf, hr, he, hquote, hslash⟩
    have hnumber : numberEscapes.lookup x = none := by
      simpa [numberEscapes, List.lookup_eq_none_iff] using ⟨hx, hu, hU⟩
    rw [afterBackslash, hshort, hnumber]

theorem found_escape_eq_some_iff : found escape text = some (c, rest) ↔
    ∃ w, text = '\\' :: (w ++ rest) ∧ Spells ('\\' :: w) c := by
  simp only [escape_eq, found_bind_eq_some_iff, found_char_eq_some_iff, found_ofClass_eq_some_iff]
  constructor
  · rintro ⟨_, _, ⟨rfl, rfl⟩, x, _, ⟨-, rfl⟩, h⟩
    unfold afterBackslash at h
    split at h
    · next c' hs =>
        obtain ⟨rfl, rfl⟩ := found_pure_eq_some_iff.mp h
        exact ⟨[x], rfl, .short hs⟩
    · next n hs hn =>
        obtain ⟨digits, rfl, hdigits, hvalid, rfl, rfl⟩ := found_numbered_eq_some_iff.mp h
        exact ⟨x :: digits, rfl, .numbered hn hdigits hvalid⟩
    · simp [found, fail] at h
  · rintro ⟨w, rfl, h⟩
    generalize hw : '\\' :: w = v at h
    cases h with
    | plain hc hq hb => exact absurd (List.cons.inj hw).1.symm hb
    | @short x c hs =>
        obtain rfl := (List.cons.inj hw).2
        refine ⟨_, _, ⟨rfl, rfl⟩, x, rest, ⟨trivial, rfl⟩, ?_⟩
        rw [afterBackslash, hs, found_pure]
    | @numbered x digits hn hdigits hvalid =>
        obtain rfl := (List.cons.inj hw).2
        refine ⟨_, _, ⟨rfl, rfl⟩, x, digits ++ rest, ⟨trivial, rfl⟩, ?_⟩
        rw [afterBackslash, lookup_shortEscapes hn, hn]
        exact found_numbered_eq_some_iff.mpr ⟨digits, rfl, hdigits, hvalid, rfl, rfl⟩

/-! ## Texts -/

/-- No spelling begins with a quote. -/
theorem Spells.append_ne (h : Spells w c) (rest text : List Char) : w ++ rest ≠ '"' :: text := by
  intro heq
  cases h with
  | plain _ hq _ => exact hq (List.cons.inj heq).1
  | short _ | numbered _ _ _ => exact absurd (List.cons.inj heq).1 (by decide)

/-- A text between quotes, character by character. -/
inductive SpellsText : List Char → List Char → Prop where
  | nil : SpellsText [] []
  | cons {w ws : List Char} {c : Char} {cs : List Char} : Spells w c → SpellsText ws cs →
    SpellsText (w ++ ws) (c :: cs)

/-- One character between quotes. -/
def quotedChar : Reader Char :=
  ofClass (fun c => !isControl c && c != '"' && c != '\\') <|> escape

theorem found_quotedChar_eq_some_iff :
    found quotedChar text = some (c, rest) ↔ ∃ w, text = w ++ rest ∧ Spells w c := by
  rw [quotedChar, found_orElse, Option.or_eq_some_iff, found_ofClass_eq_some_iff,
    found_escape_eq_some_iff]
  constructor
  · rintro (⟨hc, rfl⟩ | ⟨-, w, rfl, h⟩)
    · simp only [Bool.and_eq_true, Bool.not_eq_true', bne_iff_ne] at hc
      exact ⟨[c], rfl, .plain hc.1.1 hc.1.2 hc.2⟩
    · exact ⟨_, rfl, h⟩
  · rintro ⟨w, rfl, h⟩
    cases h with
    | plain hc hq hb => exact .inl ⟨by simp [hc, hq, hb], rfl⟩
    | short hs => exact .inr ⟨by simp, _, rfl, .short hs⟩
    | numbered hn hdigits hvalid => exact .inr ⟨by simp, _, rfl, .numbered hn hdigits hvalid⟩

theorem consumes_quotedChar : Consumes quotedChar := by
  intro text rest c h
  obtain ⟨w, rfl, hw⟩ := found_quotedChar_eq_some_iff.mp h
  rw [Text.byteSize_append]
  have hpos : 0 < Text.byteSize w := by
    cases hw <;> exact Nat.lt_of_le_of_lt (Nat.zero_le _) (Text.byteSize_lt_cons _ _)
  omega

theorem spellsText_of_passes {cs : List Char} (h : Passes quotedChar text cs rest) :
    ∃ w, text = w ++ rest ∧ SpellsText w cs := by
  induction h with
  | nil => exact ⟨[], rfl, .nil⟩
  | cons hc _ ih =>
      obtain ⟨ws, rfl, hws⟩ := ih
      obtain ⟨w, rfl, hw⟩ := found_quotedChar_eq_some_iff.mp hc
      exact ⟨w ++ ws, (List.append_assoc _ _ _).symm, .cons hw hws⟩

theorem finds_of_spellsText {cs : List Char} (h : SpellsText w cs) (rest : List Char) :
    Finds quotedChar (w ++ '"' :: rest) cs ('"' :: rest) := by
  induction h with
  | nil =>
      refine .stop (found_eq_none fun hf => ?_)
      obtain ⟨w, heq, hw⟩ := found_quotedChar_eq_some_iff.mp hf
      exact hw.append_ne _ _ heq.symm
  | cons hw _ ih =>
      rw [List.append_assoc]
      exact .more (found_quotedChar_eq_some_iff.mpr ⟨_, rfl, hw⟩) ih

theorem found_basicText_eq_some_iff {s : String} : found basicText text = some (s, rest) ↔
    ∃ w m, text = '"' :: (w ++ '"' :: rest) ∧ SpellsText w m ∧ s = String.ofList m := by
  change found (do
    let _ ← char '"'
    let cs ← many quotedChar
    let _ ← char '"'
    return String.ofList cs) text = _ ↔ _
  rw [found_bind_eq_some_iff]
  constructor
  · rintro ⟨q, mid, hq, h⟩
    obtain ⟨rfl, rfl⟩ := found_char_eq_some_iff.mp hq
    obtain ⟨cs, after, hcs, hend⟩ := found_bind_eq_some_iff.mp h
    obtain ⟨w, rfl, hw⟩ := spellsText_of_passes (passes_of_found_many hcs)
    obtain ⟨q', after', hq', hs⟩ := found_bind_eq_some_iff.mp hend
    obtain ⟨rfl, rfl⟩ := found_char_eq_some_iff.mp hq'
    obtain ⟨rfl, rfl⟩ := found_pure_eq_some_iff.mp hs
    exact ⟨w, cs, rfl, hw, rfl⟩
  · rintro ⟨w, m, rfl, hw, rfl⟩
    refine ⟨'"', _, found_char_self _ _, ?_⟩
    rw [found_bind_of ((found_many_eq_some_iff consumes_quotedChar).mpr
        (finds_of_spellsText hw rest)), found_bind_of (found_char_self _ _), found_pure]

/-! ## Every text can be written -/

/-- A character as it is, or by its number. -/
def spell (c : Char) : List Char :=
  if isControl c || c = '"' || c = '\\' then '\\' :: 'U' :: hexDigits 8 c.toNat else [c]

theorem spells_spell (c : Char) : Spells (spell c) c := by
  unfold spell
  split
  · have hlt : c.toNat < Nat.pow 16 8 := c.val.toNat_lt
    have hnumber := numberOf_hexDigits hlt
    have hdigits : numberEscapes.lookup 'U' = some (hexDigits 8 c.toNat).length := by
      rw [length_hexDigits]
      rfl
    have h := Spells.numbered hdigits (fun _ => isHexDigit_of_mem_hexDigits)
      (by rw [hnumber]; exact c.valid)
    rwa [hnumber, Char.ofNat_toNat] at h
  · next h =>
      simp only [Bool.or_eq_true, decide_eq_true_eq, not_or] at h
      exact .plain (by simpa using h.1.1) h.1.2 h.2

/-- A text between quotes. -/
def quoted (s : String) : List Char := '"' :: (s.toList.flatMap spell ++ ['"'])

theorem spellsText_flatMap (cs : List Char) : SpellsText (cs.flatMap spell) cs := by
  induction cs with
  | nil => exact .nil
  | cons c cs ih => exact .cons (spells_spell c) ih

theorem found_multiline {quote : Char} {piece : Reader String}
    (h : ∀ rest, text ≠ quote :: quote :: quote :: rest) :
    found (multiline quote piece) text = none :=
  found_bind_none (found_word_eq_none h)

/-- A text that was written is read, unless one more quote follows. -/
theorem found_text_quoted (s : String) (hrest : ∀ text, rest ≠ '"' :: text) :
    found Toml.text (quoted s ++ rest) = some (s, rest) := by
  have hbasic : found basicText (quoted s ++ rest) = some (s, rest) :=
    found_basicText_eq_some_iff.mpr ⟨_, s.toList, by simp [quoted], spellsText_flatMap s.toList,
      String.ofList_toList.symm⟩
  -- Three quotes would begin a text of several lines. Only an empty text begins with two.
  have hdouble : ∀ text, quoted s ++ rest ≠ '"' :: '"' :: '"' :: text := by
    intro text heq
    cases hs : s.toList with
    | nil =>
        have h : '"' :: '"' :: rest = '"' :: '"' :: '"' :: text := by simpa [quoted, hs] using heq
        exact hrest text (List.cons.inj (List.cons.inj h).2).2
    | cons c cs =>
        refine (spells_spell c).append_ne (cs.flatMap spell ++ '"' :: rest) ('"' :: text) ?_
        simpa [quoted, hs] using heq
  have hsingle : ∀ text, quoted s ++ rest ≠ '\'' :: '\'' :: '\'' :: text := by
    intro text heq
    exact absurd (List.cons.inj heq).1 (by decide)
  rw [Toml.text, found_orElse, multilineBasicText, found_multiline hdouble, Option.none_or,
    found_orElse, multilineLiteralText, found_multiline hsingle, Option.none_or, found_orElse,
    hbasic, Option.some_or]

end FlowGraph.Toml
