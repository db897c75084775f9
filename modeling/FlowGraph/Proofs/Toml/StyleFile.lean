import FlowGraph.Proofs.Toml.Text
import FlowGraph.Toml.StyleFile

/-!
Style files that are written and read. Whatever texts a file gives for the fields of a style, these
are the fields of the style that is read, and the others keep their defaults.
-/
namespace FlowGraph.Toml

open Reader

variable {text rest : List Char} {name : String} {given : List (String × String)}

/-! ## Writing -/

/-- A name that can be a key without quotes. -/
def IsBare (name : String) : Prop := name.toList ≠ [] ∧ ∀ c ∈ name.toList, isBareChar c

instance : DecidablePred IsBare := fun name =>
  decidable_of_iff (name.toList ≠ [] ∧ name.toList.all isBareChar) (by simp [IsBare])

/-- A line that gives a text. -/
def line (x : String × String) : List Char :=
  x.1.toList ++ ' ' :: '=' :: ' ' :: (quoted x.2 ++ ['\n'])

/-- A style file that gives texts for some fields. -/
def styleFile (given : List (String × String)) : String :=
  String.ofList ('[' :: ("style".toList ++ ']' :: '\n' :: given.flatMap line))

/-! ## Blanks and keys -/

/-- Neither a blank nor a line end nor a comment begins here. -/
def StartsNoGap (text : List Char) : Prop :=
  ∀ c ∈ text.head?, ¬ isSpace c ∧ c ∉ ['\n', '\r', '#']

theorem StartsNoGap.ne (h : StartsNoGap text) {c : Char} (hc : c ∈ ['\n', '\r', '#'])
    (rest : List Char) : text ≠ c :: rest := by
  rintro rfl
  exact (h c rfl).2 hc

theorem StartsNoGap.dropWhile (h : StartsNoGap text) : text.dropWhile isSpace = text := by
  cases text with
  | nil => rfl
  | cons c cs => rw [List.dropWhile_cons, if_neg (h c rfl).1]

theorem IsBare.startsNoGap (h : IsBare name) (rest : List Char) :
    StartsNoGap (name.toList ++ rest) := by
  intro c hc
  obtain ⟨c', cs, hname⟩ := List.exists_cons_of_ne_nil h.1
  obtain rfl : c' = c := by simpa [hname] using hc
  have hbare := h.2 c' (hname ▸ List.mem_cons_self)
  constructor
  · intro hspace
    rcases (show c' = ' ' ∨ c' = '\t' by simpa [isSpace] using hspace) with rfl | rfl <;>
      exact absurd hbare (by decide)
  · intro hmem
    rcases (show c' = '\n' ∨ c' = '\r' ∨ c' = '#' by simpa using hmem) with rfl | rfl | rfl <;>
      exact absurd hbare (by decide)

theorem found_gap_self (h : StartsNoGap text) : found gap text = some ((), text) := by
  have hspace : found (ofClass isSpace) text = none := by
    refine found_eq_none fun hf => ?_
    obtain ⟨hc, rfl⟩ := found_ofClass_eq_some_iff.mp hf
    exact (h _ rfl).1 hc
  have hnewline : found newline text = none := by
    rw [newline, found_orElse_none (found_bind_none (found_char_eq_none (h.ne (by simp)))),
      found_bind_none (found_word_eq_none fun rest => h.ne (by simp) _)]
  have hcomment : found comment text = none :=
    found_bind_none (found_char_eq_none (h.ne (by simp)))
  have hnone : found ((do let _ ← ofClass isSpace) <|> (do let _ ← newline) <|> comment) text =
      none := by
    rw [found_orElse_none (found_bind_none hspace), found_orElse_none (found_bind_none hnewline),
      hcomment]
  rw [gap, found_bind_of (by rw [found_many, hnone]), found_pure]

/-- Nothing in the text goes on with a key. -/
def EndsKey (text : List Char) : Prop :=
  (∀ c ∈ text.head?, ¬ isBareChar c) ∧ ∀ rest, text.dropWhile isSpace ≠ '.' :: rest

theorem found_key (h : IsBare name) (hrest : EndsKey rest) :
    found key (name.toList ++ rest) = some ([name], rest) := by
  have hsimple : found simpleKey (name.toList ++ rest) = some (name, rest) := by
    have hmany := found_many1_ofClass_eq_some_iff.mpr ⟨rfl, h.1, h.2, hrest.1⟩
    refine found_orElse_of ?_
    rw [found_bind_of hmany, String.ofList_toList, found_pure]
  have hdots : found (many (spaced (char '.') *> simpleKey)) rest = some ([], rest) := by
    have hdot : found (spaced (char '.') *> simpleKey) rest = none := by
      rw [found_seqRight, spaced, found_bind_of (found_skip _ _),
        found_bind_none (found_char_eq_none hrest.2)]
      rfl
    rw [found_many, hdot]
  rw [key, found_bind_of hsimple, found_bind_of hdots]
  rfl

theorem found_spaced {α : Type} {r : Reader α} {a : α} {mid : List Char}
    (h : r.found (text.dropWhile isSpace) = some (a, mid)) :
    found (spaced r) text = some (a, mid.dropWhile isSpace) := by
  rw [spaced, found_bind_of (found_skip _ _), found_bind_of h, found_bind_of (found_skip _ _),
    found_pure]

/-! ## Entries -/

theorem found_bracketed_none {opening closing : List Char}
    (h : ∀ rest, text ≠ opening ++ rest) : found (bracketed opening closing) text = none :=
  found_bind_none (found_word_eq_none h)

/-- A header with one name. -/
theorem found_entry_header (h : IsBare name) :
    found entry ('[' :: (name.toList ++ ']' :: rest)) = some (.header [] name, rest) := by
  -- Two brackets would begin the header of an array, but no name begins with one.
  have hdouble : ∀ text, '[' :: (name.toList ++ ']' :: rest) ≠ ['[', '['] ++ text := by
    intro text heq
    obtain ⟨c, cs, hname⟩ := List.exists_cons_of_ne_nil h.1
    rw [hname] at heq
    obtain rfl : c = '[' := (List.cons.inj (List.cons.inj heq).2).1
    exact absurd (h.2 _ (hname ▸ List.mem_cons_self)) (by decide)
  have hkey : found key ((name.toList ++ ']' :: rest).dropWhile isSpace) =
      some ([name], ']' :: rest) := by
    rw [(h.startsNoGap _).dropWhile]
    exact found_key h ⟨by simp [isBareChar], by simp [isSpace]⟩
  have hbracketed : found (bracketed ['['] [']']) ('[' :: (name.toList ++ ']' :: rest)) =
      some (([], name), rest) := by
    have hopening : found (word ['[']) ('[' :: (name.toList ++ ']' :: rest)) =
        some ((), name.toList ++ ']' :: rest) := found_word_eq_some_iff.mpr rfl
    have hclosing : found (word [']']) ((']' :: rest).dropWhile isSpace) = some ((), rest) :=
      found_word_eq_some_iff.mpr rfl
    rw [bracketed, found_bind_of hopening, found_bind_of (found_spaced hkey),
      found_bind_of hclosing]
    rfl
  rw [entry, found_orElse_none (found_bind_none (found_bracketed_none hdouble))]
  exact found_orElse_of (by rw [found_bind_of hbracketed, found_pure])

theorem found_valueWithin_text {s : String} (depth : Nat)
    (h : found Toml.text text = some (s, rest)) :
    found (valueWithin depth) text = some (.text s, rest) := by
  have htext : found (do return Item.text (← Toml.text)) text = some (.text s, rest) := by
    rw [found_bind_of h, found_pure]
  cases depth <;> exact found_orElse_of htext

/-- A name with a text. -/
theorem found_entry_assignment {s : String} (h : IsBare name)
    (hrest : ∀ text, rest ≠ '"' :: text) :
    found entry (name.toList ++ ' ' :: '=' :: ' ' :: (quoted s ++ rest)) =
      some (.assignment [name] (.text s), rest) := by
  have hbracket : ∀ text more, name.toList ++ ' ' :: '=' :: ' ' :: (quoted s ++ rest) ≠
      '[' :: text ++ more := by
    intro text more heq
    obtain ⟨c, cs, hname⟩ := List.exists_cons_of_ne_nil h.1
    rw [hname] at heq
    obtain rfl : c = '[' := (List.cons.inj heq).1
    exact absurd (h.2 _ (hname ▸ List.mem_cons_self)) (by decide)
  have hkey : found key (name.toList ++ ' ' :: '=' :: ' ' :: (quoted s ++ rest)) =
      some ([name], ' ' :: '=' :: ' ' :: (quoted s ++ rest)) :=
    found_key h ⟨by simp [isBareChar], by simp [isSpace]⟩
  have hequals : found (spaced (char '=')) (' ' :: '=' :: ' ' :: (quoted s ++ rest)) =
      some ('=', quoted s ++ rest) := by
    rw [found_spaced (found_char_self '=' (' ' :: (quoted s ++ rest)))]
    simp [isSpace, quoted]
  have hvalue := found_valueWithin_text depthLimit (found_text_quoted s hrest)
  rw [entry, found_orElse_none (found_bind_none (found_bracketed_none fun more => hbracket _ more)),
    found_orElse_none (found_bind_none (found_bracketed_none fun more => hbracket _ more)),
    found_bind_of hkey, found_bind_of hequals, value, found_bind_of hvalue, found_pure]

/-! ## Documents -/

/-- An entry with its line and the gap after it. -/
def entryLine : Reader Entry := do
  let e ← entry
  endOfEntry
  gap
  return e

theorem found_entryLine {e : Entry} (h : found entry text = some (e, '\n' :: rest))
    (hrest : StartsNoGap rest) : found entryLine text = some (e, rest) := by
  have hskip : found (skip isSpace) ('\n' :: rest) = some ((), '\n' :: rest) := by
    rw [found_skip]
    rfl
  have hcomment : found comment ('\n' :: rest) = none :=
    found_bind_none (found_char_eq_none (by simp))
  have hnewline : found newline ('\n' :: rest) = some ("\n", rest) :=
    found_orElse_of (by rw [found_bind_of (found_char_self _ _), found_pure])
  have hend : found endOfEntry ('\n' :: rest) = some ((), rest) := by
    rw [endOfEntry, found_bind_of hskip, found_bind_of (found_optional_none hcomment)]
    exact found_orElse_of (by rw [found_bind_of hnewline, found_pure])
  rw [entryLine, found_bind_of h, found_bind_of hend, found_bind_of (found_gap_self hrest),
    found_pure]

theorem found_entryLine_nil : found entryLine [] = none := by
  have hnone : ∀ x, found (char x) [] = none := fun x => found_char_eq_none (by simp)
  have hbare : found (do return String.ofList (← many1 (ofClass isBareChar))) [] = none :=
    found_bind_none (found_bind_none (found_ofClass_nil _))
  have hquoted : found basicText [] = none := found_bind_none (hnone _)
  have hkey : found key [] = none := by
    refine found_bind_none ?_
    rw [simpleKey, found_orElse_none hbare, found_orElse_none hquoted]
    exact found_bind_none (hnone _)
  refine found_bind_none ?_
  rw [entry, found_orElse_none (found_bind_none (found_bracketed_none (by simp))),
    found_orElse_none (found_bind_none (found_bracketed_none (by simp))), found_bind_none hkey]

/-- The entry on a line that gives a text. -/
def lineEntry (x : String × String) : Entry := .assignment [x.1] (.text x.2)

theorem startsNoGap_lines (hbare : ∀ x ∈ given, IsBare x.1) :
    StartsNoGap (given.flatMap line) := by
  cases given with
  | nil => simp [StartsNoGap]
  | cons x given =>
      have hx := (List.forall_mem_cons.mp hbare).1.startsNoGap
        (' ' :: '=' :: ' ' :: (quoted x.2 ++ ['\n']) ++ given.flatMap line)
      rwa [← List.append_assoc] at hx

theorem found_lines (hbare : ∀ x ∈ given, IsBare x.1) :
    found entryLine.many (given.flatMap line) = some (given.map lineEntry, []) := by
  induction given with
  | nil =>
      rw [List.flatMap_nil, found_many, found_entryLine_nil]
      rfl
  | cons x given ih =>
      obtain ⟨hx, hgiven⟩ := List.forall_mem_cons.mp hbare
      have hentry : found entry (line x ++ given.flatMap line) =
          some (lineEntry x, '\n' :: given.flatMap line) := by
        have hend : ∀ text, '\n' :: given.flatMap line ≠ '"' :: text := by simp
        simpa [line, lineEntry] using found_entry_assignment (s := x.2) hx hend
      have hlt : Text.byteSize (given.flatMap line) <
          Text.byteSize (line x ++ given.flatMap line) := by
        have hpos := Char.utf8Size_pos ' '
        simp only [line, Text.byteSize_append, Text.byteSize_cons]
        omega
      rw [List.flatMap_cons, found_many, found_entryLine hentry (startsNoGap_lines hgiven)]
      simp only [hlt, if_true, ih hgiven]
      rfl

theorem found_document (hbare : ∀ x ∈ given, IsBare x.1) :
    found document (styleFile given).toList =
      some (.header [] "style" :: given.map lineEntry, []) := by
  have htext : (styleFile given).toList =
      '[' :: ("style".toList ++ ']' :: '\n' :: given.flatMap line) := String.toList_ofList
  have hstyle : IsBare "style" := by decide
  have hgap := startsNoGap_lines hbare
  have hheader := found_entryLine (found_entry_header hstyle) hgap
  have hlt : Text.byteSize (given.flatMap line) <
      Text.byteSize ('[' :: ("style".toList ++ ']' :: '\n' :: given.flatMap line)) := by
    have hpos := Char.utf8Size_pos '['
    simp only [Text.byteSize_append, Text.byteSize_cons]
    omega
  have hmany : found entryLine.many (styleFile given).toList =
      some (.header [] "style" :: given.map lineEntry, []) := by
    rw [htext, found_many, hheader]
    simp only [hlt, if_true, found_lines hbare]
    rfl
  have hmark : found (char '\ufeff') (styleFile given).toList = none :=
    found_char_eq_none (by simp [htext])
  have hstart : StartsNoGap (styleFile given).toList := by
    rw [htext]
    simp [StartsNoGap, isSpace]
  change found (do
    let _ ← Reader.optional (char '\ufeff')
    gap
    let entries ← many entryLine
    endOfInput
    return entries) _ = _
  rw [found_bind_of (found_optional_none hmark), found_bind_of (found_gap_self hstart),
    found_bind_of hmany]
  rfl

/-! ## Tables -/

theorem ofEntries?_lines {inner : Fields} (hnodup : (given.map (·.1)).Nodup)
    (hfresh : ∀ x ∈ given, inner.lookup x.1 = none) :
    Fields.ofEntries? (given.map lineEntry) ["style"] [("style", .table .header inner)] =
      some [("style", .table .header (inner ++ given.map fun x => (x.1, .text x.2)))] := by
  induction given generalizing inner with
  | nil => simp [Fields.ofEntries?]
  | cons x given ih =>
      obtain ⟨hx, hfresh⟩ := List.forall_mem_cons.mp hfresh
      obtain ⟨hnot, hnodup⟩ := List.nodup_cons.mp hnodup
      have hstep : Fields.descend (Fields.assign (.text x.2) [x.1]) ["style"]
          [("style", .table .header inner)] =
            some [("style", .table .header (inner ++ [(x.1, .text x.2)]))] := by
        simp [Fields.descend, Fields.assign, Fields.put, hx]
      have hrest : ∀ y ∈ given, (inner ++ [(x.1, Item.text x.2)]).lookup y.1 = none := by
        intro y hy
        have hne : y.1 ≠ x.1 := fun heq => hnot (List.mem_map.mpr ⟨y, hy, heq⟩)
        simp [List.lookup_append, hfresh y hy, List.lookup_cons, beq_false_of_ne hne]
      rw [List.map_cons, lineEntry, Fields.ofEntries?, hstep]
      simpa using ih hnodup hrest

/-- A style file is read as the table that it was written from. -/
theorem read?_styleFile (hbare : ∀ x ∈ given, IsBare x.1) (hnodup : (given.map (·.1)).Nodup) :
    read? (styleFile given) =
      some [("style", .table .header (given.map fun x => (x.1, .text x.2)))] := by
  have hrun : document.run (styleFile given) = .ok (.header [] "style" :: given.map lineEntry) :=
    (run_eq_ok_iff _ _ _).mpr ⟨[], found_document hbare⟩
  have hheader : Fields.descend (Fields.define "style") [] [] =
      some [("style", .table .header [])] := rfl
  rw [read?, hrun]
  change Fields.ofEntries? (.header [] "style" :: given.map lineEntry) [] [] = _
  rw [Fields.ofEntries?, hheader]
  exact ofEntries?_lines hnodup (by simp)

/-! ## Styles -/

theorem lookup_map_some (given : List (String × String)) (k : String) :
    (given.map fun x => (x.1, some x.2)).lookup k = (given.lookup k).map some := by
  induction given with
  | nil => rfl
  | cons x given ih =>
      rw [List.map_cons, List.lookup_cons, List.lookup_cons, ih]
      cases k == x.1 <;> rfl

/-- Texts for some fields make a style with these fields; the others have their defaults. -/
theorem ofNamed?_texts (given : List (String × String)) :
    ∃ s, Dot.Style.ofNamed? (given.map fun x => (x.1, some x.2)) = some s ∧
      s.fields = ({} : Dot.Style).fields.map fun x => (x.1, (given.lookup x.1).getD x.2) := by
  have hfield : ∀ name fallback : String,
      (((given.map fun x => (x.1, some x.2)).lookup name).getD (some fallback)) =
        some ((given.lookup name).getD fallback) := by
    intro name fallback
    rw [lookup_map_some]
    cases given.lookup name <;> rfl
  simp only [Dot.Style.ofNamed?, hfield]
  exact ⟨_, rfl, rfl⟩

theorem fieldsReadable_texts (given : List (String × String)) :
    fieldsReadable (given.map fun x => (x.1, .text x.2)) := by
  induction given with
  | nil => rfl
  | cons x given ih => simpa [fieldsReadable, Item.isReadable] using ih

theorem style?_styleFile (hbare : ∀ x ∈ given, IsBare x.1) (hnodup : (given.map (·.1)).Nodup) :
    ∃ s, style? (styleFile given) = some s ∧
      s.fields = ({} : Dot.Style).fields.map fun x => (x.1, (given.lookup x.1).getD x.2) := by
  obtain ⟨s, hs, hfields⟩ := ofNamed?_texts given
  refine ⟨s, ?_, hfields⟩
  have hall : [("style", Item.table .header (given.map fun x => (x.1, .text x.2)))].all
      allowsStyle := by
    simp [allowsStyle, Item.isReadable, fieldsReadable_texts]
  have hsettings : (Item.table .header (given.map fun x => (x.1, .text x.2))).settings? =
      some (.named (given.map fun x => (x.1, some x.2))) := by
    simp [Item.settings?, Item.text?, Function.comp_def]
  rw [style?, read?_styleFile hbare hnodup]
  simp only [Option.bind_eq_bind, Option.bind_some, hall, if_true, List.lookup_cons_self,
    hsettings]
  exact hs

/-- Every style has a file. -/
theorem style?_fields (s : Dot.Style) : style? (styleFile s.fields) = some s := by
  have hnames : s.fields.map (·.1) = Dot.Style.fieldNames := rfl
  have hbare : ∀ x ∈ s.fields, IsBare x.1 := by
    intro x hx
    have hall : ∀ name ∈ Dot.Style.fieldNames, IsBare name := by decide
    exact hall x.1 (hnames ▸ List.mem_map_of_mem hx)
  obtain ⟨s', hs', hfields⟩ := style?_styleFile hbare (by rw [hnames]; decide)
  have heq : s'.fields = s.fields := by
    rw [hfields]
    simp [Dot.Style.fields, Dot.Style.fieldNames, List.lookup_cons]
  have hinj : s' = s := by
    obtain ⟨⟩ := s
    obtain ⟨⟩ := s'
    simpa [Dot.Style.fields, Dot.Style.fieldNames] using heq
  rw [hs', hinj]

end FlowGraph.Toml
