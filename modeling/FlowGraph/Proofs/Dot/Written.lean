import FlowGraph.Dot.Printer
import FlowGraph.Proofs.Dot.Accepted

/-!
What is written can be read: the grammar derives each statement from its text, whatever characters
the ids and values have.
-/
namespace FlowGraph.Dot

open FlowGraph.Dot.Derivation

variable {rest tail a b c d e f : List Char} {x : Attribute} {xs : List Attribute} {s : Statement}
  {ss ts : List Statement}

namespace Derivation

/-! ## Ids -/

/-- Between quotes a character stands for itself or is escaped. -/
theorem escapeChar_cases (c : Char) :
    (∃ e, Text.escapeChar c = ['\\', e] ∧ Text.unescapeChar? e = some c) ∨
      Text.escapeChar c = [c] ∧ c ≠ '"' ∧ c ≠ '\\' := by
  unfold Text.escapeChar
  split
  · exact .inl ⟨_, rfl, rfl⟩
  · exact .inl ⟨_, rfl, rfl⟩
  · exact .inl ⟨_, rfl, rfl⟩
  · exact .inl ⟨_, rfl, rfl⟩
  · exact .inr ⟨rfl, ‹_›, ‹_›⟩

theorem spells_escapeList (cs : List Char) : Spells (Text.escapeList cs) cs := by
  induction cs with
  | nil => exact .nil
  | cons c cs ih =>
      rw [Text.escapeList_cons]
      rcases escapeChar_cases c with ⟨e, he, hc⟩ | ⟨he, hquote, hslash⟩
      · rw [he]
        exact .escaped hc ih
      · rw [he]
        exact .plain hquote hslash ih

theorem toList_quoted (s : String) :
    (Text.quoted s).toList = '"' :: (Text.escapeList s.toList ++ ['"']) := by
  simp [Text.quoted, Text.toList_escape]

theorem id_quoted (s : String) (rest : List Char) : Id ((Text.quoted s).toList ++ rest) s rest := by
  have h : Id ('"' :: (Text.escapeList s.toList ++ '"' :: rest)) _ rest :=
    .quoted (spells_escapeList s.toList)
  rw [String.ofList_toList] at h
  simpa [toList_quoted] using h

theorem IsWordChar.of_isPlainChar {c : Char} (h : isPlainChar c) : IsWordChar c := by
  simp only [isPlainChar, Bool.or_eq_true, beq_iff_eq] at h
  exact h.imp_right .inl

/-- A value without quotes ends where no word goes on. -/
theorem id_wordOrQuoted (s : String) (rest : List Char) (hrest : ∀ c ∈ rest.head?, ¬ IsWordChar c) :
    Id ((wordOrQuoted s).toList ++ rest) s rest := by
  unfold wordOrQuoted
  split
  · next h =>
      obtain ⟨hne, hall⟩ := h
      have hchars : ∀ c ∈ s.toList, IsWordChar c := fun c hc =>
        .of_isPlainChar (List.all_eq_true.mp hall c hc)
      have hword : Word (s.toList ++ rest) s.toList rest :=
        ⟨rfl, by simpa using hne, hchars, hrest⟩
      have h := Id.bare hword
      rwa [String.ofList_toList] at h
  · exact id_quoted s rest

/-! ## Attributes -/

theorem assignment_text (x : Attribute) (rest : List Char)
    (hrest : ∀ c ∈ rest.head?, ¬ IsWordChar c) :
    Assignment (x.text.toList ++ rest) x rest := by
  have hvalue : Id ((if x.key = "label" then Text.quoted x.value
      else wordOrQuoted x.value).toList ++ rest) x.value rest := by
    split
    · exact id_quoted _ _
    · exact id_wordOrQuoted _ rest hrest
  have hkey := id_wordOrQuoted x.key ('=' :: ((if x.key = "label" then Text.quoted x.value
      else wordOrQuoted x.value).toList ++ rest)) (by simp [IsWordChar])
  have h := Assignment.mk hkey (.refl _) (.refl _) hvalue
  simpa [Attribute.text, String.toList_append] using h

theorem Entries.of_skips (h : Entries b (x :: xs) c) (ha : Skips a b) : Entries a (x :: xs) c := by
  have hfirst : ∀ {d}, Entry b x d → Entry a x d := fun ⟨e, f, he, hx, hf⟩ =>
    ⟨e, f, ha.trans he, hx, hf⟩
  cases h with
  | last hx => exact .last (hfirst hx)
  | more hx hs hxs => exact .more (hfirst hx) hs hxs

theorem skips_space (a : List Char) : Skips (' ' :: a) a :=
  ⟨[' '], rfl, by simp [Text.isBlank]⟩

theorem entries_text (xs : List Attribute) (b : List Char) :
    Entries ((", ".intercalate (xs.map Attribute.text)).toList ++ ']' :: b) xs (']' :: b) := by
  induction xs with
  | nil => exact .none
  | cons x xs ih =>
      cases xs with
      | nil =>
          have hx := assignment_text x (']' :: b) (by simp [IsWordChar])
          refine .last ⟨_, _, .refl _, ?_, .refl _⟩
          simpa using hx
      | cons y ys =>
          have hx := assignment_text x (',' :: ' ' ::
            ((", ".intercalate ((y :: ys).map Attribute.text)).toList ++ ']' :: b))
            (by simp [IsWordChar])
          refine .more ⟨_, _, .refl _, ?_, .refl _⟩ (.inl rfl) (ih.of_skips (skips_space _))
          simpa [String.toList_intercalate, List.intercalate_cons_cons] using hx

theorem attributeList_text (xs : List Attribute) (b : List Char) :
    AttributeList ((attributesText xs).toList ++ b) xs b := by
  have h := AttributeList.mk (entries_text xs b)
  simpa [attributesText] using h

theorem someAttributes_text (xs : List Attribute) (b : List Char) :
    SomeAttributes (' ' :: ((attributesText xs).toList ++ b)) xs b :=
  .some (skips_space _) (attributeList_text xs b)

/-! ## Statements -/

end Derivation

/-- Only a keyword can be read back as the target of defaults. -/
def Statement.IsWritable : Statement → Prop
  | .defaults target _ => IsKeyword target.toList
  | _ => True

namespace Derivation

theorem isStatement_text (hs : s.IsWritable) (rest : List Char) :
    IsStatement (s.text.toList ++ ';' :: rest) s (';' :: rest) := by
  cases s with
  | «attribute» x => exact .attribute (assignment_text x _ (by simp [IsWordChar]))
  | defaults target xs =>
      have h := IsStatement.defaults hs (skips_space _) (attributeList_text xs (';' :: rest))
      rw [String.ofList_toList] at h
      simpa [Statement.text] using h
  | node id xs =>
      have hid := id_quoted id (' ' :: ((attributesText xs).toList ++ ';' :: rest))
      have h := IsStatement.node hid (someAttributes_text xs _) ?_
      · simpa [Statement.text] using h
      -- The id stands in quotes, and no keyword begins with one.
      · rintro word hword heq
        rw [toList_quoted] at heq
        rcases hword with rfl | rfl | rfl <;> simp at heq
  | edge src dst xs =>
      have hsrc := id_quoted src (' ' :: '-' :: '>' :: ' ' ::
        ((Text.quoted dst).toList ++ ' ' :: ((attributesText xs).toList ++ ';' :: rest)))
      have hdst := id_quoted dst (' ' :: ((attributesText xs).toList ++ ';' :: rest))
      have h := IsStatement.edge hsrc (skips_space _) (skips_space _) hdst
        (someAttributes_text xs _)
      simpa [Statement.text] using h

theorem skips_feed (a : List Char) : Skips ('\n' :: a) a :=
  ⟨['\n'], rfl, by simp [Text.isBlank]⟩

theorem skips_indent (a : List Char) : Skips ("    ".toList ++ a) a :=
  ⟨"    ".toList, rfl, fun _ hc => by
    have hall : "    ".toList.all Text.isBlank := rfl
    exact List.all_eq_true.mp hall _ hc⟩

/-- Lines before what are statements make them more statements. -/
theorem statements_lines (hss : ∀ s ∈ ss, s.IsWritable) (htail : Skips tail e)
    (hts : Statements e ts f) :
    ∃ e', Skips ((lines ss).toList ++ tail) e' ∧ Statements e' (ss ++ ts) f := by
  induction ss with
  | nil => exact ⟨e, htail, hts⟩
  | cons s ss ih =>
      obtain ⟨e', he', hss'⟩ := ih fun s' hs' => hss s' (List.mem_cons_of_mem s hs')
      refine ⟨s.text.toList ++ ';' :: '\n' :: ((lines ss).toList ++ tail), ?_, ?_⟩
      · have h := skips_indent (s.text.toList ++ ';' :: '\n' :: ((lines ss).toList ++ tail))
        simpa [lines, Statement.line] using h
      · exact .cons (isStatement_text (hss s List.mem_cons_self) _)
          (.marked (.refl _) ((skips_feed _).trans he')) hss'

end Derivation

/-- A graph is read from its text with its name and all of its statements. An empty line between
the statements means nothing. -/
theorem Graph.read_written (name : String) (hss : ∀ s ∈ ss, s.IsWritable)
    (hts : ∀ s ∈ ts, s.IsWritable) :
    Graph.read ("digraph " ++ Text.quoted name ++ " \x7b\n" ++ lines ss ++ "\n" ++ lines ts ++
      "\x7d\n") = .ok ⟨some name, ss ++ ts⟩ := by
  have hclose : Skips ('\x7d' :: ['\n']) ('\x7d' :: ['\n']) := .refl _
  obtain ⟨e, he, hts'⟩ := statements_lines hts hclose .nil
  obtain ⟨d, hd, hss'⟩ := statements_lines hss ((skips_feed _).trans he) hts'
  rw [List.append_nil] at hss'
  have hid := SomeId.some (skips_space _) (id_quoted name (' ' :: '\x7b' :: '\n' ::
    ((lines ss).toList ++ '\n' :: ((lines ts).toList ++ ['\x7d', '\n']))))
  have h := Derivation.Digraph.mk (.refl _) hid (skips_space _) ((skips_feed _).trans hd) hss'
    (skips_feed [])
  refine Graph.read_of_digraph ?_
  simpa using h

/-- Lines between braces alone are read as a graph without a name. -/
theorem Graph.read_braced (hss : ∀ s ∈ ss, s.IsWritable) :
    Graph.read ("digraph \x7b" ++ lines ss ++ "\x7d") = .ok ⟨none, ss⟩ := by
  have hclose : Skips ['\x7d'] ['\x7d'] := .refl _
  obtain ⟨e, he, hss'⟩ := statements_lines hss hclose .nil
  rw [List.append_nil] at hss'
  have h := Derivation.Digraph.mk (.refl _) .none (skips_space _) he hss' (.refl [])
  refine Graph.read_of_digraph ?_
  simpa using h

end FlowGraph.Dot
