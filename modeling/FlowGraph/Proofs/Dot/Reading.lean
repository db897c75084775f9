import FlowGraph.Proofs.Dot.Tokens

/-!
Reading a text gives exactly the graph that the grammar derives from it. The alternatives of the
reader are tried in order; none of them finds anything where a later one is meant.
-/
namespace FlowGraph.Dot

open Reader FlowGraph.Dot.Derivation

variable {text rest mid a b c e f : List Char} {id : String} {x : Attribute} {xs : List Attribute}
  {s : Statement} {ss : List Statement}

namespace Derivation

/-! ## Attribute lists -/

/-- An attribute with the blanks around it is read up to where no blank follows. -/
theorem found_entry_eq_some_iff :
    found (padded assignment) text = some (x, rest) ↔ Entry text x rest ∧ Solid rest := by
  rw [found_padded_eq_some_iff]
  constructor
  · rintro ⟨mid, hx, rfl⟩
    exact ⟨⟨_, mid, skips_dropWhile text, found_assignment_eq_some_iff.mp hx, skips_dropWhile mid⟩,
      solid_dropWhile mid⟩
  · rintro ⟨⟨a, b, ha, hx, hb⟩, hr⟩
    refine ⟨b, ?_, (hb.dropWhile_eq_of_solid hr).symm⟩
    rw [ha.dropWhile_eq_of_solid hx.solid]
    exact found_assignment_eq_some_iff.mpr hx

theorem Entry.byteSize_lt (h : Entry text x rest) : Text.byteSize rest < Text.byteSize text := by
  obtain ⟨a, b, ha, hx, hb⟩ := h
  have h1 := ha.byteSize_le
  have h2 := hx.byteSize_lt
  have h3 := hb.byteSize_le
  omega

theorem found_separator_eq_some_iff {s : Char} :
    found (oneOf [',', ';']) text = some (s, rest) ↔ IsSeparator s ∧ text = s :: rest := by
  rw [found_oneOf_eq_some_iff]
  simp [IsSeparator]

theorem solid_closing (b : List Char) : Solid (']' :: b) := solid_cons (by decide) b

theorem IsSeparator.solid {s : Char} (h : IsSeparator s) (b : List Char) : Solid (s :: b) := by
  rcases h with rfl | rfl
  · exact solid_cons (by decide) b
  · exact solid_cons (by decide) b

theorem found_entry_closing (b : List Char) : found (padded assignment) (']' :: b) = none := by
  refine found_eq_none fun hf => ?_
  obtain ⟨⟨a, _, ha, hx, -⟩, -⟩ := found_entry_eq_some_iff.mp hf
  have hclose := (solid_closing b).dropWhile_eq
  rw [ha.dropWhile_eq_of_solid hx.solid] at hclose
  exact hx.startsId.ne_cons (by simp [IsWordChar]) b hclose

/-- What follows a separator in a list. -/
theorem found_nextEntry_eq_some_iff :
    found (oneOf [',', ';'] *> padded assignment) text = some (x, rest) ↔
      ∃ s b, IsSeparator s ∧ text = s :: b ∧ Entry b x rest ∧ Solid rest := by
  rw [found_seqRight, Option.bind_eq_some_iff]
  constructor
  · rintro ⟨⟨s, b⟩, hf, hx⟩
    obtain ⟨hs, rfl⟩ := found_separator_eq_some_iff.mp hf
    exact ⟨s, b, hs, rfl, found_entry_eq_some_iff.mp hx⟩
  · rintro ⟨s, b, hs, rfl, hx⟩
    exact ⟨(s, b), found_separator_eq_some_iff.mpr ⟨hs, rfl⟩, found_entry_eq_some_iff.mpr hx⟩

theorem consumes_nextEntry : Consumes (oneOf [',', ';'] *> padded assignment) := by
  intro text rest x h
  obtain ⟨s, b, -, rfl, hx, -⟩ := found_nextEntry_eq_some_iff.mp h
  exact hx.byteSize_lt.trans (Text.byteSize_lt_cons s b)

/-- The last attribute of a list is followed by the rest or by a separator before the rest. -/
def Closes (mid rest : List Char) : Prop := mid = rest ∨ ∃ s, IsSeparator s ∧ mid = s :: rest

theorem entries_of_finds (hx : Entry a x text)
    (h : Finds (oneOf [',', ';'] *> padded assignment) text xs mid) (hend : Closes mid rest) :
    Entries a (x :: xs) rest := by
  induction h generalizing a x with
  | stop _ =>
      rcases hend with rfl | ⟨s, hs, rfl⟩
      · exact .last hx
      · exact .more hx hs .none
  | more hf _ ih =>
      obtain ⟨s, b, hs, rfl, hy, -⟩ := found_nextEntry_eq_some_iff.mp hf
      exact .more hx hs (ih hy hend)

theorem found_nextEntry_closing (b : List Char) :
    found (oneOf [',', ';'] *> padded assignment) (']' :: b) = none := by
  rw [found_seqRight]
  rfl

theorem finds_of_entries {s : Char} (hs : IsSeparator s) (h : Entries a xs (']' :: b)) :
    ∃ mid, Finds (oneOf [',', ';'] *> padded assignment) (s :: a) xs mid ∧
      Closes mid (']' :: b) := by
  generalize hr : ']' :: b = rest at h
  induction h generalizing s with
  | none =>
      subst hr
      refine ⟨_, .stop ?_, .inr ⟨s, hs, rfl⟩⟩
      rw [found_seqRight, found_separator_eq_some_iff.mpr ⟨hs, rfl⟩]
      exact found_entry_closing b
  | last hx =>
      subst hr
      exact ⟨_, .more (found_nextEntry_eq_some_iff.mpr ⟨s, _, hs, rfl, hx, solid_closing b⟩)
        (.stop (found_nextEntry_closing b)), .inl rfl⟩
  | more hx hs' _ ih =>
      obtain ⟨mid, hfinds, hend⟩ := ih hs' hr
      exact ⟨mid, .more (found_nextEntry_eq_some_iff.mpr ⟨s, _, hs, rfl, hx, hs'.solid _⟩) hfinds,
        hend⟩

theorem found_optional_separator (h : Closes mid (']' :: b)) :
    ∃ o, found (oneOf [',', ';']).optional mid = some (o, ']' :: b) := by
  rcases h with rfl | ⟨s, hs, rfl⟩
  · exact ⟨none, rfl⟩
  · exact ⟨some s, found_optional_of (found_separator_eq_some_iff.mpr ⟨hs, rfl⟩)⟩

theorem closes_of_found {o : Option Char}
    (h : found (oneOf [',', ';']).optional mid = some (o, rest)) : Closes mid rest := by
  rcases found_optional_eq_some_iff.mp h with ⟨s, -, hs⟩ | ⟨-, rfl, -⟩
  · exact .inr ⟨s, found_separator_eq_some_iff.mp hs⟩
  · exact .inl rfl

theorem found_separated_of_entries (h : Entries a xs (']' :: b)) :
    found (separated (padded assignment) (oneOf [',', ';'])) a = some (xs, ']' :: b) := by
  -- The first attribute is read on its own, the others each with the separator before them.
  have hcons : ∀ {c d x xs}, Entry a x c → Solid c →
      Finds (oneOf [',', ';'] *> padded assignment) c xs d → Closes d (']' :: b) →
      found (separated (padded assignment) (oneOf [',', ';'])) a = some (x :: xs, ']' :: b) := by
    intro c d x xs hx hc hfinds hend
    obtain ⟨o, ho⟩ := found_optional_separator hend
    rw [separated, found_bind_of (found_optional_of (found_entry_eq_some_iff.mpr ⟨hx, hc⟩)),
      found_bind_of ((found_many_eq_some_iff consumes_nextEntry).mpr hfinds), found_bind_of ho,
      found_pure]
  cases h with
  | none =>
      rw [separated, found_bind_of (found_optional_none (found_entry_closing b)), found_pure]
  | last hx => exact hcons hx (solid_closing b) (.stop (found_nextEntry_closing b)) (.inl rfl)
  | more hx hs hxs =>
      obtain ⟨mid, hfinds, hend⟩ := finds_of_entries hs hxs
      exact hcons hx (hs.solid _) hfinds hend

theorem entries_of_found_separated
    (h : found (separated (padded assignment) (oneOf [',', ';'])) a = some (xs, rest)) :
    Entries a xs rest := by
  cases hf : found (padded assignment) a with
  | none =>
      rw [separated, found_bind_of (found_optional_none hf), found_pure] at h
      obtain ⟨rfl, rfl⟩ := Prod.mk.inj (Option.some.inj h)
      exact .none
  | some p =>
      obtain ⟨x, mid⟩ := p
      rw [separated, found_bind_of (found_optional_of hf)] at h
      obtain ⟨ys, c, hys, h'⟩ := found_bind_eq_some_iff.mp h
      obtain ⟨o, d, ho, hd⟩ := found_bind_eq_some_iff.mp h'
      obtain ⟨rfl, rfl⟩ := found_pure_eq_some_iff.mp hd
      exact entries_of_finds (found_entry_eq_some_iff.mp hf).1
        ((found_many_eq_some_iff consumes_nextEntry).mp hys) (closes_of_found ho)

theorem found_attributeList_eq_some_iff :
    found attributeList text = some (xs, rest) ↔ AttributeList text xs rest := by
  rw [attributeList, found_labelled]
  constructor
  · intro h
    obtain ⟨q, a, hq, h'⟩ := found_bind_eq_some_iff.mp h
    obtain ⟨rfl, rfl⟩ := found_char_eq_some_iff.mp hq
    obtain ⟨ys, mid, hys, h''⟩ := found_bind_eq_some_iff.mp h'
    obtain ⟨q', d, hq', hd⟩ := found_bind_eq_some_iff.mp h''
    obtain ⟨rfl, rfl⟩ := found_char_eq_some_iff.mp hq'
    obtain ⟨rfl, rfl⟩ := found_pure_eq_some_iff.mp hd
    exact .mk (entries_of_found_separated hys)
  · intro h
    cases h with
    | mk hxs =>
        rw [found_bind_of (found_char_self _ _), found_bind_of (found_separated_of_entries hxs),
          found_bind_of (found_char_self _ _), found_pure]

theorem AttributeList.eq_cons (h : AttributeList text xs rest) : ∃ a, text = '[' :: a := by
  cases h with
  | mk _ => exact ⟨_, rfl⟩

theorem AttributeList.solid (h : AttributeList text xs rest) : Solid text := by
  obtain ⟨a, rfl⟩ := h.eq_cons
  exact solid_cons (by decide) a

/-! ## Where a statement ends -/

/-- The text begins with an id or with the end of the graph. -/
def Starts (text : List Char) : Prop :=
  ∃ c cs, text = c :: cs ∧ (c = '"' ∨ IsWordChar c ∨ c = '\x7d')

theorem Starts.ne_cons (h : Starts text) {d : Char} (hd : d = '[' ∨ d = ';' ∨ d = '=' ∨ d = '-')
    (ds : List Char) : text ≠ d :: ds := by
  obtain ⟨c, cs, rfl, hc⟩ := h
  intro he
  obtain ⟨rfl, -⟩ := List.cons.inj he
  rcases hc with rfl | hc | rfl
  · simp at hd
  · rcases hd with rfl | rfl | rfl | rfl <;> simp [IsWordChar] at hc
  · simp at hd

theorem Starts.solid (h : Starts text) : Solid text := by
  obtain ⟨c, cs, rfl, rfl | hc | rfl⟩ := h
  · exact solid_cons (by decide) cs
  · exact solid_cons hc.not_blank cs
  · exact solid_cons (by decide) cs

theorem isKeyword_iff {word : List Char} :
    IsKeyword word ↔ word = ['g', 'r', 'a', 'p', 'h'] ∨ word = ['n', 'o', 'd', 'e'] ∨
      word = ['e', 'd', 'g', 'e'] := Iff.rfl

theorem IsKeyword.isWordChar {word : List Char} (h : IsKeyword word) :
    ∀ c ∈ word, IsWordChar c := by
  have hall : word.all Dot.isWordChar := by
    rw [isKeyword_iff] at h
    rcases h with rfl | rfl | rfl
    · rfl
    · rfl
    · rfl
  exact fun c hc => isWordChar_iff.mp (List.all_eq_true.mp hall c hc)

theorem StartsId.starts (h : StartsId text) : Starts text := by
  obtain ⟨c, cs, rfl, hc⟩ := h
  exact ⟨c, cs, rfl, hc.imp_right .inl⟩

theorem IsKeyword.startsId {word : List Char} (h : IsKeyword word) (a : List Char) :
    StartsId (word ++ a) := by
  have hall := h.isWordChar
  rw [isKeyword_iff] at h
  rcases h with rfl | rfl | rfl <;>
    exact ⟨_, _, rfl, .inr (hall _ List.mem_cons_self)⟩

theorem IsStatement.startsId (h : IsStatement text s rest) : StartsId text := by
  cases h with
  | edge hsrc _ _ _ _ => exact hsrc.startsId
  | «attribute» hx => exact hx.startsId
  | defaults hword _ _ => exact hword.startsId _
  | node hid _ _ => exact hid.startsId

theorem Statements.starts (h : Statements text ss ('\x7d' :: rest)) : Starts text := by
  cases h with
  | nil => exact ⟨_, _, rfl, .inr (.inr rfl)⟩
  | cons hs _ _ => exact hs.startsId.starts

theorem Ends.of_skips (h : Ends text rest) (hs : Skips mid text) : Ends mid rest := by
  cases h with
  | bare h => exact .bare (hs.trans h)
  | marked h h' => exact .marked (hs.trans h) h'

theorem Ends.skips (h : Ends text mid) (hs : Skips mid rest) : Ends text rest := by
  cases h with
  | bare h => exact .bare (h.trans hs)
  | marked h h' => exact .marked h (h'.trans hs)

theorem solid_semicolon (a : List Char) : Solid (';' :: a) := solid_cons (by decide) a

/-- What stands after the blanks behind a statement. -/
theorem Ends.dropWhile_eq (h : Ends text rest) (hr : Starts rest) :
    text.dropWhile Text.isBlank = rest ∨
      ∃ a, text.dropWhile Text.isBlank = ';' :: a ∧ Skips a rest := by
  cases h with
  | bare h => exact .inl (h.dropWhile_eq_of_solid hr.solid)
  | marked h h' => exact .inr ⟨_, h.dropWhile_eq_of_solid (solid_semicolon _), h'⟩

theorem Ends.dropWhile_ne (h : Ends text rest) (hr : Starts rest) {d : Char}
    (hd : d = '[' ∨ d = '=' ∨ d = '-') (ds : List Char) :
    text.dropWhile Text.isBlank ≠ d :: ds := by
  rcases h.dropWhile_eq hr with he | ⟨a, he, -⟩
  · rw [he]
    exact hr.ne_cons (by tauto) ds
  · rw [he]
    intro h'
    obtain ⟨rfl, -⟩ := List.cons.inj h'
    simp at hd

theorem Ends.dropWhile (h : Ends text rest) (hr : Starts rest) :
    Ends (text.dropWhile Text.isBlank) rest := by
  rcases h.dropWhile_eq hr with he | ⟨a, he, ha⟩
  · exact he ▸ .bare (.refl _)
  · exact he ▸ .marked (.refl _) ha

/-! ## The parts of statements -/

theorem found_someAttributes (text : List Char) : found someAttributes text =
    some (((found attributeList (text.dropWhile Text.isBlank)).map fun (xs, d) =>
      (xs, d.dropWhile Text.isBlank)).getD ([], text)) := by
  rw [someAttributes, found_bind, found_optional, found_padded]
  cases found attributeList (text.dropWhile Text.isBlank) <;> rfl

theorem someAttributes_of_found (h : found someAttributes text = some (xs, rest)) :
    ∃ mid, SomeAttributes text xs mid ∧ Skips mid rest := by
  rw [found_someAttributes, Option.some.injEq] at h
  cases hf : found attributeList (text.dropWhile Text.isBlank) with
  | none =>
      rw [hf] at h
      obtain ⟨rfl, rfl⟩ := Prod.mk.inj h
      exact ⟨text, .none, .refl _⟩
  | some p =>
      obtain ⟨ys, mid⟩ := p
      rw [hf] at h
      obtain ⟨rfl, rfl⟩ := Prod.mk.inj h
      exact ⟨mid, .some (skips_dropWhile _) (found_attributeList_eq_some_iff.mp hf),
        skips_dropWhile _⟩

theorem found_attributeList_eq_none (h : ∀ ds, text ≠ '[' :: ds) :
    found attributeList text = none := by
  refine found_eq_none fun hf => ?_
  obtain ⟨ds, rfl⟩ := (found_attributeList_eq_some_iff.mp hf).eq_cons
  exact h ds rfl

/-- Before the end of a statement the attribute list is read if there is one. -/
theorem found_someAttributes_of (h : SomeAttributes e xs f) (hend : Ends f c) (hc : Starts c) :
    ∃ f', found someAttributes e = some (xs, f') ∧ Ends f' c := by
  cases h with
  | none =>
      refine ⟨e, ?_, hend⟩
      rw [found_someAttributes,
        found_attributeList_eq_none (hend.dropWhile_ne hc (.inl rfl))]
      rfl
  | some hskips hxs =>
      refine ⟨f.dropWhile Text.isBlank, ?_, hend.dropWhile hc⟩
      rw [found_someAttributes, hskips.dropWhile_eq_of_solid hxs.solid,
        found_attributeList_eq_some_iff.mpr hxs]
      rfl

theorem found_keyword_eq_some_iff {name target : String} :
    found (keyword name) text = some (target, rest) ↔
      target = name ∧ text = name.toList ++ rest := by
  rw [keyword, found_bind_eq_some_iff]
  constructor
  · rintro ⟨_, mid, hw, h⟩
    obtain ⟨rfl, rfl⟩ := found_pure_eq_some_iff.mp h
    exact ⟨rfl, found_word_eq_some_iff.mp hw⟩
  · rintro ⟨rfl, rfl⟩
    exact ⟨(), rest, found_word_eq_some_iff.mpr rfl, found_pure _ _⟩

theorem found_keyword_eq_none {name : String} (h : ∀ rest, text ≠ name.toList ++ rest) :
    found (keyword name) text = none :=
  found_eq_none fun hf => h _ (found_keyword_eq_some_iff.mp hf).2

/-- No keyword is the beginning of another one. -/
theorem found_keywords_eq_some_iff {target : String} :
    found (keyword "graph" <|> keyword "node" <|> keyword "edge") text = some (target, rest) ↔
      ∃ word, IsKeyword word ∧ target = String.ofList word ∧ text = word ++ rest := by
  have hne : ∀ {c d : Char} {cs ds : List Char}, c ≠ d → c :: cs ≠ d :: ds := fun h h' =>
    h (List.cons.inj h').1
  simp only [found_orElse, Option.or_eq_some_iff, found_keyword_eq_some_iff]
  constructor
  · rintro (⟨rfl, rfl⟩ | ⟨-, ⟨rfl, rfl⟩ | ⟨-, rfl, rfl⟩⟩)
    · exact ⟨_, .inl rfl, String.ofList_toList.symm, rfl⟩
    · exact ⟨_, .inr (.inl rfl), String.ofList_toList.symm, rfl⟩
    · exact ⟨_, .inr (.inr rfl), String.ofList_toList.symm, rfl⟩
  · rintro ⟨word, rfl | rfl | rfl, rfl, rfl⟩
    · exact .inl ⟨String.ofList_toList, rfl⟩
    · exact .inr ⟨found_keyword_eq_none fun _ => hne (by decide), .inl ⟨String.ofList_toList, rfl⟩⟩
    · exact .inr ⟨found_keyword_eq_none fun _ => hne (by decide),
        .inr ⟨found_keyword_eq_none fun _ => hne (by decide), String.ofList_toList, rfl⟩⟩

/-! ## Which alternative finds a statement -/

theorem found_edgeStatement_eq_none (hid : Id a id b)
    (hb : ∀ ds, b.dropWhile Text.isBlank ≠ '-' :: ds) : found edgeStatement a = none := by
  rw [edgeStatement, found_labelled, found_bind_of (found_ident_eq_some_iff.mpr hid)]
  refine found_bind_none ?_
  rw [found_padded, found_word_eq_none fun ds => hb _]
  rfl

theorem found_attributeStatement_eq_none (hid : Id a id b)
    (hb : ∀ ds, b.dropWhile Text.isBlank ≠ '=' :: ds) : found attributeStatement a = none := by
  rw [attributeStatement, found_labelled, assignment]
  refine found_bind_none ?_
  rw [found_bind_of (found_ident_eq_some_iff.mpr hid)]
  refine found_bind_none ?_
  rw [found_padded, found_char_eq_none fun ds => hb _]
  rfl

/-- A keyword before blanks and an attribute list is a whole word. -/
theorem IsKeyword.isId {word : List Char} (h : IsKeyword word) (ha : Skips a b)
    (hb : AttributeList b xs c) : Id (word ++ a) (String.ofList word) a := by
  refine .bare ⟨rfl, ?_, h.isWordChar, ?_⟩
  · rw [isKeyword_iff] at h
    rcases h with rfl | rfl | rfl <;> exact List.cons_ne_nil _ _
  · obtain ⟨bs, rfl, hbs⟩ := ha
    intro d hd hw
    cases bs with
    | nil =>
        cases hb with
        | mk _ =>
            obtain rfl : '[' = d := by simpa using hd
            simp [IsWordChar] at hw
    | cons y ys =>
        obtain rfl : y = d := by simpa using hd
        exact hw.not_blank (hbs y List.mem_cons_self)

theorem found_defaultsStatement_eq_some_iff :
    found defaultsStatement text = some (s, rest) ↔ ∃ word a b c xs, IsKeyword word ∧
      text = word ++ a ∧ Skips a b ∧ AttributeList b xs c ∧
      s = .defaults (String.ofList word) xs ∧ rest = c.dropWhile Text.isBlank := by
  simp only [defaultsStatement, found_labelled, found_bind_eq_some_iff, found_keywords_eq_some_iff,
    found_padded_eq_some_iff, found_attributeList_eq_some_iff, found_pure, Option.some.injEq,
    Prod.mk.injEq]
  constructor
  · rintro ⟨_, a, ⟨word, hword, rfl, rfl⟩, xs, _, ⟨c, hxs, rfl⟩, rfl, rfl⟩
    exact ⟨word, a, _, c, xs, hword, rfl, skips_dropWhile a, hxs, rfl, rfl⟩
  · rintro ⟨word, a, b, c, xs, hword, rfl, ha, hxs, rfl, rfl⟩
    have hlist := ha.dropWhile_eq_of_solid hxs.solid
    exact ⟨_, a, ⟨word, hword, rfl, rfl⟩, xs, _, ⟨c, hlist.symm ▸ hxs, rfl⟩, rfl, rfl⟩

theorem found_nodeStatement_of (hid : Id a id b) {f' : List Char}
    (hxs : found someAttributes b = some (xs, f')) :
    found nodeStatement a = some (.node id xs, f') := by
  rw [nodeStatement, found_labelled, found_bind_of (found_ident_eq_some_iff.mpr hid),
    found_bind_of hxs, found_pure]

/-- A statement without what ends it, in the order in which the kinds are tried. -/
def anyStatement : Reader Statement :=
  edgeStatement <|> attributeStatement <|> defaultsStatement <|> nodeStatement

theorem found_edgeStatement_of {src dst : String} {d f' : List Char} (hsrc : Id a src b)
    (harrow : Skips b ('-' :: '>' :: c)) (hblanks : Skips c d) (hdst : Id d dst e)
    (hxs : found someAttributes e = some (xs, f')) :
    found edgeStatement a = some (.edge src dst xs, f') := by
  have hword : found (padded (word ['-', '>'])) b = some ((), d) := by
    refine found_padded_eq_some_iff.mpr ⟨c, ?_, (hblanks.dropWhile_eq_of_solid hdst.solid).symm⟩
    rw [harrow.dropWhile_eq_of_solid (solid_cons (by decide) _)]
    exact found_word_eq_some_iff.mpr rfl
  rw [edgeStatement, found_labelled, found_bind_of (found_ident_eq_some_iff.mpr hsrc),
    found_bind_of hword, found_bind_of (found_ident_eq_some_iff.mpr hdst), found_bind_of hxs,
    found_pure]

theorem found_attributeStatement_eq_some_iff :
    found attributeStatement text = some (s, rest) ↔
      ∃ x, s = .attribute x ∧ Assignment text x rest := by
  simp only [attributeStatement, found_labelled, found_bind_eq_some_iff,
    found_assignment_eq_some_iff, found_pure, Option.some.injEq, Prod.mk.injEq]
  constructor
  · rintro ⟨x, mid, hx, rfl, rfl⟩
    exact ⟨x, rfl, hx⟩
  · rintro ⟨x, rfl, hx⟩
    exact ⟨x, rest, hx, rfl, rfl⟩

theorem AttributeList.dropWhile_ne (h : AttributeList b xs c) (ha : Skips a b) {d : Char}
    (hd : d ≠ '[') (ds : List Char) : a.dropWhile Text.isBlank ≠ d :: ds := by
  rw [ha.dropWhile_eq_of_solid h.solid]
  obtain ⟨cs, rfl⟩ := h.eq_cons
  intro he
  exact hd (List.cons.inj he).1.symm

/-- Behind an id with its attributes comes neither an arrow nor an equals sign. -/
theorem SomeAttributes.dropWhile_ne (h : SomeAttributes b xs c) (hend : Ends c e) (he : Starts e)
    {d : Char} (hd : d = '=' ∨ d = '-') (ds : List Char) :
    b.dropWhile Text.isBlank ≠ d :: ds := by
  cases h with
  | none => exact hend.dropWhile_ne he (.inr hd) ds
  | some hskips hxs => exact hxs.dropWhile_ne hskips (by rcases hd with rfl | rfl <;> decide) ds

/-- A node is not read as defaults: a keyword before a list is none. -/
theorem found_defaultsStatement_eq_none (hid : Id a id b) (hxs : SomeAttributes b xs c)
    (hkey : ∀ word, IsKeyword word → a = word ++ b → b = c) (hend : Ends c e) (he : Starts e) :
    found defaultsStatement a = none := by
  refine found_eq_none fun hf => ?_
  obtain ⟨word, b', d, f, ys, hword, rfl, hskips, hys, -⟩ :=
    found_defaultsStatement_eq_some_iff.mp hf
  obtain ⟨-, rfl⟩ := hid.unique (hword.isId hskips hys)
  obtain rfl := hkey word hword rfl
  obtain ⟨cs, rfl⟩ := hys.eq_cons
  exact hend.dropWhile_ne he (.inl rfl) cs (hskips.dropWhile_eq_of_solid hys.solid)

/-- Each statement is read as what it is, for the kinds tried before it find nothing there. -/
theorem found_anyStatement_of (h : IsStatement a s b) (hend : Ends b c) (hc : Starts c) :
    ∃ f', found anyStatement a = some (s, f') ∧ Ends f' c := by
  simp only [anyStatement, found_orElse]
  cases h with
  | edge hsrc harrow hblanks hdst hxs =>
      obtain ⟨f', hf, hend'⟩ := found_someAttributes_of hxs hend hc
      refine ⟨f', ?_, hend'⟩
      rw [found_edgeStatement_of hsrc harrow hblanks hdst hf]
      rfl
  | «attribute» hx =>
      refine ⟨b, ?_, hend⟩
      rw [found_attributeStatement_eq_some_iff.mpr ⟨_, rfl, hx⟩]
      cases hx with
      | mk hkey hequals _ _ =>
          rw [found_edgeStatement_eq_none hkey fun ds => by
            rw [hequals.dropWhile_eq_of_solid (solid_cons (by decide) _)]
            simp]
          rfl
  | defaults hword hblanks hxs =>
      have hid := hword.isId hblanks hxs
      refine ⟨b.dropWhile Text.isBlank, ?_, hend.dropWhile hc⟩
      rw [found_edgeStatement_eq_none hid (hxs.dropWhile_ne hblanks (by decide)),
        found_attributeStatement_eq_none hid (hxs.dropWhile_ne hblanks (by decide)),
        found_defaultsStatement_eq_some_iff.mpr ⟨_, _, _, _, _, hword, rfl, hblanks, hxs, rfl, rfl⟩]
      rfl
  | node hid hxs hkey =>
      obtain ⟨f', hf, hend'⟩ := found_someAttributes_of hxs hend hc
      refine ⟨f', ?_, hend'⟩
      rw [found_edgeStatement_eq_none hid (hxs.dropWhile_ne hend hc (.inr rfl)),
        found_attributeStatement_eq_none hid (hxs.dropWhile_ne hend hc (.inl rfl)),
        found_defaultsStatement_eq_none hid hxs hkey hend hc, found_nodeStatement_of hid hf]
      rfl

end Derivation

end FlowGraph.Dot
