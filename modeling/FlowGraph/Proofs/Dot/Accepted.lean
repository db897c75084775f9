import FlowGraph.Proofs.Dot.Reading

/-!
The reader accepts exactly the texts of the grammar, and what it returns is what the text stands
for. Every statement is read up to the beginning of the next one, so the repetition of statements
neither stops early nor goes on into the end of the graph.
-/
namespace FlowGraph.Dot

open Reader FlowGraph.Dot.Derivation

variable {text rest a b c d e f : List Char} {id : Option String} {x : Attribute}
  {xs : List Attribute} {s : Statement} {ss : List Statement} {g : Graph}

namespace Derivation

/-! ## Sizes -/

theorem Entries.byteSize_le (h : Entries a xs b) : Text.byteSize b ≤ Text.byteSize a := by
  induction h with
  | none => exact Nat.le_refl _
  | last hx => exact hx.byteSize_lt.le
  | more hx _ _ ih =>
      exact ih.trans ((Text.byteSize_lt_cons _ _).le.trans hx.byteSize_lt.le)

theorem AttributeList.byteSize_lt (h : AttributeList a xs b) :
    Text.byteSize b < Text.byteSize a := by
  cases h with
  | mk hxs =>
      exact (Text.byteSize_lt_cons _ _).trans_le
        (hxs.byteSize_le.trans (Text.byteSize_lt_cons _ _).le)

theorem SomeAttributes.byteSize_le (h : SomeAttributes a xs b) :
    Text.byteSize b ≤ Text.byteSize a := by
  cases h with
  | none => exact Nat.le_refl _
  | some hskips hxs => exact hxs.byteSize_lt.le.trans hskips.byteSize_le

theorem Ends.byteSize_le (h : Ends a b) : Text.byteSize b ≤ Text.byteSize a := by
  cases h with
  | bare h => exact h.byteSize_le
  | marked h h' =>
      exact h'.byteSize_le.trans ((Text.byteSize_lt_cons _ _).le.trans h.byteSize_le)

theorem IsStatement.byteSize_lt (h : IsStatement a s b) : Text.byteSize b < Text.byteSize a := by
  cases h with
  | edge hsrc harrow hblanks hdst hxs =>
      have h1 := hsrc.byteSize_lt
      have h2 := harrow.byteSize_le
      have h3 := hblanks.byteSize_le
      have h4 := hdst.byteSize_lt
      have h5 := hxs.byteSize_le
      simp only [Text.byteSize_cons] at h2
      omega
  | «attribute» hx => exact hx.byteSize_lt
  | defaults hword hblanks hxs =>
      have h1 := (hword.isId hblanks hxs).byteSize_lt
      have h2 := hblanks.byteSize_le
      have h3 := hxs.byteSize_lt
      omega
  | node hid hxs _ => exact hxs.byteSize_le.trans_lt hid.byteSize_lt

/-! ## Statements and their ends -/

theorem edge_of_found (h : found edgeStatement a = some (s, rest)) :
    ∃ b, IsStatement a s b ∧ Skips b rest := by
  rw [edgeStatement, found_labelled] at h
  obtain ⟨src, b, hsrc, h1⟩ := found_bind_eq_some_iff.mp h
  obtain ⟨_, d, harrow, h2⟩ := found_bind_eq_some_iff.mp h1
  obtain ⟨dst, e, hdst, h3⟩ := found_bind_eq_some_iff.mp h2
  obtain ⟨xs, f, hxs, h4⟩ := found_bind_eq_some_iff.mp h3
  obtain ⟨rfl, rfl⟩ := found_pure_eq_some_iff.mp h4
  obtain ⟨c, hc, rfl⟩ := found_padded_eq_some_iff.mp harrow
  obtain ⟨mid, hmid, hskips⟩ := someAttributes_of_found hxs
  have hb := skips_dropWhile b
  rw [found_word_eq_some_iff.mp hc] at hb
  exact ⟨mid, .edge (found_ident_eq_some_iff.mp hsrc) hb (skips_dropWhile c)
    (found_ident_eq_some_iff.mp hdst) hmid, hskips⟩

/-- Where no defaults are found, a keyword has no list behind it. -/
theorem node_of_found (hnone : found defaultsStatement a = none)
    (h : found nodeStatement a = some (s, rest)) : ∃ b, IsStatement a s b ∧ Skips b rest := by
  rw [nodeStatement, found_labelled] at h
  obtain ⟨id, b, hid, h1⟩ := found_bind_eq_some_iff.mp h
  obtain ⟨xs, f, hxs, h2⟩ := found_bind_eq_some_iff.mp h1
  obtain ⟨rfl, rfl⟩ := found_pure_eq_some_iff.mp h2
  obtain ⟨mid, hmid, hskips⟩ := someAttributes_of_found hxs
  refine ⟨mid, .node (found_ident_eq_some_iff.mp hid) hmid ?_, hskips⟩
  rintro word hword rfl
  cases hmid with
  | none => rfl
  | some hblanks hlist =>
      have hsome := found_defaultsStatement_eq_some_iff.mpr
        ⟨word, b, _, _, _, hword, rfl, hblanks, hlist, rfl, rfl⟩
      exact absurd (hnone.symm.trans hsome) (by simp)

theorem isStatement_of_found (h : found anyStatement a = some (s, rest)) :
    ∃ b, IsStatement a s b ∧ Skips b rest := by
  simp only [anyStatement, found_orElse, Option.or_eq_some_iff] at h
  rcases h with hedge | ⟨-, hattribute | ⟨-, hdefaults | ⟨hnone, hnode⟩⟩⟩
  · exact edge_of_found hedge
  · obtain ⟨x, rfl, hx⟩ := found_attributeStatement_eq_some_iff.mp hattribute
    exact ⟨rest, .attribute hx, .refl rest⟩
  · obtain ⟨word, a, b, c, xs, hword, rfl, hblanks, hxs, rfl, rfl⟩ :=
      found_defaultsStatement_eq_some_iff.mp hdefaults
    exact ⟨c, .defaults hword hblanks hxs, skips_dropWhile c⟩
  · exact node_of_found hnone hnode

theorem ends_of_found {o : Option Char}
    (h : found (padded (char ';')).optional a = some (o, b)) : Ends a b := by
  rcases found_optional_eq_some_iff.mp h with ⟨q, -, hq⟩ | ⟨-, rfl, -⟩
  · obtain ⟨mid, hmid, rfl⟩ := found_padded_eq_some_iff.mp hq
    exact .marked ((found_char_eq_some_iff.mp hmid).2 ▸ skips_dropWhile a) (skips_dropWhile mid)
  · exact .bare (.refl b)

theorem found_semicolon_of (h : Ends a c) (hc : Starts c) :
    ∃ o b, found (padded (char ';')).optional a = some (o, b) ∧
      b.dropWhile Text.isBlank = c := by
  rcases h.dropWhile_eq hc with ha | ⟨d, ha, hd⟩
  · refine ⟨none, a, found_optional_none ?_, ha⟩
    rw [found_padded, ha, found_char_eq_none (hc.ne_cons (.inr (.inl rfl)))]
    rfl
  · refine ⟨some ';', c, found_optional_of (found_padded_eq_some_iff.mpr ⟨d, ?_, ?_⟩),
      hc.solid.dropWhile_eq⟩
    · rw [ha, found_char_self]
    · exact (hd.dropWhile_eq_of_solid hc.solid).symm

theorem found_statement_of (h : IsStatement a s b) (hend : Ends b c) (hc : Starts c) :
    found (padded statement) a = some (s, c) := by
  obtain ⟨f, hf, hend'⟩ := found_anyStatement_of h hend hc
  obtain ⟨o, d, ho, hd⟩ := found_semicolon_of hend' hc
  refine found_padded_eq_some_iff.mpr ⟨d, ?_, hd.symm⟩
  rw [h.startsId.starts.solid.dropWhile_eq, statement, found_labelled, ← anyStatement,
    found_bind_of hf, found_bind_of ho, found_pure]

theorem statement_of_found (h : found (padded statement) a = some (s, c)) :
    ∃ b, IsStatement (a.dropWhile Text.isBlank) s b ∧ Ends b c ∧ Solid c := by
  obtain ⟨d, hd, rfl⟩ := found_padded_eq_some_iff.mp h
  rw [statement, found_labelled, ← anyStatement] at hd
  obtain ⟨s', f, hf, h'⟩ := found_bind_eq_some_iff.mp hd
  obtain ⟨o, e, ho, he⟩ := found_bind_eq_some_iff.mp h'
  obtain ⟨rfl, rfl⟩ := found_pure_eq_some_iff.mp he
  obtain ⟨b, hs, hb⟩ := isStatement_of_found hf
  exact ⟨b, hs, ((ends_of_found ho).of_skips hb).skips (skips_dropWhile _), solid_dropWhile _⟩

theorem consumes_statement : Consumes (padded statement) := by
  intro a c s h
  obtain ⟨b, hs, hend, -⟩ := statement_of_found h
  exact hend.byteSize_le.trans_lt (hs.byteSize_lt.trans_le (skips_dropWhile a).byteSize_le)

theorem found_statement_brace (f : List Char) :
    found (padded statement) ('\x7d' :: f) = none := by
  refine found_eq_none fun hf => ?_
  obtain ⟨b, hs, -, -⟩ := statement_of_found hf
  rw [(solid_cons (by decide) f).dropWhile_eq] at hs
  exact hs.startsId.ne_cons (by simp [IsWordChar]) f rfl

/-- The repetition goes through all statements and stops at the brace. -/
theorem finds_of_statements (h : Statements e ss ('\x7d' :: f)) :
    Finds (padded statement) e ss ('\x7d' :: f) := by
  generalize hr : '\x7d' :: f = rest at h
  induction h with
  | nil =>
      subst hr
      exact .stop (found_statement_brace f)
  | cons hs hend hss ih =>
      subst hr
      exact .more (found_statement_of hs hend hss.starts) (ih rfl)

theorem statements_of_finds (h : Finds (padded statement) e ss rest) (he : Solid e) :
    Statements e ss rest ∧ Solid rest := by
  -- Blanks are skipped behind each statement, so the next one begins where the reader stands.
  induction h with
  | stop _ => exact ⟨.nil, he⟩
  | more hf _ ih =>
      obtain ⟨b, hs, hend, hc⟩ := statement_of_found hf
      rw [he.dropWhile_eq] at hs
      exact ⟨.cons hs hend (ih hc).1, (ih hc).2⟩

/-! ## Whole texts -/

theorem someId_of_found
    (h : found (padded ident).optional (b.dropWhile Text.isBlank) = some (id, c)) :
    ∃ mid, SomeId b id mid ∧ Skips mid c := by
  rcases found_optional_eq_some_iff.mp h with ⟨name, rfl, hname⟩ | ⟨rfl, rfl, -⟩
  · obtain ⟨mid, hmid, rfl⟩ := found_padded_eq_some_iff.mp hname
    exact ⟨mid, .some ((skips_dropWhile b).trans (skips_dropWhile _))
      (found_ident_eq_some_iff.mp hmid), skips_dropWhile mid⟩
  · exact ⟨b, .none, skips_dropWhile b⟩

theorem found_ident_brace (d : List Char) : found ident ('\x7b' :: d) = none :=
  found_eq_none fun hf =>
    (found_ident_eq_some_iff.mp hf).startsId.ne_cons (by simp [IsWordChar]) d rfl

/-- The id of a graph is read if there is one before the brace. -/
theorem found_someId_of (h : SomeId b id c) (hc : Skips c ('\x7b' :: d)) :
    ∃ mid, found (padded ident).optional (b.dropWhile Text.isBlank) = some (id, mid) ∧
      mid.dropWhile Text.isBlank = '\x7b' :: d := by
  have hbrace := hc.dropWhile_eq_of_solid (solid_cons (by decide) d)
  cases h with
  | none =>
      refine ⟨_, found_optional_none ?_, ?_⟩
      · rw [found_padded, (solid_dropWhile b).dropWhile_eq, hbrace, found_ident_brace]
        rfl
      · rw [(solid_dropWhile b).dropWhile_eq, hbrace]
  | some hb hid =>
      refine ⟨'\x7b' :: d, found_optional_of (found_padded_eq_some_iff.mpr ⟨c, ?_, hbrace.symm⟩),
        (solid_cons (by decide) d).dropWhile_eq⟩
      rw [(solid_dropWhile b).dropWhile_eq, hb.dropWhile_eq_of_solid hid.solid]
      exact found_ident_eq_some_iff.mpr hid

theorem found_padded_char {q : Char} (hq : ¬ Text.isBlank q) (h : Skips a (q :: b))
    (hb : b.dropWhile Text.isBlank = c) : found (padded (char q)) a = some (q, c) := by
  refine found_padded_eq_some_iff.mpr ⟨b, ?_, hb.symm⟩
  rw [h.dropWhile_eq_of_solid (solid_cons hq b), found_char_self]

theorem skips_of_found_padded_char {q q' : Char} (h : found (padded (char q)) a = some (q', c)) :
    ∃ b, Skips a (q :: b) ∧ c = b.dropWhile Text.isBlank := by
  obtain ⟨b, hq, rfl⟩ := found_padded_eq_some_iff.mp h
  exact ⟨b, (found_char_eq_some_iff.mp hq).2 ▸ skips_dropWhile a, rfl⟩

theorem solid_digraph (b : List Char) : Solid ("digraph".toList ++ b) := solid_cons (by decide) _

theorem found_digraphWord_eq_some_iff :
    found (padded (keyword "digraph" *> pure ())) a = some ((), c) ↔
      ∃ b, Skips a ("digraph".toList ++ b) ∧ c = b.dropWhile Text.isBlank := by
  have hword : ∀ {a b}, found (keyword "digraph" *> pure ()) a = some ((), b) ↔
      a = "digraph".toList ++ b := by
    intro a b
    rw [found_seqRight, Option.bind_eq_some_iff]
    constructor
    · rintro ⟨⟨_, d⟩, hd, hb⟩
      obtain ⟨-, rfl⟩ := found_pure_eq_some_iff.mp hb
      exact (found_keyword_eq_some_iff.mp hd).2
    · rintro rfl
      exact ⟨("digraph", b), found_keyword_eq_some_iff.mpr ⟨rfl, rfl⟩, found_pure _ _⟩
  rw [found_padded_eq_some_iff]
  constructor
  · rintro ⟨b, hb, rfl⟩
    exact ⟨b, hword.mp hb ▸ skips_dropWhile a, rfl⟩
  · rintro ⟨b, hb, rfl⟩
    exact ⟨b, hword.mpr (hb.dropWhile_eq_of_solid (solid_digraph b)), rfl⟩

theorem digraph_of_found (h : found digraph a = some (g, rest)) : Digraph a g := by
  rw [digraph, found_labelled] at h
  obtain ⟨_, b', hword, h1⟩ := found_bind_eq_some_iff.mp h
  obtain ⟨id, c', hid, h2⟩ := found_bind_eq_some_iff.mp h1
  obtain ⟨_, e, hopen, h3⟩ := found_bind_eq_some_iff.mp h2
  obtain ⟨ss, r, hss, h4⟩ := found_bind_eq_some_iff.mp h3
  obtain ⟨_, z, hclose, h5⟩ := found_bind_eq_some_iff.mp h4
  obtain ⟨_, z', hz, h6⟩ := found_bind_eq_some_iff.mp h5
  obtain ⟨rfl, rfl⟩ := found_pure_eq_some_iff.mp h6
  obtain ⟨b, hb, rfl⟩ := found_digraphWord_eq_some_iff.mp hword
  obtain ⟨mid, hmid, hc⟩ := someId_of_found hid
  obtain ⟨d, hd, rfl⟩ := skips_of_found_padded_char hopen
  obtain ⟨f, hf, rfl⟩ := skips_of_found_padded_char hclose
  obtain ⟨hstatements, hr⟩ := statements_of_finds
    ((found_many_eq_some_iff consumes_statement).mp hss) (solid_dropWhile d)
  obtain rfl : r = '\x7d' :: f :=
    hr.dropWhile_eq.symm.trans (hf.dropWhile_eq_of_solid (solid_cons (by decide) f))
  have hnil : f.dropWhile Text.isBlank = [] := by
    by_contra hne
    simp [hne] at hz
  exact .mk hb hmid (hc.trans hd) (skips_dropWhile d) hstatements (hnil ▸ skips_dropWhile f)

theorem found_digraph_of (h : Digraph a g) : found digraph a = some (g, []) := by
  cases h with
  | mk hword hid hopen hblanks hss hend =>
      rename_i b c d e f id ss
      obtain ⟨mid, hmid, hbrace⟩ := found_someId_of hid hopen
      have hfirst : d.dropWhile Text.isBlank = e := hblanks.dropWhile_eq_of_solid hss.starts.solid
      have hlast : f.dropWhile Text.isBlank = [] := hend.dropWhile_eq
      have hopen' : Skips mid ('\x7b' :: d) := hbrace ▸ skips_dropWhile mid
      have hdigraph := found_digraphWord_eq_some_iff.mpr ⟨b, hword, rfl⟩
      rw [digraph, found_labelled, found_bind_of hdigraph, found_bind_of hmid,
        found_bind_of (found_padded_char (by decide) hopen' hfirst),
        found_bind_of ((found_many_eq_some_iff consumes_statement).mpr (finds_of_statements hss)),
        found_bind_of (found_padded_char (by decide) (.refl _) hlast)]
      rfl

end Derivation

theorem Graph.digraph_of_read {source : String} (h : Graph.read source = .ok g) :
    Derivation.Digraph source.toList g := by
  obtain ⟨rest, hfound⟩ := (run_eq_ok_iff _ _ _).mp h
  exact digraph_of_found hfound

theorem Graph.read_of_digraph {source : String} (h : Derivation.Digraph source.toList g) :
    Graph.read source = .ok g :=
  (run_eq_ok_iff _ _ _).mpr ⟨[], found_digraph_of h⟩

/-- A text is read as a graph exactly if the grammar derives the graph from it. -/
theorem Graph.read_eq_ok_iff (source : String) (g : Graph) :
    Graph.read source = .ok g ↔ Derivation.Digraph source.toList g :=
  ⟨digraph_of_read, read_of_digraph⟩

end FlowGraph.Dot
