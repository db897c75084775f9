import FlowGraph.Proofs.Dot.Accepted
import FlowGraph.Proofs.Reader.Complaints

/-!
Syntax errors. Whatever part of the reader complains, the text before its place is the beginning of
a graph: the parts that were read before stay what they were, and what was begun can be ended.
-/
namespace FlowGraph.Dot

open Reader FlowGraph.Dot.Derivation

variable {α β : Type} {text rest rest' mid q a b c : List Char} {r r' : Reader α}

namespace Derivation

/-! ## Texts that can stand behind others -/

/-- The text does not go on with a word. -/
def Closed (text : List Char) : Prop := ∀ c ∈ text.head?, ¬ IsWordChar c

theorem closed_nil : Closed [] := by simp [Closed]

theorem closed_cons {c : Char} (h : ¬ IsWordChar c) (cs : List Char) : Closed (c :: cs) := by
  intro d hd
  obtain rfl : c = d := by simpa using hd
  exact h

theorem Closed.append (h : Closed text) (h' : Closed rest) : Closed (text ++ rest) := by
  cases text with
  | nil => exact h'
  | cons c cs => exact h

/-- Words end before the one text if they end before the other. -/
def Replaces (rest' rest : List Char) : Prop := Closed rest' ∨ rest'.head? = rest.head?

theorem Replaces.append (c : List Char) (h : Replaces rest' rest) :
    Replaces (c ++ rest') (c ++ rest) := by
  cases c with
  | nil => exact h
  | cons d ds => exact .inr rfl

theorem Replaces.closed (h : Replaces rest' rest) (hr : Closed rest) : Closed rest' := by
  rcases h with h | h
  · exact h
  · rwa [Closed, h]

/-- A text with which the grammar can begin: it can be completed, whatever comes then. -/
def Begins (X : List Char → α → List Char → Prop) (text : List Char) : Prop :=
  ∃ s v, Closed s ∧ ∀ rest, Closed rest → X (text ++ (s ++ rest)) v rest

theorem Begins.mono {X Y : List Char → α → List Char → Prop} (h : Begins X text)
    (hX : ∀ a v b, X a v b → Y a v b) : Begins Y text := by
  obtain ⟨s, v, hs, h⟩ := h
  exact ⟨s, v, hs, fun rest hr => hX _ _ _ (h rest hr)⟩

/-- What the reader finds is derived, also before other texts, and it complains only behind
beginnings of what is derived. -/
structure Explains (r : Reader α) (X : List Char → α → List Char → Prop) : Prop where
  sound {text rest : List Char} {a : α} : r.found text = some (a, rest) →
    ∃ c, text = c ++ rest ∧ ∀ rest', Replaces rest' rest → X (c ++ rest') a rest'
  viable {text q : List Char} : Complains r text q → ∃ u, text = u ++ q ∧ Begins X u
  begins : Begins X []

namespace Explains

variable {X Y : List Char → α → List Char → Prop} {k : α → Reader β}
  {Z : α → List Char → β → List Char → Prop}

theorem mono (h : Explains r X) (hX : ∀ a v b, X a v b → Y a v b) : Explains r Y where
  sound hf := by
    obtain ⟨c, htext, hc⟩ := h.sound hf
    exact ⟨c, htext, fun rest' hr => hX _ _ _ (hc rest' hr)⟩
  viable hq := by
    obtain ⟨u, htext, hu⟩ := h.viable hq
    exact ⟨u, htext, hu.mono hX⟩
  begins := h.begins.mono hX

theorem pure (a : α) : Explains (Pure.pure a) fun text v rest => v = a ∧ text = rest where
  sound hf := by
    obtain ⟨rfl, rfl⟩ := found_pure_eq_some_iff.mp hf
    exact ⟨[], rfl, fun _ _ => ⟨rfl, rfl⟩⟩
  viable hq := absurd hq Complains.not_pure
  begins := ⟨[], a, closed_nil, fun _ _ => ⟨rfl, rfl⟩⟩

/-- One after the other. -/
theorem bind (h : Explains r X) (hk : ∀ a, Explains (k a) (Z a)) :
    Explains (r >>= k) fun text v rest => ∃ a mid, X text a mid ∧ Z a mid v rest where
  sound hf := by
    obtain ⟨a, mid, hr, hmid⟩ := found_bind_eq_some_iff.mp hf
    obtain ⟨c, rfl, hc⟩ := h.sound hr
    obtain ⟨d, rfl, hd⟩ := (hk a).sound hmid
    refine ⟨c ++ d, (List.append_assoc c d _).symm, fun rest' hrest => ⟨a, d ++ rest', ?_, hd _ hrest⟩⟩
    rw [List.append_assoc]
    exact hc _ (hrest.append d)
  viable hq := by
    rcases hq.bind with hfirst | ⟨a, mid, hr, hsecond⟩
    · -- The second reader begins at nothing and is completed behind the first.
      obtain ⟨u, htext, s, a, hs, hu⟩ := h.viable hfirst
      obtain ⟨s', v, hs', hv⟩ := (hk a).begins
      refine ⟨u, htext, s ++ s', v, hs.append hs', fun rest hrest => ⟨a, s' ++ rest, ?_, hv _ hrest⟩⟩
      rw [List.append_assoc]
      exact hu _ (hs'.append hrest)
    · obtain ⟨c, rfl, hc⟩ := h.sound hr
      obtain ⟨u, rfl, s, v, hs, hu⟩ := (hk a).viable hsecond
      refine ⟨c ++ u, (List.append_assoc c u _).symm, s, v, hs, fun rest hrest =>
        ⟨a, u ++ (s ++ rest), ?_, hu _ hrest⟩⟩
      rw [List.append_assoc]
      exact hc _ (Replaces.append u (.inl (hs.append hrest)))
  begins := by
    obtain ⟨s, a, hs, ha⟩ := h.begins
    obtain ⟨s', v, hs', hv⟩ := (hk a).begins
    refine ⟨s ++ s', v, hs.append hs', fun rest hrest => ⟨a, s' ++ rest, ?_, hv _ hrest⟩⟩
    rw [List.append_assoc]
    exact ha _ (hs'.append hrest)

theorem orElse (h : Explains r X) (h' : Explains r' X) : Explains (r <|> r') X where
  sound hf := by
    rw [found_orElse, Option.or_eq_some_iff] at hf
    rcases hf with hf | ⟨-, hf⟩
    · exact h.sound hf
    · exact h'.sound hf
  viable hq := by
    rcases hq.orElse with hq | hq
    · exact h.viable hq
    · exact h'.viable hq
  begins := h.begins

theorem labelled {name : String} (h : Explains r X) : Explains (labelled name r) X where
  sound hf := h.sound (found_labelled name r _ ▸ hf)
  viable hq := h.viable hq.labelled
  begins := h.begins

theorem optional (h : Explains r X) : Explains r.optional fun text o rest =>
    o = none ∧ text = rest ∨ ∃ v, o = some v ∧ X text v rest where
  sound hf := by
    rcases found_optional_eq_some_iff.mp hf with ⟨v, rfl, hv⟩ | ⟨rfl, rfl, -⟩
    · obtain ⟨c, htext, hc⟩ := h.sound hv
      exact ⟨c, htext, fun rest' hr => .inr ⟨v, rfl, hc _ hr⟩⟩
    · exact ⟨[], rfl, fun _ _ => .inl ⟨rfl, rfl⟩⟩
  viable hq := by
    obtain ⟨u, htext, s, v, hs, hu⟩ := h.viable hq.optional
    exact ⟨u, htext, s, some v, hs, fun rest hr => .inr ⟨v, rfl, hu _ hr⟩⟩
  begins := ⟨[], none, closed_nil, fun _ _ => .inl ⟨rfl, rfl⟩⟩

/-- Values one after the other can be taken before any more. -/
theorem passes (h : Explains r X) {T : List Char → List α → List Char → Prop}
    (hcons : ∀ {text mid rest v vs}, X text v mid → T mid vs rest → T text (v :: vs) rest)
    {vs : List α} (hp : Passes r text vs mid) :
    ∃ c, text = c ++ mid ∧ ∀ mid' us rest, Replaces mid' mid → T mid' us rest →
      T (c ++ mid') (vs ++ us) rest := by
  induction hp with
  | nil => exact ⟨[], rfl, fun _ _ _ _ hT => hT⟩
  | cons hv _ ih =>
      obtain ⟨d, rfl, hd⟩ := ih
      obtain ⟨c, rfl, hc⟩ := h.sound hv
      refine ⟨c ++ d, (List.append_assoc c d _).symm, fun mid' us rest hr hT => ?_⟩
      rw [List.append_assoc]
      exact hcons (hc _ (hr.append d)) (hd mid' us rest hr hT)

theorem many (h : Explains r X) {T : List Char → List α → List Char → Prop}
    (hnil : ∀ text, T text [] text)
    (hcons : ∀ {text mid rest v vs}, X text v mid → T mid vs rest → T text (v :: vs) rest) :
    Explains r.many T where
  sound hf := by
    obtain ⟨c, htext, hc⟩ := h.passes (T := T) hcons (passes_of_found_many hf)
    exact ⟨c, htext, fun rest' hr => by simpa using hc rest' [] rest' hr (hnil rest')⟩
  viable hq := by
    obtain ⟨vs, mid, hp, hlast⟩ := hq.many
    obtain ⟨c, rfl, hc⟩ := h.passes (T := T) hcons hp
    obtain ⟨u, rfl, s, v, hs, hu⟩ := h.viable hlast
    refine ⟨c ++ u, (List.append_assoc c u _).symm, s, vs ++ [v], hs, fun rest hr => ?_⟩
    rw [List.append_assoc]
    exact hc _ [v] rest (Replaces.append u (.inl (hs.append hr)))
      (hcons (hu rest hr) (hnil rest))
  begins := ⟨[], [], closed_nil, fun rest _ => hnil rest⟩

/-! ## Characters and blanks -/

/-- Where no character of the class stands, `x` completes the text. -/
theorem satisfy {p : Char → Bool} {es : List Expectation} {x : Char} (hp : p x)
    (hx : ¬ IsWordChar x) :
    Explains (Reader.satisfy p es) fun text c rest => p c ∧ text = c :: rest where
  sound hf := by
    obtain ⟨hc, rfl⟩ := found_satisfy_eq_some_iff.mp hf
    exact ⟨[_], rfl, fun _ _ => ⟨hc, rfl⟩⟩
  viable hq := by
    obtain rfl := hq.satisfy
    exact ⟨[], rfl, [x], x, closed_cons hx [], fun _ _ => ⟨hp, rfl⟩⟩
  begins := ⟨[x], x, closed_cons hx [], fun _ _ => ⟨hp, rfl⟩⟩

theorem char {x : Char} (hx : ¬ IsWordChar x) :
    Explains (Reader.char x) fun text _ rest => text = x :: rest := by
  refine (Explains.satisfy (x := x) (by simp) hx).mono ?_
  rintro text c rest ⟨hc, rfl⟩
  rw [beq_iff_eq.mp hc]

theorem word {w : List Char} (hw : ∀ c ∈ w, ¬ IsWordChar c) :
    Explains (Reader.word w) fun text _ rest => text = w ++ rest := by
  induction w with
  | nil => exact (Explains.pure ()).mono fun _ _ _ h => h.2
  | cons x xs ih =>
      obtain ⟨hx, hxs⟩ := List.forall_mem_cons.mp hw
      refine ((Explains.char hx).bind fun _ => ih hxs).mono ?_
      rintro text _ rest ⟨_, mid, rfl, rfl⟩
      rfl

theorem blanks : Explains Reader.blanks fun text _ rest => Skips text rest where
  sound hf := by
    rw [found_blanks] at hf
    obtain ⟨-, rfl⟩ := Prod.mk.inj (Option.some.inj hf)
    obtain ⟨bs, htext, hbs⟩ := skips_dropWhile _
    exact ⟨bs, htext, fun rest' _ => ⟨bs, rfl, hbs⟩⟩
  viable hq := absurd hq Complains.not_skip
  begins := ⟨[], (), closed_nil, fun rest _ => .refl rest⟩

theorem padded (h : Explains r X) : Explains (padded r) fun text v rest =>
    ∃ a b, Skips text a ∧ X a v b ∧ Skips b rest := by
  refine (blanks.bind fun _ => h.bind fun v => blanks.bind fun _ => .pure v).mono ?_
  rintro text v rest ⟨_, a, ha, _, b, hb, _, _, hskips, rfl, rfl⟩
  exact ⟨a, b, ha, hb, hskips⟩

theorem endOfInput : Explains Reader.endOfInput fun text _ rest => text = rest where
  sound {text rest _} hf := by
    rw [found_endOfInput] at hf
    split at hf
    · next htext =>
      obtain ⟨-, rfl⟩ := Prod.mk.inj (Option.some.inj hf)
      exact ⟨[], htext, fun _ _ => rfl⟩
    · simp at hf
  viable hq := ⟨[], hq.endOfInput.symm, [], (), closed_nil, fun _ _ => rfl⟩
  begins := ⟨[], (), closed_nil, fun _ _ => rfl⟩

end Explains

/-! ## Ids -/

theorem Id.frame {v : String} (h : Id a v b) :
    ∃ c, a = c ++ b ∧ ∀ b', Replaces b' b → Id (c ++ b') v b' := by
  cases h with
  | @quoted w m _ hw =>
      refine ⟨'"' :: (w ++ ['"']), by simp, fun b' _ => ?_⟩
      rw [List.cons_append, List.append_assoc, List.singleton_append]
      exact .quoted hw
  | bare hword =>
      obtain ⟨rfl, hne, hall, hend⟩ := hword
      exact ⟨_, rfl, fun b' hb => .bare ⟨rfl, hne, hall, hb.closed hend⟩⟩

theorem Spells.append {w m w' m' : List Char} (h : Spells w m) (h' : Spells w' m') :
    Spells (w ++ w') (m ++ m') := by
  induction h with
  | nil => exact h'
  | plain hq hb _ ih => exact .plain hq hb ih
  | escaped he _ ih => exact .escaped he ih

theorem begins_id : Begins Id [] :=
  ⟨['"', '"'], _, closed_cons (by simp [IsWordChar]) _, fun _ _ => .quoted .nil⟩

theorem begins_open {w m : List Char} (h : Spells w m) : Begins Id ('"' :: w) :=
  ⟨['"'], _, closed_cons (by simp [IsWordChar]) _, fun _ _ => .quoted h⟩

/-- Behind a backslash a quote is written, and then the text is closed. -/
theorem begins_escape {w m : List Char} (h : Spells w m) : Begins Id ('"' :: (w ++ ['\\'])) := by
  refine ⟨['"', '"'], String.ofList (m ++ ['"']), closed_cons (by simp [IsWordChar]) _,
    fun rest _ => ?_⟩
  have hquote : Spells ['\\', '"'] ['"'] := .escaped rfl .nil
  have htext : '"' :: (w ++ ['\\']) ++ (['"', '"'] ++ rest) =
      '"' :: (w ++ ['\\', '"'] ++ '"' :: rest) := by simp
  rw [htext]
  exact .quoted (h.append hquote)

theorem begins_word {w : List Char} (hne : w ≠ []) (hw : ∀ c ∈ w, IsWordChar c) : Begins Id w :=
  ⟨[], _, closed_nil, fun _ hr => .bare ⟨rfl, hne, hw, hr⟩⟩

theorem viable_letter {c : Char} {x : α}
    (h : Complains (do let _ ← Reader.char c; return x) text q) : q = text := by
  rcases h.bind with hletter | ⟨_, _, -, hpure⟩
  · exact hletter.satisfy
  · exact absurd hpure Complains.not_pure

theorem viable_escaped (h : Complains escaped text q) : q = text ∨ text = '\\' :: q := by
  rcases h.bind with hslash | ⟨_, mid, hc, hchoice⟩
  · exact .inl hslash.satisfy
  · obtain ⟨-, rfl⟩ := found_char_eq_some_iff.mp hc
    -- The four alternatives look at the same character.
    suffices hq : q = mid by rw [hq]; exact .inr rfl
    rcases hchoice.orElse with hfirst | hchoice
    · exact hfirst.satisfy
    rcases hchoice.orElse with hsecond | hchoice
    · exact hsecond.satisfy
    rcases hchoice.orElse with hthird | hfourth
    · exact viable_letter hthird
    · exact viable_letter hfourth

theorem viable_quotedChar (h : Complains (noneOf ['\\', '"'] <|> escaped) text q) :
    q = text ∨ text = '\\' :: q := by
  rcases h.orElse with hplain | hescaped
  · exact .inl hplain.satisfy
  · exact viable_escaped hescaped

theorem viable_quotedText (h : Complains quotedText text q) :
    ∃ u, text = u ++ q ∧ Begins Id u := by
  rcases h.labelled.bind with hopen | ⟨_, mid, hc, hbody⟩
  · exact ⟨[], hopen.satisfy.symm, begins_id⟩
  obtain ⟨-, rfl⟩ := found_char_eq_some_iff.mp hc
  rcases hbody.bind with hmany | ⟨cs, after, hcs, hclose⟩
  · obtain ⟨cs, after, hp, hlast⟩ := hmany.many
    obtain ⟨w, rfl, hw⟩ := spells_of_passes hp
    rcases viable_quotedChar hlast with rfl | rfl
    · exact ⟨'"' :: w, rfl, begins_open hw⟩
    · exact ⟨'"' :: (w ++ ['\\']), by simp, begins_escape hw⟩
  · obtain ⟨w, rfl, hw⟩ := spells_of_passes (passes_of_found_many hcs)
    obtain rfl := viable_letter hclose
    exact ⟨'"' :: w, rfl, begins_open hw⟩

theorem passes_ofClass {p : Char → Bool} {cs : List Char} (h : Passes (ofClass p) text cs rest) :
    text = cs ++ rest ∧ ∀ c ∈ cs, p c := by
  induction h with
  | nil => simp
  | cons hc _ ih =>
      obtain ⟨rfl, hcs⟩ := ih
      obtain ⟨hp, rfl⟩ := found_ofClass_eq_some_iff.mp hc
      exact ⟨rfl, List.forall_mem_cons.mpr ⟨hp, hcs⟩⟩

theorem viable_bareWord (h : Complains bareWord text q) : ∃ u, text = u ++ q ∧ Begins Id u := by
  rcases h.labelled.bind with hmany1 | ⟨_, _, -, hpure⟩
  · rcases hmany1.bind with hfirst | ⟨c, mid, hc, hothers⟩
    · exact ⟨[], hfirst.ofClass.symm, begins_id⟩
    · obtain ⟨hletter, rfl⟩ := found_ofClass_eq_some_iff.mp hc
      rcases hothers.bind with hmany | ⟨_, _, -, hpure⟩
      · obtain ⟨cs, after, hp, hlast⟩ := hmany.many
        obtain ⟨rfl, hcs⟩ := passes_ofClass hp
        have hword : ∀ d ∈ c :: cs, IsWordChar d := List.forall_mem_cons.mpr
          ⟨isWordChar_iff.mp hletter, fun d hd => isWordChar_iff.mp (hcs d hd)⟩
        exact ⟨c :: cs, by rw [hlast.ofClass]; rfl, begins_word (by simp) hword⟩
      · exact absurd hpure Complains.not_pure
  · exact absurd hpure Complains.not_pure

theorem explains_ident : Explains ident Id where
  sound hf := (found_ident_eq_some_iff.mp hf).frame
  viable hq := by
    rcases hq.labelled.orElse with hq | hq
    · exact viable_quotedText hq
    · exact viable_bareWord hq
  begins := begins_id

/-! ## Attribute lists -/

theorem explains_assignment : Explains assignment Assignment := by
  refine (explains_ident.bind fun key => (Explains.char (x := '=') (by simp [IsWordChar])).padded.bind
    fun _ => explains_ident.bind fun value => .pure (Attribute.mk key value)).mono ?_
  rintro text x rest ⟨key, b, hkey, _, d, ⟨_, c, hb, rfl, hc⟩, value, _, hvalue, rfl, rfl⟩
  exact .mk hkey hb hc hvalue

theorem explains_entry : Explains (padded assignment) Entry :=
  explains_assignment.padded.mono fun _ _ _ h => h

theorem explains_separator : Explains (oneOf [',', ';']) fun text c rest =>
    IsSeparator c ∧ text = c :: rest :=
  (Explains.satisfy (x := ',') rfl (by simp [IsWordChar])).mono fun _ _ _ h => by
    simpa [IsSeparator] using h

/-- The attributes behind an attribute, and maybe one more separator. -/
def More (a : List Char) (xs : List Attribute) (b : List Char) : Prop :=
  ∀ {text x rest}, Entry text x a → Closes b rest → Entries text (x :: xs) rest

theorem explains_more : Explains (many (oneOf [',', ';'] *> padded assignment)) More := by
  refine (explains_separator.bind fun _ => explains_entry).many (T := More) ?_ ?_
  · intro text a x rest hx hend
    rcases hend with rfl | ⟨s, hs, rfl⟩
    · exact .last hx
    · exact .more hx hs .none
  · rintro text mid rest y ys ⟨s, b, ⟨hs, rfl⟩, hy⟩ hmore a x c hx hend
    exact .more hx hs (hmore hy hend)

theorem explains_entries : Explains (separated (padded assignment) (oneOf [',', ';'])) Entries := by
  refine (explains_entry.optional.bind (Z := fun o text xs rest =>
    match o with
    | none => xs = [] ∧ text = rest
    | some x => ∃ ys mid, xs = x :: ys ∧ More text ys mid ∧ Closes mid rest) fun o => ?_).mono ?_
  · cases o with
    | none => exact .pure []
    | some x =>
        refine (explains_more.bind fun ys => explains_separator.optional.bind fun _ =>
          .pure (x :: ys)).mono ?_
        rintro text xs rest ⟨ys, mid, hys, o, _, hend, rfl, rfl⟩
        refine ⟨ys, mid, rfl, hys, ?_⟩
        rcases hend with ⟨-, h⟩ | ⟨s, -, h⟩
        · exact .inl h
        · exact .inr ⟨s, h⟩
  · rintro text xs rest ⟨o, mid, h, hxs⟩
    rcases h with ⟨rfl, rfl⟩ | ⟨x, rfl, hx⟩
    · obtain ⟨rfl, rfl⟩ := hxs
      exact .none
    · obtain ⟨ys, mid', rfl, hys, hend⟩ := hxs
      exact hys hx hend

theorem explains_attributeList : Explains attributeList AttributeList := by
  have hopen : Explains (Reader.char '[') _ := .char (by simp [IsWordChar])
  have hclose : Explains (Reader.char ']') _ := .char (by simp [IsWordChar])
  refine ((hopen.bind fun _ => explains_entries.bind fun xs => hclose.bind fun _ =>
    .pure xs).mono ?_).labelled
  rintro text xs rest ⟨_, a, rfl, _, _, hxs, _, _, rfl, rfl, rfl⟩
  exact .mk hxs

theorem explains_someAttributes : Explains someAttributes fun text xs rest =>
    ∃ mid, SomeAttributes text xs mid ∧ Skips mid rest := by
  refine (explains_attributeList.padded.optional.bind fun o => .pure (o.getD [])).mono ?_
  rintro text xs rest ⟨o, _, h, rfl, rfl⟩
  rcases h with ⟨rfl, rfl⟩ | ⟨xs, rfl, a, b, ha, hxs, hb⟩
  · exact ⟨_, .none, .refl _⟩
  · exact ⟨b, .some ha hxs, hb⟩

/-! ## Statements -/

/-- Some statement, with blanks behind it. -/
def AnyStatement (text : List Char) (_ : Statement) (rest : List Char) : Prop :=
  ∃ s mid, IsStatement text s mid ∧ Skips mid rest

/-- An id with its attributes is a node, or else it is read as defaults. -/
theorem exists_isStatement {id : String} {xs : List Attribute} (hid : Id a id b)
    (hxs : SomeAttributes b xs c) : ∃ s, IsStatement a s c := by
  cases hxs with
  | none => exact ⟨_, .node hid .none fun _ _ _ => rfl⟩
  | some hs hxs =>
      by_cases hword : ∃ word, IsKeyword word ∧ a = word ++ b
      · obtain ⟨word, hword, rfl⟩ := hword
        exact ⟨_, .defaults hword hs hxs⟩
      · exact ⟨_, .node hid (.some hs hxs) fun word hw ha => absurd ⟨word, hw, ha⟩ hword⟩

theorem explains_edgeStatement : Explains edgeStatement AnyStatement := by
  have harrow : Explains (Reader.word ['-', '>']) _ := .word (by simp [IsWordChar])
  refine ((explains_ident.bind fun src => harrow.padded.bind fun _ => explains_ident.bind fun dst =>
    explains_someAttributes.bind fun xs => .pure (Statement.edge src dst xs)).mono ?_).labelled
  rintro text s rest ⟨src, b, hsrc, _, d, ⟨_, c, hb, rfl, hc⟩, dst, e, hdst, xs, _,
    ⟨mid, hxs, hmid⟩, rfl, rfl⟩
  exact ⟨_, mid, .edge hsrc hb hc hdst hxs, hmid⟩

theorem explains_attributeStatement : Explains attributeStatement AnyStatement := by
  refine ((explains_assignment.bind fun x => .pure (Statement.attribute x)).mono ?_).labelled
  rintro text s rest ⟨x, _, hx, rfl, rfl⟩
  exact ⟨_, _, .attribute hx, .refl _⟩

theorem explains_nodeStatement : Explains nodeStatement AnyStatement := by
  refine ((explains_ident.bind fun id => explains_someAttributes.bind fun xs =>
    .pure (Statement.node id xs)).mono ?_).labelled
  rintro text s rest ⟨id, b, hid, xs, _, ⟨mid, hxs, hmid⟩, rfl, rfl⟩
  obtain ⟨s, hs⟩ := exists_isStatement hid hxs
  exact ⟨s, mid, hs, hmid⟩

/-- A word is read up to the first character that is not its own. -/
theorem viable_word {w : List Char} (h : Complains (Reader.word w) text q) :
    ∃ u v, w = u ++ v ∧ text = u ++ q := by
  induction w generalizing text with
  | nil => exact absurd h Complains.not_pure
  | cons x xs ih =>
      rcases h.bind with hfirst | ⟨_, mid, hc, hothers⟩
      · exact ⟨[], _, rfl, hfirst.satisfy.symm⟩
      · obtain ⟨-, rfl⟩ := found_char_eq_some_iff.mp hc
        obtain ⟨u, v, rfl, rfl⟩ := ih hothers
        exact ⟨x :: u, v, rfl, rfl⟩

theorem viable_keyword {name : String} (h : Complains (keyword name) text q) :
    ∃ u v, name.toList = u ++ v ∧ text = u ++ q := by
  rcases h.bind with hword | ⟨_, _, -, hpure⟩
  · exact viable_word hword
  · exact absurd hpure Complains.not_pure

/-- The beginning of a keyword is an id. -/
theorem begins_keyword {word u v : List Char} (hword : IsKeyword word) (hu : word = u ++ v) :
    Begins AnyStatement u := by
  have hid : Begins Id u := by
    cases u with
    | nil => exact begins_id
    | cons c cs =>
        exact begins_word (by simp) fun d hd => hword.isWordChar d (hu ▸ List.mem_append_left v hd)
  obtain ⟨s, id, hs, hid⟩ := hid
  exact ⟨s, .node id [], hs, fun rest hr =>
    ⟨_, rest, .node (hid rest hr) .none fun _ _ _ => rfl, .refl rest⟩⟩

theorem explains_defaultsStatement : Explains defaultsStatement AnyStatement where
  sound {text rest s} hf := by
    rw [defaultsStatement, found_labelled] at hf
    obtain ⟨target, a, htarget, hlist⟩ := found_bind_eq_some_iff.mp hf
    obtain ⟨word, hword, -, rfl⟩ := found_keywords_eq_some_iff.mp htarget
    obtain ⟨xs, b, hxs, hpure⟩ := found_bind_eq_some_iff.mp hlist
    obtain ⟨-, rfl⟩ := found_pure_eq_some_iff.mp hpure
    obtain ⟨c, rfl, hc⟩ := explains_attributeList.padded.sound hxs
    refine ⟨word ++ c, (List.append_assoc word c _).symm, fun rest' hr => ?_⟩
    obtain ⟨a, b, ha, hxs, hb⟩ := hc rest' hr
    rw [List.append_assoc]
    exact ⟨_, b, .defaults hword ha hxs, hb⟩
  viable {text q} hq := by
    rcases hq.labelled.bind with hkey | ⟨target, a, htarget, hlist⟩
    · have hkeyword : ∃ word u v, IsKeyword word ∧ word = u ++ v ∧ text = u ++ q := by
        rcases hkey.orElse with hgraph | hkey
        · obtain ⟨u, v, hu, htext⟩ := viable_keyword hgraph
          exact ⟨_, u, v, .inl rfl, hu, htext⟩
        rcases hkey.orElse with hnode | hedge
        · obtain ⟨u, v, hu, htext⟩ := viable_keyword hnode
          exact ⟨_, u, v, .inr (.inl rfl), hu, htext⟩
        · obtain ⟨u, v, hu, htext⟩ := viable_keyword hedge
          exact ⟨_, u, v, .inr (.inr rfl), hu, htext⟩
      obtain ⟨word, u, v, hword, hu, htext⟩ := hkeyword
      exact ⟨u, htext, begins_keyword hword hu⟩
    · obtain ⟨word, hword, -, rfl⟩ := found_keywords_eq_some_iff.mp htarget
      rcases hlist.bind with hlist | ⟨_, _, -, hpure⟩
      · obtain ⟨u, rfl, s, xs, hs, hu⟩ := explains_attributeList.padded.viable hlist
        refine ⟨word ++ u, (List.append_assoc word u _).symm, s,
          .defaults (String.ofList word) xs, hs, fun rest hr => ?_⟩
        obtain ⟨a, b, ha, hxs, hb⟩ := hu rest hr
        rw [List.append_assoc]
        exact ⟨_, b, .defaults hword ha hxs, hb⟩
      · exact absurd hpure Complains.not_pure
  begins := begins_keyword (.inl rfl) (List.nil_append _).symm

theorem explains_statement : Explains statement fun text _ rest =>
    ∃ s mid, IsStatement text s mid ∧ Ends mid rest := by
  have hany : Explains (edgeStatement <|> attributeStatement <|> defaultsStatement <|>
      nodeStatement) AnyStatement := explains_edgeStatement.orElse
    (explains_attributeStatement.orElse (explains_defaultsStatement.orElse explains_nodeStatement))
  have hmark : Explains (Reader.char ';') _ := .char (by simp [IsWordChar])
  refine ((hany.bind fun s => hmark.padded.optional.bind fun _ => .pure s).mono ?_).labelled
  rintro text _ rest ⟨_, a, ⟨s, mid, hs, hmid⟩, o, _, hend, rfl, rfl⟩
  refine ⟨s, mid, hs, ?_⟩
  rcases hend with ⟨-, rfl⟩ | ⟨_, -, _, b, ha, rfl, hb⟩
  · exact .bare hmid
  · exact .marked (hmid.trans ha) hb

theorem explains_statements : Explains (many (padded statement)) fun text _ rest =>
    ∃ ss mid, Skips text mid ∧ Statements mid ss rest := by
  refine explains_statement.padded.many (T := fun text _ rest => ∃ ss mid, Skips text mid ∧
    Statements mid ss rest) (fun text => ⟨[], text, .refl text, .nil⟩) ?_
  rintro text mid rest _ _ ⟨a, b, ha, ⟨s, c, hs, hc⟩, hb⟩ ⟨ss, d, hd, hss⟩
  exact ⟨s :: ss, a, ha, .cons hs (hc.skips (hb.trans hd)) hss⟩

/-! ## Graphs -/

/-- What stands behind the first word of a graph. -/
def Body (text : List Char) (_ : Graph) (rest : List Char) : Prop :=
  ∃ o ss c d e f, SomeId text o c ∧ Skips c ('\x7b' :: d) ∧ Skips d e ∧
    Statements e ss ('\x7d' :: f) ∧ Skips f rest

theorem Body.digraph {g : Graph} (h : Body b g []) (ha : Skips a ("digraph".toList ++ c))
    (hc : Skips c b) : ∃ g, Digraph a g := by
  obtain ⟨o, ss, d, e, f, z, hid, hopen, hblanks, hss, hend⟩ := h
  cases hid with
  | none => exact ⟨_, .mk ha .none (hc.trans hopen) hblanks hss hend⟩
  | some hs hid => exact ⟨_, .mk ha (.some (hc.trans hs) hid) hopen hblanks hss hend⟩

/-- Blanks behind the last statement are skipped with it, or before all of them. -/
theorem Statements.skips {ss : List Statement} (h : Statements a ss b) (hs : Skips b c) :
    ∃ a', Skips a a' ∧ Statements a' ss c := by
  induction h with
  | nil => exact ⟨c, hs, .nil⟩
  | cons hd hend _ ih =>
      obtain ⟨d, hskips, hss⟩ := ih hs
      exact ⟨_, .refl _, .cons hd (hend.skips hskips) hss⟩

theorem Digraph.braces (ha : Skips a ("digraph".toList ++ ['\x7b', '\x7d'])) :
    Digraph a ⟨none, []⟩ :=
  .mk ha .none (.refl _) (.refl _) .nil (.refl _)

/-- Where the reader of graphs complains, the text before can be completed to a graph. -/
theorem viable_digraph (h : Complains digraph text q) :
    ∃ u s g, text = u ++ q ∧ Digraph (u ++ s) g := by
  have hopen : Explains (Reader.char '\x7b') _ := .char (by simp [IsWordChar])
  have hclose : Explains (Reader.char '\x7d') _ := .char (by simp [IsWordChar])
  have hbody : Explains _ Body := (explains_ident.padded.optional.bind fun name =>
    hopen.padded.bind fun _ => explains_statements.bind fun ss => hclose.padded.bind fun _ =>
      Explains.endOfInput.bind fun _ => .pure (Graph.mk name ss)).mono (by
    rintro text _ rest ⟨o, c, hid, _, d, ⟨_, _, hc, rfl, hd⟩, _, e, ⟨ss, e', he, hss⟩, _, f,
      ⟨_, z, hbrace, rfl, hz⟩, _, _, rfl, rfl, rfl⟩
    obtain ⟨a, ha, hss⟩ := hss.skips hbrace
    rcases hid with ⟨-, rfl⟩ | ⟨id, -, a', b', ha', hid, hb'⟩
    · exact ⟨none, ss, _, _, a, z, .none, hc, hd.trans (he.trans ha), hss, hz⟩
    · exact ⟨some id, ss, b', _, a, z, .some ha' hid, hb'.trans hc, hd.trans (he.trans ha), hss, hz⟩)
  rcases h.labelled.bind with hword | ⟨_, mid, hword, hrest⟩
  · -- The first word may have come to an end at once.
    obtain ⟨bs, htext, hbs⟩ := skips_dropWhile text
    rcases hword.padded.bind with hword | ⟨_, _, -, hpure⟩
    · obtain ⟨u, v, huv, hu⟩ := viable_keyword hword
      refine ⟨bs ++ u, v ++ ['\x7b', '\x7d'], _, by rw [List.append_assoc, ← hu]; exact htext,
        .braces ⟨bs, ?_, hbs⟩⟩
      rw [huv, List.append_assoc, List.append_assoc]
    · exact absurd hpure Complains.not_pure
  · obtain ⟨b, ⟨bs, rfl, hbs⟩, rfl⟩ := found_digraphWord_eq_some_iff.mp hword
    obtain ⟨cs, hb, hcs⟩ := skips_dropWhile b
    obtain ⟨u, hu, s, g, -, hg⟩ := hbody.viable hrest
    obtain ⟨g, hg⟩ := (hg [] closed_nil).digraph (a := bs ++ ("digraph".toList ++ (cs ++ u)) ++ s)
      (c := cs ++ (u ++ (s ++ []))) ⟨bs, by simp, hbs⟩ ⟨cs, rfl, hcs⟩
    refine ⟨_, s, g, ?_, hg⟩
    rw [hb, hu]
    simp

end Derivation

/-- A text that is no graph has one error, without a file. It covers the character at its place, or
nothing at the end of the text, and what stands before it can be completed to a graph. -/
theorem Graph.read_error {source : String} {e : SyntaxError} (h : Graph.read source = .error e) :
    e.file = none ∧ e.start ≤ e.stop ∧ e.stop ≤ source.utf8ByteSize ∧
      ∃ before found after : String, source = before ++ found ++ after ∧
        e.start = before.utf8ByteSize ∧ e.stop = (before ++ found).utf8ByteSize ∧
        (found.length = 1 ∨ found = "" ∧ after = "") ∧
        ∃ completion g, Graph.read (before ++ completion) = .ok g := by
  obtain ⟨hfile, q, hq, hstart, hstop⟩ := run_eq_error h
  obtain ⟨u, s, g, htext, hg⟩ : ∃ u s g, source.toList = u ++ q ∧ Digraph (u ++ s) g := by
    rcases hq with rfl | hq
    · exact ⟨[], "digraph\x7b\x7d".toList, _, rfl, .braces (.refl _)⟩
    · exact viable_digraph hq
  have hq' : q = q.take 1 ++ q.tail := by rw [← List.drop_one, List.take_append_drop]
  have hrest : Text.byteSize q = Text.byteSize (q.take 1) + Text.byteSize q.tail := by
    rw [← Text.byteSize_append, ← hq']
  have hsize : Text.byteSize source.toList = Text.byteSize u + Text.byteSize q := by
    rw [htext, Text.byteSize_append]
  refine ⟨hfile, by omega, by rw [Text.utf8ByteSize_eq]; omega, String.ofList u,
    String.ofList (q.take 1), String.ofList q.tail, ?_, ?_, ?_, ?_, String.ofList s, g,
    read_of_digraph (by simpa using hg)⟩
  · rw [← String.ofList_append, ← String.ofList_append, List.append_assoc, ← hq', ← htext,
      String.ofList_toList]
  · rw [Text.utf8ByteSize_eq, String.toList_ofList]
    omega
  · rw [Text.utf8ByteSize_eq, ← String.ofList_append, String.toList_ofList, Text.byteSize_append]
    omega
  · cases q with
    | nil => exact .inr ⟨rfl, rfl⟩
    | cons c cs => exact .inl (by simp)

/-- An arrow that leads nowhere, behind a character of two bytes. -/
theorem Graph.read_error_arrow :
    let source := "digraph \x7b \"é\" -> ; \x7d"
    ∃ e, Graph.read source = .error e ∧ e.start = 18 ∧ e.stop = 19 ∧
      ∃ before found after : String, source = before ++ found ++ after ∧
        before.utf8ByteSize = 18 ∧ found.length = 1 ∧
        ∃ completion g, Graph.read (before ++ completion) = .ok g := by
  intro source
  have hread : Graph.read source = .error
      { message := "found ';' expected id", start := 18, stop := 19 } := by
    subst source
    cbv
  obtain ⟨-, -, -, before, found, after, hsource, hstart, hstop, hfound, hcompletion⟩ :=
    Graph.read_error hread
  refine ⟨_, hread, rfl, rfl, before, found, after, hsource, hstart.symm, ?_, hcompletion⟩
  rcases hfound with hfound | ⟨rfl, -⟩
  · exact hfound
  · have hsame : 19 = before.utf8ByteSize := by simpa using hstop
    exact absurd (hstart.trans hsame.symm) (by decide)

end FlowGraph.Dot
