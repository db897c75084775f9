import FlowGraph.Dot.Lexeme
import FlowGraph.Proofs.Dot.Accepted

/-!
Blanks between tokens. Two texts with the same tokens stand for the same graph, however far apart
the tokens are, except that the bracket which closes an attribute list has to stand right behind
the one that opens it, or behind the last separator.
-/
namespace FlowGraph.Dot

open FlowGraph.Dot.Derivation

variable {a b c d e f a' b' gap gap' tok tok' rest rest' text post : List Char} {q : Char}
  {v : String} {x : Attribute} {xs : List Attribute} {s : Statement} {ss : List Statement}
  {g : Graph} {o : Option String} {ts us : List (List Char)}

namespace Derivation

/-! ## Gaps -/

theorem Blanks.skips (h : Blanks gap) (rest : List Char) : Skips (gap ++ rest) rest :=
  ⟨gap, rfl, h⟩

theorem blanks_nil : Blanks [] := by simp [Blanks]

theorem blanks_singleton (h : Text.isBlank q) : Blanks [q] := by
  intro c hc
  rwa [List.mem_singleton.mp hc]

theorem Blanks.append (h : Blanks gap) (h' : Blanks gap') : Blanks (gap ++ gap') := by
  intro c hc
  rcases List.mem_append.mp hc with hc | hc
  · exact h c hc
  · exact h' c hc

theorem Blanks.eq_nil (h : Blanks gap) (hs : Solid gap) : gap = [] := by
  cases gap with
  | nil => rfl
  | cons c cs => exact absurd (h c List.mem_cons_self) (hs c rfl)

/-- The blanks before a text that begins with none are told apart from it. -/
theorem Blanks.append_inj (h : Blanks gap) (h' : Blanks gap') (hs : Solid rest) (hs' : Solid rest')
    (heq : gap ++ rest = gap' ++ rest') : gap = gap' ∧ rest = rest' := by
  have hrest : rest = rest' := by
    rw [← (h.skips rest).dropWhile_eq_of_solid hs, heq, (h'.skips rest').dropWhile_eq_of_solid hs']
  exact ⟨List.append_cancel_right (hrest ▸ heq), hrest⟩

/-- Only a part of the blanks before a text can be skipped. -/
theorem Blanks.of_skips (h : Blanks gap) (hs : Solid rest) (hskips : Skips (gap ++ rest) b) :
    ∃ gap', Blanks gap' ∧ b = gap' ++ rest := by
  obtain ⟨bs, heq, hbs⟩ := hskips
  rcases List.append_eq_append_iff.mp heq with ⟨as, rfl, rfl⟩ | ⟨as, rfl, rfl⟩
  · obtain rfl : as = [] := by
      refine Blanks.eq_nil (fun c hc => hbs c (List.mem_append_right _ hc)) fun c hc => ?_
      exact hs c (by simp [Option.mem_def.mp hc])
    exact ⟨[], blanks_nil, rfl⟩
  · exact ⟨as, fun c hc => h c (List.mem_append_right _ hc), rfl⟩

/-! ## Tokens -/

theorem isMark_iff : IsMark q ↔ q = '\x7b' ∨ q = '\x7d' ∨ q = '[' ∨ q = ']' ∨ q = '=' ∨ q = ',' ∨
    q = ';' := by
  simp [IsMark]

theorem IsMark.not_blank (h : IsMark q) : ¬ Text.isBlank q := by
  rcases isMark_iff.mp h with rfl | rfl | rfl | rfl | rfl | rfl | rfl <;> decide

theorem IsMark.not_id (h : IsMark q) : ¬ (q = '"' ∨ IsWordChar q) := by
  rw [← isWordChar_iff]
  rcases isMark_iff.mp h with rfl | rfl | rfl | rfl | rfl | rfl | rfl <;> decide

theorem IsMark.ne_dash (h : IsMark q) : q ≠ '-' := by
  rcases isMark_iff.mp h with rfl | rfl | rfl | rfl | rfl | rfl | rfl <;> decide

theorem IsSeparator.isMark (h : IsSeparator q) : IsMark q := by
  rcases h with rfl | rfl
  · simp [IsMark]
  · simp [IsMark]

theorem isMark_of_opens (hq : q = '[' ∨ IsSeparator q) : IsMark q := by
  rcases hq with rfl | hq
  · simp [IsMark]
  · exact hq.isMark

theorem not_id_dash : ¬ ('-' = '"' ∨ IsWordChar '-') := by
  rw [← isWordChar_iff]
  decide

theorem IsMark.fits (h : IsMark q) (rest : List Char) : Fits [q] rest :=
  fun hall => absurd (.inr (hall q List.mem_cons_self)) h.not_id

/-- A token is a mark, an arrow, or an id whatever follows it. -/
inductive IsToken.Kind (tok : List Char) : Prop where
  | mark {q : Char} : IsMark q → tok = [q] → Kind tok
  | arrow : tok = ['-', '>'] → Kind tok
  | id {v : String} : (∀ rest, Fits tok rest → Id (tok ++ rest) v rest) →
    (∀ rest, StartsId (tok ++ rest)) → Kind tok

theorem IsToken.kind (h : IsToken tok) : IsToken.Kind tok := by
  cases h with
  | mark hq => exact .mark hq rfl
  | arrow => exact .arrow rfl
  | @quoted w m hw =>
      have hid : ∀ rest, Id ('"' :: (w ++ ['"']) ++ rest) (String.ofList m) rest := by
        intro rest
        rw [List.cons_append, List.append_assoc, List.singleton_append]
        exact .quoted hw
      exact .id (fun rest _ => hid rest) fun rest => (hid rest).startsId
  | word hne hall =>
      obtain ⟨c, cs, rfl⟩ := List.exists_cons_of_ne_nil hne
      exact .id (fun rest hfits => .bare ⟨rfl, hne, hall, hfits hall⟩)
        fun rest => ⟨c, cs ++ rest, rfl, .inr (hall c List.mem_cons_self)⟩

theorem IsToken.solid (h : IsToken tok) (rest : List Char) : Solid (tok ++ rest) := by
  cases h.kind with
  | mark hq htok => exact htok ▸ solid_cons hq.not_blank rest
  | arrow htok => exact htok ▸ solid_cons (by decide) _
  | id _ hstarts => exact (hstarts rest).solid

theorem IsToken.ne_nil (h : IsToken tok) : tok ≠ [] := by
  cases h with
  | mark _ => simp
  | arrow => simp
  | quoted _ => simp
  | word hne _ => exact hne

theorem IsToken.eq_mark (h : IsToken tok) (hq : IsMark q) (heq : tok ++ rest = q :: c) :
    tok = [q] ∧ rest = c := by
  cases h.kind with
  | mark _ htok =>
      subst htok
      obtain ⟨rfl, rfl⟩ := List.cons.inj heq
      exact ⟨rfl, rfl⟩
  | arrow htok =>
      subst htok
      exact absurd (List.cons.inj heq).1.symm hq.ne_dash
  | id _ hstarts => exact absurd heq ((hstarts rest).ne_cons hq.not_id c)

theorem IsToken.eq_arrow (h : IsToken tok) (heq : tok ++ rest = '-' :: '>' :: c) :
    tok = ['-', '>'] ∧ rest = c := by
  cases h.kind with
  | mark hq htok =>
      subst htok
      exact absurd (List.cons.inj heq).1 hq.ne_dash
  | arrow htok =>
      subst htok
      simpa using heq
  | id _ hstarts => exact absurd heq ((hstarts rest).ne_cons not_id_dash _)

theorem IsToken.eq_id (h : IsToken tok) (hfits : Fits tok rest) (hid : Id (tok ++ rest) v b) :
    rest = b ∧ ∀ rest', Fits tok rest' → Id (tok ++ rest') v rest' := by
  cases h.kind with
  | mark hq htok =>
      subst htok
      exact absurd rfl (hid.startsId.ne_cons hq.not_id rest)
  | arrow htok =>
      subst htok
      exact absurd rfl (hid.startsId.ne_cons not_id_dash _)
  | id hself _ =>
      obtain ⟨rfl, rfl⟩ := (hself rest hfits).unique hid
      exact ⟨rfl, hself⟩

/-- A text begins with one token at most. -/
theorem IsToken.unique (h : IsToken tok) (h' : IsToken tok') (hfits : Fits tok rest)
    (hfits' : Fits tok' rest') (heq : tok ++ rest = tok' ++ rest') : tok = tok' ∧ rest = rest' := by
  cases h.kind with
  | mark hq htok =>
      subst htok
      obtain ⟨rfl, rfl⟩ := h'.eq_mark hq heq.symm
      exact ⟨rfl, rfl⟩
  | arrow htok =>
      subst htok
      obtain ⟨rfl, rfl⟩ := h'.eq_arrow heq.symm
      exact ⟨rfl, rfl⟩
  | id hself _ =>
      obtain ⟨rfl, -⟩ := h'.eq_id hfits' (heq ▸ hself rest hfits)
      exact ⟨List.append_cancel_right heq, rfl⟩

/-! ## Other gaps between the same tokens -/

/-- The bracket that opens a list, and what ends an attribute. -/
def Opens (tok : List Char) : Prop := ∃ q, tok = [q] ∧ (q = '[' ∨ IsSeparator q)

theorem opens_iff : Opens [q] ↔ q = '[' ∨ IsSeparator q := by
  simp [Opens]

/-- No gap has been made before a closing bracket. -/
def Keeps (rest rest' : List Char) : Prop := rest.head? = some ']' → rest'.head? = some ']'

/-- Two texts have the same tokens, with gaps of their own between them. -/
inductive Aligned : List Char → List Char → Prop where
  | nil {gap gap' : List Char} : Blanks gap → Blanks gap' → Aligned gap gap'
  | cons {gap gap' tok rest rest' : List Char} : Blanks gap → Blanks gap' → IsToken tok →
    Fits tok rest → Fits tok rest' → (Opens tok → Keeps rest rest') → Aligned rest rest' →
    Aligned (gap ++ (tok ++ rest)) (gap' ++ (tok ++ rest'))

namespace Aligned

theorem skips (h : Aligned a a') (hs : Skips a b) : Aligned b a' := by
  cases h with
  | nil hgap hgap' =>
      obtain ⟨bs, rfl, -⟩ := hs
      exact .nil (fun c hc => hgap c (List.mem_append_right bs hc)) hgap'
  | cons hgap hgap' htok hfits hfits' hkeeps hrest =>
      obtain ⟨gap, hgap, rfl⟩ := hgap.of_skips (htok.solid _) hs
      exact .cons hgap hgap' htok hfits hfits' hkeeps hrest

theorem blank (h : Aligned a a') (hs : Skips a []) : Skips a' [] := by
  generalize hb : [] = b at hs
  cases h.skips hs with
  | nil _ hgap' => exact ⟨a', by simp [hb], hgap'⟩
  | cons _ _ htok _ _ _ _ =>
      have htok' := (List.append_eq_nil_iff.mp (List.append_eq_nil_iff.mp hb.symm).2).1
      exact absurd htok' htok.ne_nil

/-- The next token is the same in both texts. -/
theorem next (h : Aligned a a') (hs : Skips a b) (hb : Solid b) (hne : b ≠ []) :
    ∃ tok rest rest', b = tok ++ rest ∧ Skips a' (tok ++ rest') ∧ IsToken tok ∧ Fits tok rest ∧
      Fits tok rest' ∧ (Opens tok → Keeps rest rest') ∧ Aligned rest rest' := by
  cases h.skips hs with
  | nil hgap _ => exact absurd (hgap.eq_nil hb) hne
  | @cons gap _ tok rest rest' hgap hgap' htok hfits hfits' hkeeps hrest =>
      refine ⟨tok, rest, rest', ?_, hgap'.skips _, htok, hfits, hfits', hkeeps, hrest⟩
      rw [← hb.dropWhile_eq, (hgap.skips _).dropWhile_eq_of_solid (htok.solid rest)]

theorem mark (h : Aligned a a') (hq : IsMark q) (hs : Skips a (q :: b)) :
    ∃ b', Skips a' (q :: b') ∧ Aligned b b' ∧ (Opens [q] → Keeps b b') := by
  obtain ⟨tok, rest, rest', heq, hs', htok, -, -, hkeeps, hrest⟩ :=
    h.next hs (solid_cons hq.not_blank b) (by simp)
  obtain ⟨rfl, rfl⟩ := htok.eq_mark hq heq.symm
  exact ⟨rest', hs', hrest, hkeeps⟩

theorem arrow (h : Aligned a a') (hs : Skips a ('-' :: '>' :: b)) :
    ∃ b', Skips a' ('-' :: '>' :: b') ∧ Aligned b b' := by
  obtain ⟨tok, rest, rest', heq, hs', htok, -, -, -, hrest⟩ :=
    h.next hs (solid_cons (by decide) _) (by simp)
  obtain ⟨rfl, rfl⟩ := htok.eq_arrow heq.symm
  exact ⟨rest', hs', hrest⟩

/-- An id is written with the same token in both texts. -/
theorem ident (h : Aligned a a') (hs : Skips a d) (hid : Id d v b) :
    ∃ tok b', d = tok ++ b ∧ Skips a' (tok ++ b') ∧ Id (tok ++ b') v b' ∧ Aligned b b' := by
  obtain ⟨tok, rest, rest', rfl, hs', htok, hfits, hfits', -, hrest⟩ := h.next hs hid.solid (by
    obtain ⟨c, cs, rfl, -⟩ := hid.startsId
    simp)
  obtain ⟨rfl, hself⟩ := htok.eq_id hfits hid
  exact ⟨tok, rest', rfl, hs', hself rest' hfits', hrest⟩

theorem assignment (h : Aligned a a') (hs : Skips a d) (hx : Assignment d x b) :
    ∃ d' b', Skips a' d' ∧ Assignment d' x b' ∧ Aligned b b' := by
  cases hx with
  | mk hkey hequals hblanks hvalue =>
      obtain ⟨_, _, -, hs', hkey', h₁⟩ := h.ident hs hkey
      obtain ⟨_, hequals', h₂, -⟩ := h₁.mark (by simp [IsMark]) hequals
      obtain ⟨_, b', -, hblanks', hvalue', h₃⟩ := h₂.ident hblanks hvalue
      exact ⟨_, b', hs', .mk hkey' hequals' hblanks' hvalue', h₃⟩

theorem entry (h : Aligned a a') (hq : IsMark q) (hx : Entry a x (q :: b)) :
    ∃ b', Entry a' x (q :: b') ∧ Aligned b b' ∧ (Opens [q] → Keeps b b') := by
  obtain ⟨_, _, hs, hx, hend⟩ := hx
  obtain ⟨d', c', hs', hx', h₁⟩ := h.assignment hs hx
  obtain ⟨b', hend', h₂, hkeeps⟩ := h₁.mark hq hend
  exact ⟨b', ⟨d', c', hs', hx', hend'⟩, h₂, hkeeps⟩

theorem closing (h : Aligned (']' :: b) a') (hkeeps : Keeps (']' :: b) a') :
    ∃ b', a' = ']' :: b' ∧ Aligned b b' := by
  obtain ⟨b', hs', h₁, -⟩ := h.mark (by simp [IsMark]) (.refl _)
  obtain ⟨cs, rfl⟩ := List.head?_eq_some_iff.mp (hkeeps rfl)
  have heq := hs'.dropWhile_eq_of_solid (solid_closing b')
  rw [(solid_closing cs).dropWhile_eq] at heq
  exact ⟨b', heq, h₁⟩

theorem entries (h : Aligned a a') (hkeeps : Keeps a a') (hxs : Entries a xs (']' :: b)) :
    ∃ b', Entries a' xs (']' :: b') ∧ Aligned b b' := by
  -- Without an entry the bracket stands at once, and here no gap may have been made.
  generalize hr : ']' :: b = r at hxs
  induction hxs generalizing a' with
  | none =>
      subst hr
      obtain ⟨b', rfl, h₁⟩ := h.closing hkeeps
      exact ⟨b', .none, h₁⟩
  | last hx =>
      subst hr
      obtain ⟨b', hx', h₁, -⟩ := h.entry (by simp [IsMark]) hx
      exact ⟨b', .last hx', h₁⟩
  | more hx hsep _ ih =>
      obtain ⟨c', hx', h₁, hopens⟩ := h.entry hsep.isMark hx
      obtain ⟨b', hxs', h₂⟩ := ih h₁ (hopens (opens_iff.mpr (.inr hsep))) hr
      exact ⟨b', .more hx' hsep hxs', h₂⟩

theorem attributeList (h : Aligned a a') (hs : Skips a d) (hxs : AttributeList d xs b) :
    ∃ d' b', Skips a' d' ∧ AttributeList d' xs b' ∧ Aligned b b' := by
  cases hxs with
  | mk hxs =>
      obtain ⟨c', hs', h₁, hopens⟩ := h.mark (by simp [IsMark]) hs
      obtain ⟨b', hxs', h₂⟩ := h₁.entries (hopens (opens_iff.mpr (.inl rfl))) hxs
      exact ⟨_, b', hs', .mk hxs', h₂⟩

theorem someAttributes (h : Aligned a a') (hxs : SomeAttributes a xs b) :
    ∃ b', SomeAttributes a' xs b' ∧ Aligned b b' := by
  cases hxs with
  | none => exact ⟨a', .none, h⟩
  | some hs hxs =>
      obtain ⟨d', b', hs', hxs', h₁⟩ := h.attributeList hs hxs
      exact ⟨b', .some hs' hxs', h₁⟩

theorem isStatement (h : Aligned a a') (hs : Skips a d) (hd : IsStatement d s b) :
    ∃ d' b', Skips a' d' ∧ IsStatement d' s b' ∧ Aligned b b' := by
  cases hd with
  | edge hsrc harrow hblanks hdst hxs =>
      obtain ⟨_, _, -, hs', hsrc', h₁⟩ := h.ident hs hsrc
      obtain ⟨_, harrow', h₂⟩ := h₁.arrow harrow
      obtain ⟨_, _, -, hblanks', hdst', h₃⟩ := h₂.ident hblanks hdst
      obtain ⟨b', hxs', h₄⟩ := h₃.someAttributes hxs
      exact ⟨_, b', hs', .edge hsrc' harrow' hblanks' hdst' hxs', h₄⟩
  | «attribute» hx =>
      obtain ⟨d', b', hs', hx', h₁⟩ := h.assignment hs hx
      exact ⟨d', b', hs', .attribute hx', h₁⟩
  | defaults hword hblanks hxs =>
      obtain ⟨tok, c', htok, hs', -, h₁⟩ := h.ident hs (hword.isId hblanks hxs)
      obtain rfl := List.append_cancel_right htok
      obtain ⟨_, b', hblanks', hxs', h₂⟩ := h₁.attributeList hblanks hxs
      exact ⟨_, b', hs', .defaults hword hblanks' hxs', h₂⟩
  | node hid hxs hkey =>
      obtain ⟨tok, c', rfl, hs', hid', h₁⟩ := h.ident hs hid
      cases hxs with
      | none => exact ⟨_, c', hs', .node hid' .none fun _ _ _ => rfl, h₁⟩
      | some hblanks hxs =>
          obtain ⟨_, b', hblanks', hxs', h₂⟩ := h₁.attributeList hblanks hxs
          refine ⟨_, b', hs', .node hid' (.some hblanks' hxs') fun word hword htok => ?_, h₂⟩
          -- The id is no keyword, for there is a list behind it.
          obtain rfl := List.append_cancel_right htok
          obtain rfl := hkey tok hword rfl
          exact absurd (hxs.byteSize_lt.trans_le hblanks.byteSize_le) (Nat.lt_irrefl _)

theorem ends (h : Aligned a a') (hend : Ends a b) : ∃ b', Ends a' b' ∧ Aligned b b' := by
  cases hend with
  | bare hs => exact ⟨a', .bare (.refl a'), h.skips hs⟩
  | marked hs hblanks =>
      obtain ⟨c', hs', h₁, -⟩ := h.mark (by simp [IsMark]) hs
      exact ⟨c', .marked hs' (.refl c'), h₁.skips hblanks⟩

theorem statements (h : Aligned a a') (hs : Skips a d) (hss : Statements d ss ('\x7d' :: b)) :
    ∃ d' b', Skips a' d' ∧ Statements d' ss ('\x7d' :: b') ∧ Aligned b b' := by
  generalize hr : '\x7d' :: b = r at hss
  induction hss generalizing a a' with
  | nil =>
      subst hr
      obtain ⟨b', hs', h₁, -⟩ := h.mark (by simp [IsMark]) hs
      exact ⟨_, b', hs', .nil, h₁⟩
  | cons hd hend _ ih =>
      obtain ⟨d', c', hs', hd', h₁⟩ := h.isStatement hs hd
      obtain ⟨e', hend', h₂⟩ := h₁.ends hend
      obtain ⟨_, b', hblanks', hss', h₃⟩ := ih h₂ (.refl _) hr
      exact ⟨d', b', hs', .cons hd' (hend'.skips hblanks') hss', h₃⟩

theorem someId (h : Aligned a a') (hid : SomeId a o b) : ∃ b', SomeId a' o b' ∧ Aligned b b' := by
  cases hid with
  | none => exact ⟨a', .none, h⟩
  | some hs hid =>
      obtain ⟨_, b', -, hs', hid', h₁⟩ := h.ident hs hid
      exact ⟨b', .some hs' hid', h₁⟩

/-- Texts with the same tokens stand for the same graph. -/
theorem digraph (h : Aligned b b') (hgap : Blanks gap) (hgap' : Blanks gap')
    (hg : Digraph (gap ++ ("digraph".toList ++ b)) g) :
    Digraph (gap' ++ ("digraph".toList ++ b')) g := by
  cases hg with
  | mk hword hid hopen hblanks hss hend =>
      have heq := hword.dropWhile_eq_of_solid (solid_digraph _)
      rw [(hgap.skips _).dropWhile_eq_of_solid (solid_digraph b)] at heq
      obtain rfl := List.append_cancel_left heq
      obtain ⟨_, hid', h₁⟩ := h.someId hid
      obtain ⟨_, hopen', h₂, -⟩ := h₁.mark (by simp [IsMark]) hopen
      obtain ⟨_, f', hblanks', hss', h₃⟩ := h₂.statements hblanks hss
      exact .mk (hgap'.skips _) hid' hopen' hblanks' hss' (h₃.blank hend)

end Aligned

/-! ## Blanks put in at a seam -/

/-- The blanks that are put in do not lengthen a word. -/
theorem Fits.insert (h : Fits tok (rest ++ post)) (hgap : Blanks gap) :
    Fits tok (rest ++ (gap ++ post)) := by
  intro htok c hc hw
  cases rest with
  | cons d ds => exact h htok c hc hw
  | nil =>
      cases gap with
      | nil => exact h htok c hc hw
      | cons d ds =>
          obtain rfl : d = c := by simpa using hc
          exact hw.not_blank (hgap d List.mem_cons_self)

theorem Lexes.mark (h : Lexes rest ts) (hq : IsMark q) : Lexes (q :: rest) ([q] :: ts) :=
  .cons blanks_nil (.mark hq) (hq.fits rest) h

theorem Lexes.word {p : Char} (h : Lexes (p :: rest) ts) (hp : IsMark p)
    (hq : Dot.isWordChar q) : Lexes (q :: p :: rest) ([q] :: ts) := by
  have hword : ∀ c ∈ [q], IsWordChar c := by simpa using isWordChar_iff.mp hq
  refine .cons blanks_nil (.word (by simp) hword) (fun _ c hc hw => hp.not_id (.inr ?_)) h
  obtain rfl : p = c := by simpa using hc
  exact hw

theorem Lexes.tail (hgap : Blanks gap) (htok : IsToken tok)
    (h : Lexes (gap ++ (tok ++ rest)) (tok :: ts)) : Fits tok rest ∧ Lexes rest ts := by
  generalize htext : gap ++ (tok ++ rest) = text at h
  cases h with
  | cons hgap' _ hfits hrest =>
      obtain ⟨-, heq⟩ := hgap.append_inj hgap' (htok.solid _) (htok.solid _) htext
      obtain rfl := List.append_cancel_left heq
      exact ⟨hfits, hrest⟩

theorem Lexes.aligned (h : Lexes rest ts) (hgap : Blanks gap) (hgap' : Blanks gap') :
    Aligned (gap ++ rest) (gap' ++ rest) := by
  induction h generalizing gap gap' with
  | nil hblanks => exact .nil (hgap.append hblanks) (hgap'.append hblanks)
  | cons hblanks htok hfits _ ih =>
      have hrest := ih blanks_nil blanks_nil
      rw [← List.append_assoc gap, ← List.append_assoc gap']
      exact .cons (hgap.append hblanks) (hgap'.append hblanks) htok hfits hfits
        (fun _ h => h) hrest

/-- Only a hole is not to be filled with blanks. -/
theorem Lexes.insert (h : Lexes a ts) (hpost : Lexes post us) (hboth : Lexes (a ++ post) (ts ++ us))
    (hgap : Blanks gap) (hhole : ¬ Hole a post) : Aligned (a ++ post) (a ++ (gap ++ post)) := by
  induction h with
  | nil hblanks =>
      rw [← List.append_assoc]
      exact hpost.aligned hblanks (hblanks.append hgap)
  | @cons blanks tok rest ts hblanks htok _ _ ih =>
      simp only [List.append_assoc, List.cons_append] at hboth ⊢
      obtain ⟨hfits, hrest⟩ := hboth.tail hblanks htok
      refine .cons hblanks hblanks htok hfits (hfits.insert hgap) ?_ (ih hrest fun h => hhole ?_)
      · rintro ⟨q, rfl, hq⟩ hclosing
        cases rest with
        | cons d ds => exact hclosing
        | nil =>
            obtain ⟨cs, rfl⟩ := List.head?_eq_some_iff.mp hclosing
            exact absurd (by simpa using Hole.mk hq) hhole
      · cases h with
        | mk hq =>
            rw [← List.append_assoc, ← List.append_assoc]
            exact .mk hq

theorem Digraph.insert (hg : Digraph (a ++ post) g) (hseam : Seam a post) (hgap : Blanks gap)
    (hhole : ¬ Hole a post) : Digraph (a ++ (gap ++ post)) g := by
  cases hseam with
  | start hblanks =>
      cases hg with
      | mk hword hid hopen hskips hss hend =>
          have hpost := skips_dropWhile post
          rw [← (hblanks.skips post).dropWhile_eq, hword.dropWhile_eq_of_solid (solid_digraph _)] at hpost
          exact .mk ((hblanks.skips _).trans ((hgap.skips post).trans hpost)) hid hopen hskips hss hend
  | inner hblanks hpre hpost hboth =>
      have haligned := hpre.insert hpost hboth hgap fun h => hhole (by
        cases h with
        | mk hq =>
            rw [← List.append_assoc, ← List.append_assoc]
            exact .mk hq)
      simp only [List.append_assoc] at hg ⊢
      exact haligned.digraph hblanks hblanks hg

/-! ## What is accepted has no blanks in its holes -/

/-- A closing bracket stands at once if it comes next. -/
def Tight (text : List Char) : Prop := ∀ rest, Skips text (']' :: rest) → text = ']' :: rest

inductive Tidy : List Char → Prop where
  | nil {gap : List Char} : Blanks gap → Tidy gap
  | cons {gap tok rest : List Char} : Blanks gap → IsToken tok → Fits tok rest →
    (Opens tok → Tight rest) → Tidy rest → Tidy (gap ++ (tok ++ rest))

theorem tight_closing (b : List Char) : Tight (']' :: b) := by
  intro rest hs
  rw [← (solid_closing b).dropWhile_eq, hs.dropWhile_eq_of_solid (solid_closing rest)]

theorem tight_of_skips (hs : Skips a d) (hd : Solid d) (hne : ∀ rest, d ≠ ']' :: rest) :
    Tight a := by
  intro rest hclosing
  have heq := hs.dropWhile_eq_of_solid hd
  rw [hclosing.dropWhile_eq_of_solid (solid_closing rest)] at heq
  exact absurd heq.symm (hne rest)

theorem StartsId.ne_closing (h : StartsId d) (rest : List Char) : d ≠ ']' :: rest :=
  h.ne_cons (IsMark.not_id (by simp [IsMark])) rest

theorem Starts.ne_closing (h : Starts d) (rest : List Char) : d ≠ ']' :: rest := by
  obtain ⟨c, cs, rfl, hc⟩ := h
  intro heq
  obtain ⟨rfl, -⟩ := List.cons.inj heq
  rcases hc with hc | hc | hc
  · exact absurd hc (by decide)
  · exact IsMark.not_id (q := ']') (by simp [IsMark]) (.inr hc)
  · exact absurd hc (by decide)

namespace Tidy

theorem skips (h : Tidy b) (hs : Skips a b) : Tidy a := by
  obtain ⟨bs, rfl, hbs⟩ := hs
  have hbs : Blanks bs := hbs
  cases h with
  | nil hgap => exact .nil (hbs.append hgap)
  | cons hgap htok hfits htight hrest =>
      rw [← List.append_assoc]
      exact .cons (hbs.append hgap) htok hfits htight hrest

theorem token (h : Tidy rest) (htok : IsToken tok) (hfits : Fits tok rest)
    (htight : Opens tok → Tight rest) : Tidy (tok ++ rest) :=
  .cons blanks_nil htok hfits htight h

theorem mark (h : Tidy b) (hq : IsMark q) (htight : q = '[' ∨ IsSeparator q → Tight b) :
    Tidy (q :: b) :=
  h.token (.mark hq) (hq.fits b) fun hopens => htight (opens_iff.mp hopens)

theorem ident (h : Tidy b) (hid : Id a v b) : Tidy a := by
  have hopens : ∀ {tok}, StartsId (tok ++ b) → ¬ Opens tok := by
    rintro _ hstarts ⟨q, rfl, hq⟩
    exact hstarts.ne_cons (isMark_of_opens hq).not_id b rfl
  cases hid with
  | @quoted w m _ hw =>
      have htext : '"' :: (w ++ '"' :: b) = '"' :: (w ++ ['"']) ++ b := by simp
      rw [htext]
      refine h.token (.quoted hw) (fun hall => ?_) fun ho => absurd ho (hopens ⟨_, _, rfl, .inl rfl⟩)
      exact absurd (hall '"' List.mem_cons_self) (by simp [IsWordChar])
  | bare hword =>
      obtain ⟨rfl, hne, hall, hend⟩ := hword
      obtain ⟨c, cs, rfl⟩ := List.exists_cons_of_ne_nil hne
      exact h.token (.word hne hall) (fun _ => hend) fun ho =>
        absurd ho (hopens ⟨c, _, rfl, .inr (hall c List.mem_cons_self)⟩)

theorem assignment (h : Tidy b) (hx : Assignment a x b) : Tidy a := by
  cases hx with
  | mk hkey hequals hblanks hvalue =>
      have hrest := (h.ident hvalue).skips hblanks
      exact ((hrest.mark (by simp [IsMark]) (by simp [IsSeparator])).skips hequals).ident hkey

theorem entry (h : Tidy b) (hx : Entry a x b) : Tidy a ∧ Tight a := by
  obtain ⟨d, e, hs, hx, hend⟩ := hx
  exact ⟨((h.skips hend).assignment hx).skips hs,
    tight_of_skips hs hx.solid hx.startsId.ne_closing⟩

theorem entries (h : Tidy (']' :: b)) (hxs : Entries a xs (']' :: b)) : Tidy a ∧ Tight a := by
  generalize hr : ']' :: b = r at hxs
  induction hxs with
  | none => exact hr ▸ ⟨h, tight_closing b⟩
  | last hx => exact (hr ▸ h).entry hx
  | more hx hsep _ ih =>
      obtain ⟨hrest, htight⟩ := ih hr
      exact (hrest.mark hsep.isMark fun _ => htight).entry hx

theorem attributeList (h : Tidy b) (hxs : AttributeList a xs b) : Tidy a := by
  cases hxs with
  | mk hxs =>
      obtain ⟨hrest, htight⟩ :=
        (h.mark (q := ']') (by simp [IsMark]) (by simp [IsSeparator])).entries hxs
      exact hrest.mark (by simp [IsMark]) fun _ => htight

theorem someAttributes (h : Tidy b) (hxs : SomeAttributes a xs b) : Tidy a := by
  cases hxs with
  | none => exact h
  | some hs hxs => exact (h.attributeList hxs).skips hs

theorem isStatement (h : Tidy b) (hs : IsStatement a s b) : Tidy a := by
  cases hs with
  | edge hsrc harrow hblanks hdst hxs =>
      have hrest := ((h.someAttributes hxs).ident hdst).skips hblanks
      have hdash : Tidy ('-' :: '>' :: _) := hrest.token .arrow
        (fun hall => absurd (.inr (hall '-' List.mem_cons_self)) not_id_dash)
        (by simp [Opens])
      exact (hdash.skips harrow).ident hsrc
  | «attribute» hx => exact h.assignment hx
  | defaults hword hblanks hxs =>
      exact ((h.attributeList hxs).skips hblanks).ident (hword.isId hblanks hxs)
  | node hid hxs _ => exact (h.someAttributes hxs).ident hid

theorem ends (h : Tidy b) (hb : Starts b) (hend : Ends a b) : Tidy a := by
  cases hend with
  | bare hs => exact h.skips hs
  | marked hs hblanks =>
      have htight := tight_of_skips hblanks hb.solid hb.ne_closing
      exact ((h.skips hblanks).mark (by simp [IsMark]) fun _ => htight).skips hs

theorem statements (h : Tidy ('\x7d' :: b)) (hss : Statements a ss ('\x7d' :: b)) : Tidy a := by
  generalize hr : '\x7d' :: b = r at hss
  induction hss with
  | nil => exact hr ▸ h
  | cons hs hend hss ih =>
      subst hr
      exact ((ih rfl).ends hss.starts hend).isStatement hs

theorem someId (h : Tidy b) (hid : SomeId a o b) : Tidy a := by
  cases hid with
  | none => exact h
  | some hs hid => exact (h.ident hid).skips hs

theorem digraph (hg : Digraph a g) :
    ∃ gap rest, a = gap ++ ("digraph".toList ++ rest) ∧ Blanks gap ∧ Tidy rest := by
  cases hg with
  | mk hword hid hopen hblanks hss hend =>
      obtain ⟨gap, rfl, hgap⟩ := hword
      refine ⟨gap, _, rfl, hgap, ?_⟩
      have hnil : Tidy [] := .nil blanks_nil
      have hclose := (hnil.skips hend).mark (q := '\x7d') (by simp [IsMark]) (by simp [IsSeparator])
      have hopened := ((hclose.statements hss).skips hblanks).mark (q := '\x7b') (by simp [IsMark])
        (by simp [IsSeparator])
      exact (hopened.skips hopen).someId hid

theorem lexes (h : Tidy a) : ∃ ts, Lexes a ts := by
  induction h with
  | nil hgap => exact ⟨[], .nil hgap⟩
  | cons hgap htok hfits _ _ ih =>
      obtain ⟨ts, hts⟩ := ih
      exact ⟨_, .cons hgap htok hfits hts⟩

theorem tail (h : Tidy (gap ++ (tok ++ rest))) (hgap : Blanks gap) (htok : IsToken tok)
    (hfits : Fits tok rest) : (Opens tok → Tight rest) ∧ Tidy rest := by
  generalize htext : gap ++ (tok ++ rest) = text at h
  cases h with
  | nil hblanks =>
      have hrest : tok ++ rest = [] :=
        Blanks.eq_nil (fun c hc => hblanks c (htext ▸ List.mem_append_right gap hc)) (htok.solid rest)
      exact absurd (List.append_eq_nil_iff.mp hrest).1 htok.ne_nil
  | cons hgap' htok' hfits' htight hrest =>
      obtain ⟨-, heq⟩ := hgap.append_inj hgap' (htok.solid _) (htok'.solid _) htext
      obtain ⟨rfl, rfl⟩ := htok.unique htok' hfits hfits' heq
      exact ⟨htight, hrest⟩

end Tidy

theorem eq_of_concat {q' : Char} (h : a ++ [q] = b ++ [q']) : q = q' :=
  (List.cons.inj (List.append_inj' h rfl).2).1

theorem IsToken.eq_of_concat (h : IsToken (a ++ [q])) (hq : IsMark q) : a ++ [q] = [q] := by
  generalize heq : a ++ [q] = tok at h
  cases h with
  | mark _ => exact congrArg (fun c => [c]) (Derivation.eq_of_concat (a := []) heq.symm)
  | arrow =>
      obtain rfl := Derivation.eq_of_concat (b := ['-']) heq
      exact absurd hq (by simp [IsMark])
  | quoted _ =>
      obtain rfl := Derivation.eq_of_concat (b := '"' :: _) heq
      exact absurd (.inl rfl) hq.not_id
  | word _ hall => exact absurd (.inr (hall q (by simp [← heq]))) hq.not_id

/-- No blanks come before a closing bracket behind an opening one or a separator. -/
theorem Tidy.tight_behind (hpre : Lexes text ts) (hq : q = '[' ∨ IsSeparator q)
    (heq : text = a ++ [q]) (h : Tidy (text ++ b)) (hs : Skips b (']' :: c)) : b = ']' :: c := by
  have hmark := isMark_of_opens hq
  have hclosing : ∀ tok, Fits tok ([] ++ b) := by
    obtain ⟨bs, rfl, hbs⟩ := hs
    intro tok
    refine Fits.insert (fun _ d hd => ?_) hbs
    obtain rfl : ']' = d := by simpa using hd
    simp [IsWordChar]
  induction hpre generalizing a with
  | nil hgap => exact absurd (hgap q (by simp [heq])) hmark.not_blank
  | @cons gap tok rest ts hgap htok hfits _ ih =>
      simp only [List.append_assoc] at h
      rcases List.eq_nil_or_concat' rest with rfl | ⟨rest, q', rfl⟩
      · obtain ⟨cs, q', rfl⟩ := (List.eq_nil_or_concat' tok).resolve_left htok.ne_nil
        obtain rfl : q' = q := by
          rw [List.append_nil, ← List.append_assoc] at heq
          exact eq_of_concat heq
        obtain ⟨htight, -⟩ := h.tail hgap htok (hclosing _)
        rw [htok.eq_of_concat hmark] at htight
        exact htight (opens_iff.mpr hq) c hs
      · obtain rfl : q' = q := by
          rw [← List.append_assoc, ← List.append_assoc] at heq
          exact eq_of_concat heq
        have hfits' : Fits tok (rest ++ [q'] ++ b) := by
          cases rest with
          | nil => exact hfits
          | cons d ds => exact hfits
        exact ih rfl (h.tail hgap htok (by simpa using hfits')).2

theorem Hole.post_eq (h : Hole a post) : ∃ r, post = ']' :: r := by
  cases h with
  | mk _ => exact ⟨_, rfl⟩

/-- Blanks in a hole make a text unreadable. -/
theorem Digraph.hole (hseam : Seam a post) (hhole : Hole a post) (hgap : Blanks gap)
    (hg : Digraph (a ++ (gap ++ post)) g) : gap = [] := by
  obtain ⟨blanks, rest, htext, hblanks, htidy⟩ := Tidy.digraph hg
  generalize hpost : post = r at hhole
  generalize ha : a = pre at hhole
  cases hhole with
  | @mk pre post q hq =>
      have hmark := isMark_of_opens hq
      subst hpost
      cases hseam with
      | start hpre => exact absurd (hpre q (by simp [ha])) hmark.not_blank
      | @inner gap₀ p _ ts _ hgap₀ hlexes _ _ =>
          simp only [List.append_assoc] at htext
          obtain ⟨-, heq⟩ := hgap₀.append_inj hblanks (solid_digraph _) (solid_digraph _) htext
          obtain rfl := List.append_cancel_left heq
          rcases List.eq_nil_or_concat' p with rfl | ⟨p, q', rfl⟩
          · have hword : "digraph".toList = "digrap".toList ++ ['h'] := rfl
            rw [List.append_nil, hword, ← List.append_assoc] at ha
            obtain rfl := eq_of_concat ha
            exact absurd (.inr (isWordChar_iff.mp (by decide))) hmark.not_id
          · obtain rfl : q' = q := by
              rw [← List.append_assoc, ← List.append_assoc] at ha
              exact eq_of_concat ha
            have htight := htidy.tight_behind hlexes hq rfl (hgap.skips _)
            simpa using htight

end Derivation

/-- Every text that is read as a graph consists of tokens, and of blanks before, between and behind
them. Blanks put in between two tokens, or at an end, do not change what is read, except in a hole,
where they make the text unreadable. -/
theorem Graph.read_spaced {source : String} {g : Graph} (h : Graph.read source = .ok g) :
    (∃ gap rest ts, source.toList = gap ++ ("digraph".toList ++ rest) ∧ Blanks gap ∧
      Lexes rest ts) ∧
    ∀ pre blanks post : String, source = pre ++ post → Seam pre.toList post.toList →
      Blanks blanks.toList →
        (blanks = "" ∨ ¬ Hole pre.toList post.toList →
          Graph.read (pre ++ blanks ++ post) = .ok g) ∧
        (blanks ≠ "" → Hole pre.toList post.toList →
          ∃ e, Graph.read (pre ++ blanks ++ post) = .error e) := by
  have hg := digraph_of_read h
  refine ⟨?_, ?_⟩
  · obtain ⟨gap, rest, htext, hgap, htidy⟩ := Tidy.digraph hg
    obtain ⟨ts, hts⟩ := htidy.lexes
    exact ⟨gap, rest, ts, htext, hgap, hts⟩
  rintro pre blanks post rfl hseam hblanks
  have htext : (pre ++ blanks ++ post).toList = pre.toList ++ (blanks.toList ++ post.toList) := by
    simp
  refine ⟨?_, fun hne hhole => ?_⟩
  · rintro (rfl | hhole)
    · rwa [String.append_empty]
    · refine read_of_digraph ?_
      rw [htext]
      rw [String.toList_append] at hg
      exact hg.insert hseam hblanks hhole
  · cases hread : Graph.read (pre ++ blanks ++ post) with
    | error e => exact ⟨e, rfl⟩
    | ok g' =>
        have hempty := (htext ▸ digraph_of_read hread).hole hseam hhole hblanks
        exact absurd (String.toList_eq_nil_iff.mp hempty) hne

/-- A blank before an id. -/
theorem Graph.read_spaced_before_id :
    Graph.read "digraph\x7ba[]\x7d" = .ok ⟨none, [.node "a" []]⟩ ∧
      Graph.read "digraph\x7b a[]\x7d" = .ok ⟨none, [.node "a" []]⟩ := by
  have hread : Graph.read "digraph\x7ba[]\x7d" = .ok ⟨none, [.node "a" []]⟩ := by cbv
  have hmark : ∀ c ∈ ['\x7b', '[', ']', '\x7d'], IsMark c := by simp [IsMark]
  have hlist : Lexes ['[', ']', '\x7d'] [['['], [']'], ['\x7d']] :=
    (((Lexes.nil blanks_nil).mark (hmark _ (by simp))).mark (hmark _ (by simp))).mark
      (hmark _ (by simp))
  have hpost : Lexes ['a', '[', ']', '\x7d'] [['a'], ['['], [']'], ['\x7d']] :=
    hlist.word (hmark _ (by simp)) (by decide)
  have hpre : Lexes ['\x7b'] [['\x7b']] := (Lexes.nil blanks_nil).mark (hmark _ (by simp))
  have hboth : Lexes ['\x7b', 'a', '[', ']', '\x7d'] [['\x7b'], ['a'], ['['], [']'], ['\x7d']] :=
    hpost.mark (hmark _ (by simp))
  have hseam : Seam "digraph\x7b".toList "a[]\x7d".toList := .inner blanks_nil hpre hpost hboth
  have hhole : ¬ Hole "digraph\x7b".toList "a[]\x7d".toList := fun h => by
    obtain ⟨r, hr⟩ := h.post_eq
    exact absurd (List.cons.inj hr).1 (by decide)
  have hspaced := (Graph.read_spaced hread).2 "digraph\x7b" " " "a[]\x7d" rfl hseam
    (blanks_singleton rfl)
  exact ⟨hread, hspaced.1 (.inr hhole)⟩

/-- A blank in an empty attribute list, between two tokens. -/
theorem Graph.blank_in_empty_list :
    Graph.read "digraph\x7ba[]\x7d" = .ok ⟨none, [.node "a" []]⟩ ∧
      Seam "digraph\x7ba[".toList "]\x7d".toList ∧ Blanks " ".toList ∧
      ∃ e, Graph.read "digraph\x7ba[ ]\x7d" = .error e := by
  have hmark : ∀ c ∈ ['\x7b', '[', ']', '\x7d'], IsMark c := by simp [IsMark]
  have hpost : Lexes [']', '\x7d'] [[']'], ['\x7d']] :=
    ((Lexes.nil blanks_nil).mark (hmark _ (by simp))).mark (hmark _ (by simp))
  have hopened : Lexes ['['] [['[']] := (Lexes.nil blanks_nil).mark (hmark _ (by simp))
  have hpre : Lexes ['\x7b', 'a', '['] [['\x7b'], ['a'], ['[']] :=
    (hopened.word (hmark _ (by simp)) (by decide)).mark (hmark _ (by simp))
  have hlist : Lexes ['[', ']', '\x7d'] [['['], [']'], ['\x7d']] := hpost.mark (hmark _ (by simp))
  have hboth : Lexes ['\x7b', 'a', '[', ']', '\x7d'] [['\x7b'], ['a'], ['['], [']'], ['\x7d']] :=
    (hlist.word (hmark _ (by simp)) (by decide)).mark (hmark _ (by simp))
  have herror : (Graph.read "digraph\x7ba[ ]\x7d").isOk = false := by cbv
  refine ⟨by cbv, .inner blanks_nil hpre hpost hboth, blanks_singleton rfl, ?_⟩
  cases hread : Graph.read "digraph\x7ba[ ]\x7d" with
  | error e => exact ⟨e, rfl⟩
  | ok g =>
      rw [hread] at herror
      cases herror

end FlowGraph.Dot
