import FlowGraph.Proofs.Reader.Parts
import FlowGraph.Proofs.Toml.Item
import FlowGraph.Toml.Document

/-!
Documents that are read. Whatever the text is, no table that is read has a name twice, and what the
tables hold is what the entries give.
-/
namespace FlowGraph.Toml

open Reader

variable {source : String} {fields : Fields} {entries : List Entry} {v : Item} {depth : Nat}

/-! ## Values -/

theorem canFind_commaSeparated {α : Type} {item : Reader α} {items : List α}
    (h : CanFind (commaSeparated item) items) : ∀ a ∈ items, item.CanFind a := by
  obtain ⟨_, -, h⟩ := h.bind
  exact fun a ha => (h.separated a ha).seqLeft

theorem canFind_pair {value : Reader Item} {x : List String × Item} (h : CanFind (pair value) x) :
    value.CanFind x.2 := by
  obtain ⟨_, -, h⟩ := h.bind
  obtain ⟨_, -, h⟩ := h.bind
  obtain ⟨_, -, h⟩ := h.bind
  obtain ⟨_, -, h⟩ := h.bind
  obtain ⟨v, hv, h⟩ := h.bind
  obtain rfl := h.of_pure
  exact hv

theorem Fields.adds_foldlM {pairs : List (List String × Item)} {fields fields' : Fields}
    (hpairs : ∀ x ∈ pairs, x.2.IsValue)
    (h : pairs.foldlM (fun fields (k, v) => Fields.assign v k fields) fields = some fields') :
    Adds (pairs.map (·.2)) fields fields' := by
  induction pairs generalizing fields with
  | nil =>
      obtain rfl := Option.some.inj h
      exact .refl fields
  | cons x pairs ih =>
      obtain ⟨hx, hpairs⟩ := List.forall_mem_cons.mp hpairs
      rw [List.foldlM_cons] at h
      obtain ⟨mid, hmid, h⟩ := Option.bind_eq_some_iff.mp h
      exact (adds_assign hx hmid).trans (ih hpairs h)

theorem canFind_flat {r : Reader Item} (h : CanFind ((do return .text (← text)) <|>
    (do return .scalar (← scalar)) <|> r) v) : v.IsValue ∨ r.CanFind v := by
  rcases h.or with h | h
  · obtain ⟨_, -, h⟩ := h.bind
    exact .inl (h.of_pure ▸ ⟨.text _, rfl⟩)
  rcases h.or with h | h
  · obtain ⟨_, -, h⟩ := h.bind
    exact .inl (h.of_pure ▸ ⟨.scalar _, rfl⟩)
  · exact .inr h

/-- What is read as a value is one. -/
theorem isValue_of_canFind (h : CanFind (valueWithin depth) v) : v.IsValue := by
  induction depth generalizing v with
  | zero => exact (canFind_flat h).resolve_right CanFind.not_fail
  | succ depth ih =>
      rcases canFind_flat h with h | h
      · exact h
      rcases h.or with h | h
      · obtain ⟨_, -, h⟩ := h.bind
        obtain ⟨items, hitems, h⟩ := h.bind
        obtain ⟨_, -, h⟩ := h.bind
        obtain rfl := h.of_pure
        exact ⟨.array fun item hitem => (ih (canFind_commaSeparated hitems item hitem)).distinct,
          rfl⟩
      · obtain ⟨_, -, h⟩ := h.bind
        obtain ⟨pairs, hpairs, h⟩ := h.bind
        obtain ⟨_, -, h⟩ := h.bind
        have hvalues : ∀ x ∈ pairs, x.2.IsValue := fun x hx =>
          ih (canFind_pair (canFind_commaSeparated hpairs x hx))
        split at h
        · next fields hfields =>
            obtain rfl := h.of_pure
            obtain ⟨hd, -⟩ := Fields.adds_foldlM hvalues hfields Fields.isDistinct_nil
            exact ⟨.inline hd.nodup hd.items, rfl⟩
        · exact h.not_fail.elim

/-! ## Entries -/

theorem isValue_of_entry {e : Entry} (h : CanFind entry e) (hv : e.value? = some v) :
    v.IsValue := by
  rcases h.or with h | h
  · obtain ⟨_, -, h⟩ := h.bind
    simp [h.of_pure, Entry.value?] at hv
  rcases h.or with h | h
  · obtain ⟨_, -, h⟩ := h.bind
    simp [h.of_pure, Entry.value?] at hv
  · obtain ⟨_, -, h⟩ := h.bind
    obtain ⟨_, -, h⟩ := h.bind
    obtain ⟨value, hvalue, h⟩ := h.bind
    obtain rfl := h.of_pure
    obtain rfl := Option.some.inj hv
    exact isValue_of_canFind hvalue

theorem canFind_document (h : CanFind document entries) : ∀ e ∈ entries, entry.CanFind e := by
  obtain ⟨_, -, h⟩ := h.bind
  obtain ⟨_, -, h⟩ := h.bind
  obtain ⟨entries', hentries, h⟩ := h.bind
  obtain ⟨_, -, h⟩ := h.bind
  obtain rfl := h.of_pure
  intro e he
  obtain ⟨e', he', h⟩ := (hentries.many e he).bind
  obtain ⟨_, -, h⟩ := h.bind
  obtain ⟨_, -, h⟩ := h.bind
  exact h.of_pure ▸ he'

/-- The table of a document is made of the values in it, and no name in it is given twice. -/
theorem read?_eq_some (h : read? source = some fields) :
    fields.IsDistinct ∧ ∃ entries, document.run source = .ok entries ∧
      (givenIn fields).Perm (entries.filterMap Entry.value?) := by
  unfold read? at h
  split at h
  · next entries hrun =>
      obtain ⟨rest, hfound⟩ := (run_eq_ok_iff document source entries).mp hrun
      have hentries := canFind_document ⟨_, rest, hfound⟩
      have hvalues : ∀ value ∈ entries.filterMap Entry.value?, value.IsValue := by
        intro value hvalue
        obtain ⟨e, he, hv⟩ := List.mem_filterMap.mp hvalue
        exact isValue_of_entry (hentries e he) hv
      obtain ⟨hd, hperm⟩ := Fields.adds_ofEntries? hvalues h Fields.isDistinct_nil
      exact ⟨hd, entries, hrun, hperm⟩
  · simp at h

end FlowGraph.Toml
