import FlowGraph.Proofs.Lookup
import FlowGraph.Toml.Item
import Mathlib.Data.List.Perm.Basic
import Mathlib.Tactic.Common

/-!
Tables that entries amount to. No name is in a table twice, and the values in the end are those that
the entries give: none is lost, none changed and none comes from elsewhere.
-/
namespace FlowGraph.Toml

open List (Perm)
open scoped List

/-- No table in the item has a name twice. -/
inductive Item.IsDistinct : Item → Prop where
  | text (value : String) : IsDistinct (.text value)
  | scalar (kind : Scalar) : IsDistinct (.scalar kind)
  | array {items : List Item} : (∀ item ∈ items, IsDistinct item) → IsDistinct (.array items)
  | inline {fields : Fields} : (fields.map (·.1)).Nodup → (∀ x ∈ fields, IsDistinct x.2) →
    IsDistinct (.inline fields)
  | table {origin : Origin} {fields : Fields} : (fields.map (·.1)).Nodup →
    (∀ x ∈ fields, IsDistinct x.2) → IsDistinct (.table origin fields)
  | tables {elements : List Fields} : (∀ fields ∈ elements, (fields.map (·.1)).Nodup) →
    (∀ fields ∈ elements, ∀ x ∈ fields, IsDistinct x.2) → IsDistinct (.tables elements)

mutual

/-- The values that entries gave for an item: all but the tables that headers and keys made. -/
def Item.given : Item → List Item
  | .table _ fields => givenIn fields
  | .tables elements => givenInAll elements
  | .text value => [.text value]
  | .scalar kind => [.scalar kind]
  | .array items => [.array items]
  | .inline fields => [.inline fields]

def givenIn : List (String × Item) → List Item
  | [] => []
  | (_, item) :: rest => item.given ++ givenIn rest

def givenInAll : List (List (String × Item)) → List Item
  | [] => []
  | fields :: rest => givenIn fields ++ givenInAll rest

end

/-- What an entry can give: no table that headers or keys make. -/
structure Item.IsValue (value : Item) : Prop where
  distinct : value.IsDistinct
  given : value.given = [value]

namespace Fields

variable {fields fields' inner : Fields} {name : String} {path : List String}
  {item old value : Item} {new : List Item} {change : Fields → Option Fields}

structure IsDistinct (fields : Fields) : Prop where
  nodup : (fields.map (·.1)).Nodup
  items : ∀ x ∈ fields, x.2.IsDistinct

theorem IsDistinct.table (h : fields.IsDistinct) (origin : Origin) :
    (Item.table origin fields).IsDistinct := .table h.nodup h.items

theorem isDistinct_nil : IsDistinct [] := ⟨List.nodup_nil, by simp⟩

theorem IsDistinct.of_table {origin : Origin} (h : (Item.table origin fields).IsDistinct) :
    fields.IsDistinct := by
  cases h with
  | table hnodup hitems => exact ⟨hnodup, hitems⟩

theorem givenIn_append (fields fields' : Fields) :
    givenIn (fields ++ fields') = givenIn fields ++ givenIn fields' := by
  induction fields with
  | nil => rfl
  | cons x fields ih => simp [givenIn, ih]

theorem givenInAll_append (elements elements' : List Fields) :
    givenInAll (elements ++ elements') = givenInAll elements ++ givenInAll elements' := by
  induction elements with
  | nil => rfl
  | cons fields elements ih => simp [givenInAll, ih]

/-! ## One change -/

/-- The names stay distinct, and the values are those before and the new ones. -/
def Adds (new : List Item) (fields fields' : Fields) : Prop :=
  fields.IsDistinct → fields'.IsDistinct ∧ (givenIn fields').Perm (givenIn fields ++ new)

theorem Adds.refl (fields : Fields) : Adds [] fields fields :=
  fun h => ⟨h, by simp⟩

theorem Adds.trans {fields'' : Fields} {more : List Item} (h : Adds new fields fields')
    (h' : Adds more fields' fields'') : Adds (new ++ more) fields fields'' := by
  intro hd
  obtain ⟨hd', hperm⟩ := h hd
  obtain ⟨hd'', hperm'⟩ := h' hd'
  refine ⟨hd'', hperm'.trans ?_⟩
  rw [← List.append_assoc]
  exact hperm.append_right more

theorem adds_push (hl : fields.lookup name = none) (hitem : item.IsDistinct) :
    Adds item.given fields (fields ++ [(name, item)]) := by
  intro h
  refine ⟨⟨?_, ?_⟩, ?_⟩
  · rw [List.map_append]
    exact List.nodup_append_comm.mp (List.nodup_cons.mpr ⟨not_mem_of_lookup hl, h.nodup⟩)
  · exact List.forall_mem_append.mpr ⟨h.items, by simpa using hitem⟩
  · rw [givenIn_append]
    simp [givenIn]

theorem put_eq_self (hname : name ∉ fields.map (·.1)) (item : Item) :
    put fields name item = fields := by
  refine (List.map_congr_left fun x hx => ?_).trans (List.map_id fields)
  have hne : x.1 ≠ name := fun heq => hname (heq ▸ List.mem_map_of_mem hx)
  simp [hne]

theorem put_append {before after : Fields}
    (hnodup : ((before ++ (name, old) :: after).map (·.1)).Nodup) (item : Item) :
    put (before ++ (name, old) :: after) name item = before ++ (name, item) :: after := by
  rw [List.map_append, List.map_cons, List.nodup_append, List.nodup_cons] at hnodup
  obtain ⟨-, ⟨hafter, -⟩, hdisjoint⟩ := hnodup
  have hbefore : name ∉ before.map (·.1) := fun h => hdisjoint name h name List.mem_cons_self rfl
  -- No other field has the name, so no other one is replaced.
  calc put (before ++ (name, old) :: after) name item =
        put before name item ++
          (name, if name = name then item else old) :: put after name item := by simp [put]
    _ = before ++ (name, item) :: after := by
        rw [put_eq_self hbefore, put_eq_self hafter, if_pos rfl]

theorem adds_put (hl : fields.lookup name = some old)
    (hitem : old.IsDistinct → item.IsDistinct ∧ item.given.Perm (old.given ++ new)) :
    Adds new fields (put fields name item) := by
  intro h
  obtain ⟨before, after, rfl⟩ := List.append_of_mem (mem_of_lookup hl)
  obtain ⟨hold, hrest⟩ := List.forall_mem_cons.mp (List.forall_mem_append.mp h.items).2
  obtain ⟨hdistinct, hperm⟩ := hitem hold
  rw [put_append h.nodup]
  refine ⟨⟨?_, ?_⟩, ?_⟩
  · simpa using h.nodup
  · exact List.forall_mem_append.mpr
      ⟨(List.forall_mem_append.mp h.items).1, List.forall_mem_cons.mpr ⟨hdistinct, hrest⟩⟩
  · rw [givenIn_append, givenIn_append, List.append_assoc]
    refine List.Perm.append_left _ ?_
    calc givenIn ((name, item) :: after) = item.given ++ givenIn after := rfl
      _ ~ (old.given ++ new) ++ givenIn after := hperm.append_right _
      _ ~ givenIn ((name, old) :: after) ++ new := by
          rw [givenIn, List.append_assoc, List.append_assoc]
          exact List.perm_append_comm.append_left _

/-! ## Changes further in -/

theorem Adds.table {origin origin' : Origin} (h : Adds new fields fields')
    (hd : (Item.table origin fields).IsDistinct) :
    (Item.table origin' fields').IsDistinct ∧
      (Item.table origin' fields').given.Perm ((Item.table origin fields).given ++ new) := by
  obtain ⟨hd', hperm⟩ := h (.of_table hd)
  exact ⟨hd'.table origin', by simpa [Item.given] using hperm⟩

/-- The last table of an array of tables may change. -/
theorem Adds.tables {elements : List Fields} {last : Fields} (hlast : elements.getLast? = some last)
    (h : Adds new last fields') (hd : (Item.tables elements).IsDistinct) :
    (Item.tables (elements.dropLast ++ [fields'])).IsDistinct ∧
      (Item.tables (elements.dropLast ++ [fields'])).given.Perm
        ((Item.tables elements).given ++ new) := by
  obtain ⟨before, rfl⟩ : ∃ before, elements = before ++ [last] :=
    List.getLast?_eq_some_iff.mp hlast
  cases hd with
  | tables hnodup hitems =>
      obtain ⟨hnodup, hlastNodup⟩ := List.forall_mem_append.mp hnodup
      obtain ⟨hitems, hlastItems⟩ := List.forall_mem_append.mp hitems
      obtain ⟨hd', hperm⟩ := h ⟨by simpa using hlastNodup, by simpa using hlastItems⟩
      rw [List.dropLast_concat]
      refine ⟨.tables ?_ ?_, ?_⟩
      · exact List.forall_mem_append.mpr ⟨hnodup, by simpa using hd'.nodup⟩
      · exact List.forall_mem_append.mpr ⟨hitems, by simpa using hd'.items⟩
      · simp only [Item.given, givenInAll_append, givenInAll, List.append_nil, List.append_assoc]
        exact hperm.append_left _

/-- A table that is missing is made for what is added. -/
theorem Adds.push_table (h : Adds new [] inner) (hl : fields.lookup name = none)
    (origin : Origin) : Adds new fields (fields ++ [(name, .table origin inner)]) := by
  intro hd
  obtain ⟨hinner, hperm⟩ := h isDistinct_nil
  obtain ⟨hd', hperm'⟩ := adds_push hl (hinner.table origin) hd
  exact ⟨hd', hperm'.trans (hperm.append_left _)⟩

theorem adds_descend (hchange : ∀ {fields fields'}, change fields = some fields' →
    Adds new fields fields') (h : descend change path fields = some fields') :
    Adds new fields fields' := by
  fun_induction descend change path fields generalizing fields' with
  | case1 fields => exact hchange h
  | case2 fields name path hl ih =>
      obtain ⟨inner, hinner, heq⟩ := Option.bind_eq_some_iff.mp h
      obtain rfl := Option.some.inj heq
      exact (ih hinner).push_table hl .implied
  | case3 fields name path origin inner hl ih =>
      obtain ⟨inner', hinner, heq⟩ := Option.bind_eq_some_iff.mp h
      obtain rfl := Option.some.inj heq
      exact adds_put hl (ih hinner).table
  | case5 fields name path elements hl last hlast ih =>
      obtain ⟨last', hinner, heq⟩ := Option.bind_eq_some_iff.mp h
      obtain rfl := Option.some.inj heq
      exact adds_put hl ((ih hinner).tables hlast)
  | case4 | case6 => simp at h

theorem adds_assign (hvalue : value.IsValue) (h : assign value path fields = some fields') :
    Adds [value] fields fields' := by
  fun_induction assign value path fields generalizing fields' with
  | case3 name fields hl =>
      obtain rfl := Option.some.inj h
      rw [← hvalue.given]
      exact adds_push (Option.not_isSome_iff_eq_none.mp hl) hvalue.distinct
  | case4 name next path fields hl ih =>
      obtain ⟨inner, hinner, heq⟩ := Option.bind_eq_some_iff.mp h
      obtain rfl := Option.some.inj heq
      exact (ih hinner).push_table hl .dotted
  | case5 name next path fields inner hl ih | case7 name next path fields inner hl _ ih =>
      obtain ⟨inner', hinner, heq⟩ := Option.bind_eq_some_iff.mp h
      obtain rfl := Option.some.inj heq
      exact adds_put hl (ih hinner).table
  | case10 name next path fields elements hl last hlast _ ih =>
      obtain ⟨last', hinner, heq⟩ := Option.bind_eq_some_iff.mp h
      obtain rfl := Option.some.inj heq
      exact adds_put hl ((ih hinner).tables hlast)
  | case1 | case2 | case6 | case8 | case9 | case11 => simp at h

theorem adds_define (h : define name fields = some fields') : Adds [] fields fields' := by
  unfold define at h
  split at h
  · next hl =>
      obtain rfl := Option.some.inj h
      exact (Adds.refl []).push_table hl .header
  · next inner hl =>
      obtain rfl := Option.some.inj h
      exact adds_put hl (Adds.refl inner).table
  · simp at h

theorem adds_extend (h : extend name fields = some fields') : Adds [] fields fields' := by
  unfold extend at h
  split at h
  · next hl =>
      obtain rfl := Option.some.inj h
      exact adds_push hl (.tables (by simp) (by simp))
  · next elements hl =>
      obtain rfl := Option.some.inj h
      refine adds_put hl fun hd => ?_
      cases hd with
      | tables hnodup hitems =>
          refine ⟨.tables ?_ ?_, ?_⟩
          · exact List.forall_mem_append.mpr ⟨hnodup, by simp⟩
          · exact List.forall_mem_append.mpr ⟨hitems, by simp⟩
          · simp [Item.given, givenInAll_append, givenInAll, givenIn]
  · simp at h

/-! ## Documents -/

end Fields

/-- The value that an entry gives, if it gives one. -/
def Entry.value? : Entry → Option Item
  | .header _ _ | .arrayHeader _ _ => none
  | .assignment _ value => some value

namespace Fields

theorem adds_ofEntries? {entries : List Entry} {here : List String}
    (hvalues : ∀ value ∈ entries.filterMap Entry.value?, value.IsValue)
    (h : ofEntries? entries here fields = some fields') :
    Adds (entries.filterMap Entry.value?) fields fields' := by
  fun_induction ofEntries? entries here fields with
  | case1 _ root =>
      obtain rfl := Option.some.inj h
      exact Adds.refl root
  | case2 path name rest here root ih =>
      obtain ⟨root', hchange, h⟩ := Option.bind_eq_some_iff.mp h
      exact (adds_descend adds_define hchange).trans (ih root' hvalues h)
  | case3 path name rest here root ih =>
      obtain ⟨root', hchange, h⟩ := Option.bind_eq_some_iff.mp h
      exact (adds_descend adds_extend hchange).trans (ih root' hvalues h)
  | case4 key value rest here root ih =>
      obtain ⟨root', hchange, h⟩ := Option.bind_eq_some_iff.mp h
      obtain ⟨hvalue, hvalues⟩ := List.forall_mem_cons.mp hvalues
      exact (adds_descend (adds_assign hvalue) hchange).trans (ih root' hvalues h)

end Fields

end FlowGraph.Toml
