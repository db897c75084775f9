/-!
Values in numbered slots, and runs that stop where a slot is looked up that is not filled.
-/
namespace FlowGraph

/-- What stops a run: a slot or an id that is not there, or a counter that cannot go on. -/
inductive Panic where
  | emptySlot
  | unknownId
  | overflow
deriving DecidableEq, Repr

/-- A run gives a value or panics. -/
abbrev Run := Except Panic

/-- Values in numbered slots, some of which are empty. -/
structure Slots (α : Type) where
  cells : List (Option α) := []

namespace Slots

variable {α : Type} {s t : Slots α} {a : α} {i j : Nat}

def size (s : Slots α) : Nat := s.cells.length

def get? (s : Slots α) (i : Nat) : Option α := s.cells[i]?.join

/-- What is in the slots that are filled, in the order of the slots. -/
def values (s : Slots α) : List α := s.cells.filterMap id

/-- Fills a slot. Slots that are missing before it come in empty. -/
def put (s : Slots α) (i : Nat) (a : α) : Slots α :=
  ⟨(s.cells ++ List.replicate (i + 1 - s.size) none).set i (some a)⟩

def clear (s : Slots α) (i : Nat) : Slots α := ⟨s.cells.set i none⟩

/-- Changes the value in a slot, if there is one. -/
def change (s : Slots α) (i : Nat) (f : α → α) : Slots α := ⟨s.cells.modify i (·.map f)⟩

/-- The value in a slot that has to be filled. -/
def fetch (s : Slots α) (i : Nat) : Run α :=
  match s.get? i with
  | some a => .ok a
  | none => .error .emptySlot

/-- Slots are told apart by their number and by what is in them. -/
theorem ext_get? (hsize : s.size = t.size) (h : ∀ i, s.get? i = t.get? i) : s = t := by
  obtain ⟨as⟩ := s
  obtain ⟨bs⟩ := t
  refine congrArg mk (List.ext_getElem hsize fun i ha hb => ?_)
  simpa [get?, ha, hb] using h i

@[simp] theorem size_put : (s.put i a).size = max s.size (i + 1) := by
  simp only [put, size, List.length_set, List.length_append, List.length_replicate]
  omega

@[simp] theorem size_clear : (s.clear i).size = s.size := List.length_set

@[simp] theorem size_change {f : α → α} : (s.change i f).size = s.size := List.length_modify ..

@[simp] theorem get?_put : (s.put i a).get? j = if j = i then some a else s.get? j := by
  have hlen : i < (s.cells ++ List.replicate (i + 1 - s.size) none).length := by
    simp only [size, List.length_append, List.length_replicate]
    omega
  rw [get?, put, List.getElem?_set]
  by_cases hij : i = j
  · rw [if_pos hij, if_pos hlen, if_pos hij.symm, Option.join_some]
  · rw [if_neg hij, if_neg (Ne.symm hij), get?, List.getElem?_append, List.getElem?_replicate]
    split
    · rfl
    · next hj => split <;> simp [List.getElem?_eq_none (Nat.not_lt.mp hj)]

@[simp] theorem get?_clear : (s.clear i).get? j = if j = i then none else s.get? j := by
  rw [get?, clear, List.getElem?_set, get?]
  by_cases hij : i = j
  · subst hij
    simp only [↓reduceIte]
    split <;> rfl
  · rw [if_neg hij, if_neg (Ne.symm hij)]

@[simp] theorem get?_change {f : α → α} :
    (s.change i f).get? j = if j = i then (s.get? j).map f else s.get? j := by
  rw [get?, change, List.getElem?_modify, get?]
  by_cases hij : i = j
  · subst hij
    simp only [↓reduceIte]
    cases s.cells[i]? <;> rfl
  · simp [hij, Ne.symm hij]

theorem mem_values_of_get? (h : s.get? i = some a) : a ∈ s.values :=
  List.mem_filterMap.mpr ⟨some a, List.mem_of_getElem? (Option.join_eq_some_iff.mp h), rfl⟩

theorem fetch_eq_ok (h : s.get? i = some a) : s.fetch i = .ok a := by
  rw [fetch, h]

end Slots

end FlowGraph
