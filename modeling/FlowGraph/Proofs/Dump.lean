import FlowGraph.Dump
import FlowGraph.History
import Mathlib

/-!
A listing is unambiguous where no name breaks a line. A block's line is read from its right end: what
stands behind the last opening bracket is no part of the name.
-/
namespace FlowGraph

/-! ## Where a text splits -/

section split

variable {α : Type} {xs ys r s : List α} {a : α}

/-- What is of a class ends where the rest begins. -/
theorem append_inj_of_forall {p : α → Bool} (hxs : ∀ b ∈ xs, p b) (hys : ∀ b ∈ ys, p b)
    (hr : ∀ b ∈ r.head?, ¬ p b) (hs : ∀ b ∈ s.head?, ¬ p b) (h : xs ++ r = ys ++ s) :
    xs = ys ∧ r = s := by
  have htake : ∀ {xs r : List α}, (∀ b ∈ xs, p b) → (∀ b ∈ r.head?, ¬ p b) →
      (xs ++ r).takeWhile p = xs := by
    intro xs r hxs hr
    rw [List.takeWhile_append_of_pos hxs]
    cases r with
    | nil => simp
    | cons b r => rw [List.takeWhile_cons_of_neg (hr b rfl), List.append_nil]
  obtain rfl : xs = ys := by rw [← htake hxs hr, h, htake hys hs]
  exact ⟨rfl, List.append_cancel_left h⟩

/-- A text splits at the first occurrence of an element. -/
theorem append_cons_inj_left (hxs : a ∉ xs) (hys : a ∉ ys) (h : xs ++ a :: r = ys ++ a :: s) :
    xs = ys ∧ r = s := by
  classical
  have hne : ∀ {l : List α}, a ∉ l → ∀ b ∈ l, decide (b ≠ a) := fun hl b hb =>
    decide_eq_true fun he => hl (he ▸ hb)
  obtain ⟨hx, hr⟩ := append_inj_of_forall (hne hxs) (hne hys) (by simp) (by simp) h
  exact ⟨hx, (List.cons.inj hr).2⟩

/-- A text splits at the last occurrence of an element. -/
theorem append_cons_inj_right (hr : a ∉ r) (hs : a ∉ s) (h : xs ++ a :: r = ys ++ a :: s) :
    xs = ys ∧ r = s := by
  have hrev := congrArg List.reverse h
  simp only [List.reverse_append, List.reverse_cons, List.append_assoc, List.singleton_append]
    at hrev
  obtain ⟨hr', hx'⟩ := append_cons_inj_left (by simpa using hr) (by simpa using hs) hrev
  exact ⟨List.reverse_inj.mp hx', List.reverse_inj.mp hr'⟩

end split

/-! ## Addresses -/

namespace Text

theorem digitChar_inj {a b : Nat} (ha : a < 16) (hb : b < 16)
    (h : Nat.digitChar a = Nat.digitChar b) : a = b := by
  have hall : ∀ a b : Fin 16, Nat.digitChar a = Nat.digitChar b → a = b := by decide
  exact congrArg Fin.val (hall ⟨a, ha⟩ ⟨b, hb⟩ h)

theorem hexDigits_inj {a b : Nat} (h : Nat.toDigits 16 a = Nat.toDigits 16 b) : a = b := by
  have hone : ∀ n, (Nat.toDigits 16 n).length ≤ 1 ↔ n < 16 := fun n =>
    Nat.length_toDigits_le_iff (by omega) (by omega)
  induction a using Nat.strongRecOn generalizing b with
  | ind a ih =>
      have hsmall : a < 16 ↔ b < 16 := by rw [← hone, ← hone, h]
      by_cases ha : a < 16
      · have hb := hsmall.mp ha
        rw [Nat.toDigits_of_lt_base ha, Nat.toDigits_of_lt_base hb] at h
        exact digitChar_inj ha hb (List.singleton_inj.mp h)
      · have hb := mt hsmall.mpr ha
        rw [Nat.toDigits_of_base_le (n := a) (by omega) (by omega),
          Nat.toDigits_of_base_le (n := b) (by omega) (by omega)] at h
        obtain ⟨hdiv, hmod⟩ := List.append_inj' h rfl
        have hdiv := ih (a / 16) (by omega) hdiv
        have hmod := digitChar_inj (Nat.mod_lt _ (by omega)) (Nat.mod_lt _ (by omega))
          (List.singleton_inj.mp hmod)
        omega

theorem isAlphanum_of_mem_hexDigits {n : Nat} {c : Char} (h : c ∈ Nat.toDigits 16 n) :
    c.isAlphanum := by
  have hdigit : ∀ d : Fin 16, (Nat.digitChar d).isAlphanum := by decide
  induction n using Nat.strongRecOn with
  | ind n ih =>
      by_cases hn : n < 16
      · rw [Nat.toDigits_of_lt_base hn] at h
        exact List.mem_singleton.mp h ▸ hdigit ⟨n, hn⟩
      · rw [Nat.toDigits_of_base_le (by omega) (by omega), List.mem_append] at h
        rcases h with h | h
        · exact ih (n / 16) (by omega) h
        · exact List.mem_singleton.mp h ▸ hdigit ⟨n % 16, Nat.mod_lt _ (by omega)⟩

end Text

/-! ## Blocks -/

/-- What the line of a block shows. -/
@[ext]
structure Block.Summary where
  name : String
  start : UInt64
  stop : UInt64
  entry : Bool
deriving DecidableEq

def Block.summary (b : Block) : Block.Summary := ⟨b.name, b.start, b.stop, b.flags.entry⟩

namespace Block.Summary

variable {b c : Summary}

/-- How the line ends. -/
def closing (b : Summary) : String := if b.entry then ", entry-block]" else "]"

/-- What follows the bracket behind the name. -/
def range (b : Summary) : String :=
  "start-addr=" ++ (Text.address b.start ++ (", end-addr=" ++ (Text.address b.stop ++ b.closing)))

def line (b : Summary) : String := "BB-" ++ b.name ++ "[" ++ b.range

theorem toList_range (b : Summary) :
    b.range.toList = "start-addr=".toList ++ ("0x".toList ++ (Nat.toDigits 16 b.start.toNat ++
      (", end-addr=".toList ++ ("0x".toList ++
        (Nat.toDigits 16 b.stop.toNat ++ b.closing.toList))))) := by
  simp only [range, Text.address, Text.hexDigits, String.toList_append, String.toList_ofList,
    List.append_assoc]

theorem toList_line (b : Summary) :
    b.line.toList = "BB-".toList ++ (b.name.toList ++ '[' :: b.range.toList) := by
  have hbracket : "[".toList = ['['] := rfl
  simp only [line, String.toList_append, hbracket, List.append_assoc, List.singleton_append]

theorem not_mem_range (b : Summary) : ∀ a ∈ ['[', '\n'], a ∉ b.range.toList := by
  have hdigits : ∀ n, ∀ a ∈ ['[', '\n'], a ∉ Nat.toDigits 16 n := by
    intro n a ha hmem
    have halpha : ∀ a ∈ ['[', '\n'], ¬ a.isAlphanum := by simp
    exact halpha a ha (Text.isAlphanum_of_mem_hexDigits hmem)
  have hclosing : ∀ a ∈ ['[', '\n'], a ∉ b.closing.toList := by
    unfold closing
    cases b.entry <;> simp
  have hmark : ∀ a ∈ ['[', '\n'], a ∉ "0x".toList := by simp
  have hstart : ∀ a ∈ ['[', '\n'], a ∉ "start-addr=".toList := by simp
  have hstop : ∀ a ∈ ['[', '\n'], a ∉ ", end-addr=".toList := by simp
  intro a ha
  simp only [toList_range, List.mem_append, not_or]
  exact ⟨hstart a ha, hmark a ha, hdigits _ a ha, hstop a ha, hmark a ha, hdigits _ a ha,
    hclosing a ha⟩

theorem not_isAlphanum_closing (b : Summary) : ∀ a ∈ b.closing.toList.head?, ¬ a.isAlphanum := by
  unfold closing
  cases b.entry <;> simp

theorem entry_eq_of_closing_eq (h : b.closing = c.closing) : b.entry = c.entry := by
  revert h
  unfold closing
  cases b.entry <;> cases c.entry <;> decide

theorem eq_of_range_eq (h : b.range = c.range) :
    b.start = c.start ∧ b.stop = c.stop ∧ b.entry = c.entry := by
  have hdigits : ∀ n, ∀ a ∈ Nat.toDigits 16 n, a.isAlphanum := fun n a ha =>
    Text.isAlphanum_of_mem_hexDigits ha
  have h := String.toList_inj.mpr h
  rw [toList_range, toList_range] at h
  obtain ⟨hstart, h⟩ := append_inj_of_forall (hdigits _) (hdigits _) (by simp) (by simp)
    (List.append_cancel_left (List.append_cancel_left h))
  obtain ⟨hstop, h⟩ := append_inj_of_forall (hdigits _) (hdigits _) b.not_isAlphanum_closing
    c.not_isAlphanum_closing (List.append_cancel_left (List.append_cancel_left h))
  exact ⟨UInt64.toNat_inj.mp (Text.hexDigits_inj hstart),
    UInt64.toNat_inj.mp (Text.hexDigits_inj hstop),
    entry_eq_of_closing_eq (String.toList_inj.mp h)⟩

/-- What stands behind the last opening bracket is no part of the name. -/
theorem line_injective : Function.Injective line := by
  intro b c h
  have h := String.toList_inj.mpr h
  rw [toList_line, toList_line] at h
  obtain ⟨hname, hrange⟩ := append_cons_inj_right (b.not_mem_range '[' (by simp))
    (c.not_mem_range '[' (by simp)) (List.append_cancel_left h)
  obtain ⟨hstart, hstop, hentry⟩ := eq_of_range_eq (String.toList_inj.mp hrange)
  exact Summary.ext (String.toList_inj.mp hname) hstart hstop hentry

/-- Only its name can break the line of a block. -/
theorem newline_not_mem_line (h : '\n' ∉ b.name.toList) : '\n' ∉ b.line.toList := by
  have hlead : '\n' ∉ "BB-".toList := by simp
  simp only [toList_line, List.mem_append, List.mem_cons, not_or]
  exact ⟨hlead, h, by decide, b.not_mem_range '\n' (by simp)⟩

end Block.Summary

theorem Block.dump_eq_line (b : Block) : b.dump = b.summary.line := by
  have hbracket : "[start-addr=" = "[" ++ "start-addr=" := by decide
  have hclosing : b.summary.closing = (if b.isEntry then ", entry-block" else "") ++ "]" := by
    change (if b.flags.entry then _ else _) = (if b.flags.entry then _ else _) ++ _
    cases b.flags.entry <;> decide
  rw [Summary.line, Summary.range, hclosing, dump, hbracket]
  simp only [summary, String.append_assoc, Dot.nodeLabelLead]

/-! ## Lines -/

/-- A text of lines, with a break at the end of each. -/
def Text.ofLines (lines : List String) : String := String.join (lines.map (· ++ "\n"))

namespace Text

theorem ofLines_cons (s : String) (ss : List String) :
    ofLines (s :: ss) = s ++ "\n" ++ ofLines ss := by
  rw [ofLines, ofLines, List.map_cons, String.join_cons]

theorem ofLines_append (ss ts : List String) : ofLines (ss ++ ts) = ofLines ss ++ ofLines ts := by
  rw [ofLines, ofLines, ofLines, List.map_append, String.join_append]

theorem ofLines_flatMap {α : Type} (f : α → List String) (xs : List α) :
    ofLines (xs.flatMap f) = String.join (xs.map fun x => ofLines (f x)) := by
  induction xs with
  | nil => rfl
  | cons x xs ih => rw [List.flatMap_cons, ofLines_append, ih, List.map_cons, String.join_cons]

theorem toList_ofLines_cons (s : String) (ss : List String) :
    (ofLines (s :: ss)).toList = s.toList ++ '\n' :: (ofLines ss).toList := by
  have hbreak : "\n".toList = ['\n'] := rfl
  simp only [ofLines_cons, String.toList_append, hbreak, List.append_assoc, List.singleton_append]

/-- Lines that are not broken themselves are told apart by their ends. -/
theorem ofLines_inj {ss ts : List String} (hss : ∀ s ∈ ss, '\n' ∉ s.toList)
    (hts : ∀ t ∈ ts, '\n' ∉ t.toList) (h : ofLines ss = ofLines ts) : ss = ts := by
  induction ss generalizing ts with
  | nil =>
      cases ts with
      | nil => rfl
      | cons t ts => simpa [toList_ofLines_cons, ofLines] using congrArg String.toList h
  | cons s ss ih =>
      cases ts with
      | nil => simpa [toList_ofLines_cons, ofLines] using congrArg String.toList h
      | cons t ts =>
          rw [← String.toList_inj, toList_ofLines_cons, toList_ofLines_cons] at h
          obtain ⟨hs, h⟩ := append_cons_inj_left (hss s List.mem_cons_self)
            (hts t List.mem_cons_self) h
          rw [String.toList_inj.mp hs, ih (fun r hr => hss r (List.mem_cons_of_mem s hr))
            (fun r hr => hts r (List.mem_cons_of_mem t hr)) (String.toList_inj.mp h)]

end Text

/-! ## Functions and modules -/

/-- What the listing of a function shows. -/
@[ext]
structure Function.Summary where
  name : String
  blocks : List Block.Summary
deriving DecidableEq

/-- What the listing of a module shows. -/
@[ext]
structure Module.Summary where
  name : String
  functions : List Function.Summary
deriving DecidableEq

def Function.summary (f : Function) : Function.Summary :=
  ⟨f.name, f.nodes.map (·.block.summary)⟩

def Module.summary (m : Module) : Module.Summary :=
  ⟨m.name, m.members.map (·.function.summary)⟩

namespace Function.Summary

variable {f g : Summary}

/-- The line of the name. -/
def head (f : Summary) : String := "Function-" ++ f.name

/-- The lines of the blocks, indented. -/
def body (f : Summary) : List String := f.blocks.map fun b => "\t" ++ b.line

def lines (f : Summary) : List String := f.head :: f.body

/-- No name breaks a line. -/
def Unbroken (f : Summary) : Prop :=
  '\n' ∉ f.name.toList ∧ ∀ b ∈ f.blocks, '\n' ∉ b.name.toList

theorem Unbroken.lines (h : f.Unbroken) : ∀ s ∈ f.lines, '\n' ∉ s.toList := by
  have hlead : '\n' ∉ "Function-".toList := by simp
  have htab : '\n' ∉ "\t".toList := by simp
  intro s hs
  rcases List.mem_cons.mp hs with rfl | hs
  · simp only [head, String.toList_append, List.mem_append, not_or]
    exact ⟨hlead, h.1⟩
  · obtain ⟨b, hb, rfl⟩ := List.mem_map.mp hs
    simp only [String.toList_append, List.mem_append, not_or]
    exact ⟨htab, Block.Summary.newline_not_mem_line (h.2 b hb)⟩

/-- The line is one of a block. -/
def indented (s : String) : Bool := s.toList.head? = some '\t'

theorem indented_body (f : Summary) : ∀ s ∈ f.body, indented s := by
  intro s hs
  obtain ⟨b, -, rfl⟩ := List.mem_map.mp hs
  simp [indented]

theorem not_indented_lines (fs : List Summary) :
    ∀ s ∈ (fs.flatMap Summary.lines).head?, ¬ indented s := by
  cases fs with
  | nil => simp
  | cons f fs => simp [Summary.lines, head, indented]

theorem eq_of_head_body_eq (hhead : f.head = g.head) (hbody : f.body = g.body) : f = g := by
  have hline : Function.Injective fun b : Block.Summary => "\t" ++ b.line := fun b c h =>
    Block.Summary.line_injective ((String.append_right_inj _).mp h)
  exact Summary.ext ((String.append_right_inj _).mp hhead) (List.map_injective_iff.mpr hline hbody)

/-- A function ends where the next line is not indented. -/
theorem flatMap_lines_injective : Function.Injective fun fs : List Summary => fs.flatMap lines := by
  intro fs
  induction fs with
  | nil =>
      intro gs h
      cases gs with
      | nil => rfl
      | cons g gs => simp [Summary.lines] at h
  | cons f fs ih =>
      intro gs h
      cases gs with
      | nil => simp [Summary.lines] at h
      | cons g gs =>
          simp only [List.flatMap_cons, Summary.lines, List.cons_append, List.cons.injEq] at h
          obtain ⟨hbody, hrest⟩ := append_inj_of_forall f.indented_body g.indented_body
            (not_indented_lines fs) (not_indented_lines gs) h.2
          rw [eq_of_head_body_eq h.1 hbody, ih hrest]

end Function.Summary

theorem Function.dump_eq_ofLines (f : Function) : f.dump = Text.ofLines f.summary.lines := by
  simp only [dump, Block.dump_eq_line, Text.ofLines, Summary.lines, Summary.head, Summary.body, summary,
    List.map_cons, List.map_map, String.join_cons, Function.comp_def]

namespace Module

variable {m n : Module}

namespace Summary

def head (m : Summary) : String := "Module-" ++ m.name

def lines (m : Summary) : List String := m.head :: m.functions.flatMap (·.lines)

/-- No name breaks a line. -/
def Unbroken (m : Summary) : Prop :=
  '\n' ∉ m.name.toList ∧ ∀ f ∈ m.functions, f.Unbroken

theorem Unbroken.lines {m : Summary} (h : m.Unbroken) : ∀ s ∈ m.lines, '\n' ∉ s.toList := by
  have hlead : '\n' ∉ "Module-".toList := by simp
  intro s hs
  rcases List.mem_cons.mp hs with rfl | hs
  · simp only [head, String.toList_append, List.mem_append, not_or]
    exact ⟨hlead, h.1⟩
  · obtain ⟨f, hf, hs⟩ := List.mem_flatMap.mp hs
    exact (h.2 f hf).lines s hs

theorem lines_injective : Function.Injective lines := by
  intro m n h
  obtain ⟨hname, hfunctions⟩ := List.cons.inj h
  exact Summary.ext ((String.append_right_inj _).mp hname)
    (Function.Summary.flatMap_lines_injective hfunctions)

end Summary

theorem dump_eq_ofLines (m : Module) : m.dump = Text.ofLines m.summary.lines := by
  have hname : "Module-" ++ m.name ++ "\n" = m.summary.head ++ "\n" := rfl
  rw [dump, hname, Summary.lines, Text.ofLines_cons, Text.ofLines_flatMap, summary, List.map_map]
  simp only [Function.dump_eq_ofLines, Function.comp_def]

/-- A listing is unambiguous: as long as no name breaks a line, two modules are listed alike if and
only if they have the same name and functions of the same names in the same order, with blocks of
the same names, addresses and entry flags in the same order. -/
theorem dump_eq_iff_summary_eq (hm : m.summary.Unbroken) (hn : n.summary.Unbroken) :
    m.dump = n.dump ↔ m.summary = n.summary := by
  rw [dump_eq_ofLines, dump_eq_ofLines]
  constructor
  · exact fun h => Summary.lines_injective (Text.ofLines_inj hm.lines hn.lines h)
  · exact fun h => by rw [h]

/-- The name of a block repeats what its line shows behind the name, and the name of a function
looks like the line of a block. -/
theorem dump_eq_iff_summary_eq_imitated :
    let m := (empty ⟨0⟩ "m").run [.create ⟨1⟩ "f",
      .edit ⟨0⟩ (.create "x[start-addr=0x0, end-addr=0x0, entry-block]")]
    let n := (empty ⟨2⟩ "m").run [.create ⟨3⟩ "f", .edit ⟨0⟩ (.create "x"),
      .create ⟨4⟩ "\tBB-x[start-addr=0x0, end-addr=0x0]"]
    m.summary.Unbroken ∧ n.summary.Unbroken ∧ m.dump ≠ n.dump := by
  intro m n
  have hms : m.summary = ⟨"m",
      [⟨"f", [⟨"x[start-addr=0x0, end-addr=0x0, entry-block]", 0, 0, true⟩]⟩]⟩ := rfl
  have hns : n.summary = ⟨"m",
      [⟨"f", [⟨"x", 0, 0, true⟩]⟩, ⟨"\tBB-x[start-addr=0x0, end-addr=0x0]", []⟩]⟩ := rfl
  have hm : m.summary.Unbroken := by
    simp [hms, Summary.Unbroken, Function.Summary.Unbroken]
  have hn : n.summary.Unbroken := by
    simp [hns, Summary.Unbroken, Function.Summary.Unbroken]
  refine ⟨hm, hn, fun h => ?_⟩
  have hsummary := (dump_eq_iff_summary_eq hm hn).mp h
  simp [hms, hns] at hsummary

end Module

end FlowGraph
