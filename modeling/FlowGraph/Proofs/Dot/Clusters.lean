import FlowGraph.Proofs.Dot.Ids
import FlowGraph.Proofs.Dot.Written
import FlowGraph.Proofs.Dump
import FlowGraph.Proofs.Module.Histories

/-!
The clusters of an exported module keep apart. An id in a module starts with the number of its
cluster, which ends at a colon, and what escapes keep apart stays apart in quotes. The ends of an
edge are escaped piece by piece and a node's id as a whole, which makes no difference.
-/
namespace FlowGraph

/-! ## Escapes -/

namespace Text

variable {c d : Char} {r s : List Char}

/-- The first character can be told from what it is written as, whatever comes then. -/
theorem escapeChar_append_inj (h : escapeChar c ++ r = escapeChar d ++ s) : c = d ∧ r = s := by
  rcases Dot.Derivation.escapeChar_cases c with ⟨a, hc, hac⟩ | ⟨hc, -, hslash⟩ <;>
    rcases Dot.Derivation.escapeChar_cases d with ⟨b, hd, hbd⟩ | ⟨hd, -, hslash'⟩ <;>
    rw [hc, hd] at h
  · obtain ⟨rfl, rfl⟩ : a = b ∧ r = s := by simpa using h
    exact ⟨Option.some.inj (hac.symm.trans hbd), rfl⟩
  · exact absurd (List.cons.inj h).1.symm hslash'
  · exact absurd (List.cons.inj h).1 hslash
  · simpa using h

theorem escapeList_injective : Function.Injective escapeList := by
  intro cs
  induction cs with
  | nil =>
      intro ds h
      cases ds with
      | nil => rfl
      | cons d ds =>
          rcases Dot.Derivation.escapeChar_cases d with ⟨b, hd, -⟩ | ⟨hd, -, -⟩ <;> simp [hd] at h
  | cons c cs ih =>
      intro ds h
      cases ds with
      | nil =>
          rcases Dot.Derivation.escapeChar_cases c with ⟨b, hc, -⟩ | ⟨hc, -, -⟩ <;> simp [hc] at h
      | cons d ds =>
          obtain ⟨rfl, hrest⟩ := escapeChar_append_inj h
          rw [ih hrest]

theorem escape_injective : Function.Injective escape := by
  intro s t h
  rw [← String.toList_inj, toList_escape, toList_escape] at h
  exact String.toList_inj.mp (escapeList_injective h)

theorem escapeList_of_isDigit {cs : List Char} (h : ∀ c ∈ cs, c.isDigit) : escapeList cs = cs := by
  induction cs with
  | nil => rfl
  | cons c cs ih =>
      have hc : escapeChar c = [c] := by
        have hdigit := h c List.mem_cons_self
        unfold escapeChar
        split <;> simp at hdigit ⊢
      rw [escapeList_cons, hc, ih fun d hd => h d (List.mem_cons_of_mem c hd)]
      rfl

theorem isDigit_of_mem_decimal {n : Nat} {c : Char} (h : c ∈ (toString n).toList) : c.isDigit := by
  rw [Nat.toString_eq_repr, Nat.toList_repr] at h
  exact Nat.isDigit_of_mem_toDigits (by omega) (by omega) h

/-- A number is not changed by escapes. -/
theorem escape_toString (n : Nat) : escape (toString n) = toString n := by
  rw [← String.toList_inj, toList_escape]
  exact escapeList_of_isDigit fun c hc => isDigit_of_mem_decimal hc

end Text

/-! ## The text of a cluster -/

namespace Dot

/-- The line of a block whose id is written so. -/
def nodeLine (style : Style) (id name : String) : String :=
  "    " ++ id ++ " [shape=" ++ wordOrQuoted style.nodeShape ++ ", style=" ++
    wordOrQuoted style.nodeStyle ++ ", fillcolor=" ++ wordOrQuoted style.nodeFillColor ++
    ", label=\"BB-" ++ Text.escape name ++ "\"];\n"

/-- The line of an edge whose ends are written so. -/
def edgeLine (style : Style) (src dst tag : String) : String :=
  "    " ++ src ++ " -> " ++ dst ++ " [style=" ++ wordOrQuoted style.edgeStyle ++ ", color=" ++
    wordOrQuoted style.edgeColor ++ ", label=\"" ++ Text.escape tag ++ "\"];\n"

/-- The lines of a cluster: its heading, its blocks and its edges. -/
def clusterText (style : Style) (i : Nat) (f : Function) (node tip : BlockKey → String) : String :=
  "\nsubgraph \"cluster_" ++ toString i ++ "\" \x7b\n" ++
    "    label=\"" ++ Text.escape f.name ++ "\";\n" ++
    "    style=" ++ wordOrQuoted style.graphStyle ++ ";\n" ++
    "    color=" ++ wordOrQuoted style.graphColor ++ ";\n" ++
    String.join (f.nodes.map fun n => nodeLine style (node n.key) n.block.name) ++
    String.join (f.edges.map fun p => edgeLine style (tip p.1) (tip p.2.target) p.2.tag) ++ "\x7d\n"

theorem text_label (value : String) :
    (⟨"label", value⟩ : Attribute).text = "label=\"" ++ Text.escape value ++ "\"" := by
  have hsplit : "label=\"" = "label" ++ ("=" ++ "\"") := by decide
  have hkey : wordOrQuoted "label" = "label" := by decide
  simp only [Attribute.text, hkey, ↓reduceIte, Text.quoted, hsplit, String.append_assoc]

/-- An attribute whose key is a word, and not the one of labels. -/
theorem text_attribute (key : String) (h : wordOrQuoted key = key ∧ key ≠ "label")
    (value : String) : (⟨key, value⟩ : Attribute).text = key ++ ("=" ++ wordOrQuoted value) := by
  rw [Attribute.text, if_neg h.2, h.1, String.append_assoc]

theorem line_dotNode (b : Block) (id : String) (style : Style) :
    (b.dotNode id style).line = nodeLine style (Text.quoted id) b.name := by
  have hshape : " [shape=" = " " ++ ("[" ++ ("shape" ++ "=")) := by decide
  have hstyle : ", style=" = ", " ++ ("style" ++ "=") := by decide
  have hfill : ", fillcolor=" = ", " ++ ("fillcolor" ++ "=") := by decide
  have hlabel : ", label=\"BB-" = ", " ++ ("label=\"" ++ "BB-") := by decide
  have hclose : "\"];\n" = "\"" ++ ("]" ++ ";\n") := by decide
  have hlead : Text.escape nodeLabelLead = "BB-" := by decide
  -- `delta`, here and below, since the equation of a long text is slow to state.
  delta nodeLine
  simp only [hshape, hstyle, hfill, hlabel, hclose, Block.dotNode, Statement.line,
    Statement.text, attributesText, List.map_cons, List.map_nil, String.intercalate_cons_cons,
    String.intercalate_singleton, text_label, Text.escape_append, hlead,
    text_attribute "shape" (by decide), text_attribute "style" (by decide),
    text_attribute "fillcolor" (by decide), String.append_assoc]

theorem line_dotEdge (e : Edge) (src dst : String) (style : Style) :
    (e.dotEdge src dst style).line =
      edgeLine style (Text.quoted src) (Text.quoted dst) e.tag := by
  have hstyle : " [style=" = " " ++ ("[" ++ ("style" ++ "=")) := by decide
  have hcolor : ", color=" = ", " ++ ("color" ++ "=") := by decide
  have hlabel : ", label=\"" = ", " ++ "label=\"" := by decide
  have hclose : "\"];\n" = "\"" ++ ("]" ++ ";\n") := by decide
  delta edgeLine
  simp only [hstyle, hcolor, hlabel, hclose, Edge.dotEdge, Statement.line, Statement.text,
    attributesText, List.map_cons, List.map_nil, String.intercalate_cons_cons,
    String.intercalate_singleton, text_label, text_attribute "style" (by decide),
    text_attribute "color" (by decide), String.append_assoc]

theorem lines_heading (style : Style) (label : String) :
    lines (style.heading label) = "    label=\"" ++ Text.escape label ++ "\";\n" ++
      "    style=" ++ wordOrQuoted style.graphStyle ++ ";\n" ++
      "    color=" ++ wordOrQuoted style.graphColor ++ ";\n" := by
  have hlabel : "    label=\"" = "    " ++ "label=\"" := by decide
  have hclose : "\";\n" = "\"" ++ ";\n" := by decide
  have hstyle : "    style=" = "    " ++ ("style" ++ "=") := by decide
  have hcolor : "    color=" = "    " ++ ("color" ++ "=") := by decide
  simp only [Style.heading, lines, List.map_cons, List.map_nil, String.join_cons, String.join_nil,
    String.append_empty, Statement.line, Statement.text, text_label, hlabel, hclose, hstyle, hcolor,
    text_attribute "style" (by decide), text_attribute "color" (by decide),
    String.append_assoc]

theorem lines_dotStatements (f : Function) (style : Style) (lead : String) :
    lines (f.dotStatements style lead) =
      String.join (f.nodes.map fun n =>
        nodeLine style (Text.quoted (lead ++ f.dotId n.key)) n.block.name) ++
      String.join (f.edges.map fun p =>
        edgeLine style (Text.quoted (lead ++ f.dotId p.1))
          (Text.quoted (lead ++ f.dotId p.2.target)) p.2.tag) := by
  rw [lines, Function.dotStatements, List.map_append, String.join_append, List.map_map,
    List.map_map]
  simp only [Function.comp_def, line_dotNode, line_dotEdge]

theorem quoted_append (s t : String) :
    Text.quoted (s ++ t) = "\"" ++ Text.escape s ++ Text.escape t ++ "\"" := by
  simp only [Text.quoted, Text.escape_append, String.append_assoc]

/-- What stands before the ids of a cluster. -/
def clusterLead (i : Nat) : String := "f" ++ toString i ++ "::"

/-- The number ends at the colon, so the lead can be told from the id. -/
theorem clusterLead_append_inj {i j : Nat} {s t : String}
    (h : clusterLead i ++ s = clusterLead j ++ t) : i = j ∧ s = t := by
  have hlist : ∀ (i : Nat) (s : String), (clusterLead i ++ s).toList =
      'f' :: ((toString i).toList ++ ':' :: ':' :: s.toList) := by
    intro i s
    simp [clusterLead]
  have hdigits : ∀ i : Nat, ∀ c ∈ (toString i).toList, c.isDigit := fun i c hc =>
    Text.isDigit_of_mem_decimal hc
  rw [← String.toList_inj, hlist, hlist, List.cons.injEq] at h
  obtain ⟨hnumber, hrest⟩ := append_inj_of_forall (hdigits i) (hdigits j) (by simp) (by simp) h.2
  exact ⟨Nat.repr_inj.mp (String.toList_inj.mp hnumber),
    String.toList_inj.mp (by simpa using hrest)⟩

end Dot

theorem Function.Wired.dotCluster_eq_ok {f : Function} (h : f.Wired) (style : Dot.Style) (i : Nat) :
    f.dotCluster style i = .ok (Dot.clusterText style i f
      (fun key => Text.quoted (Dot.clusterLead i ++ f.dotId key))
      (fun key => Text.quoted (Dot.clusterLead i ++ f.dotId key))) := by
  have hlead : s!"f{i}::" = Dot.clusterLead i := rfl
  have hcluster : s!"cluster_{i}" = "cluster_" ++ toString i := rfl
  have hword : Text.escape "cluster_" = "cluster_" := by decide
  have hopen : "\nsubgraph \"cluster_" = "\nsubgraph " ++ ("\"" ++ "cluster_") := by decide
  have hclose : "\" \x7b\n" = "\"" ++ " \x7b\n" := by decide
  have hlines : f.dotLines style (Dot.clusterLead i) =
      .ok (Dot.lines (f.dotStatements style (Dot.clusterLead i))) := by
    rw [dotLines, h.dotBody_eq_ok]
    rfl
  delta dotCluster Dot.clusterText
  simp only [hlead, hcluster, hlines, bind, Except.bind, pure, Except.pure,
    Dot.quoted_append, hword, Text.escape_toString, Dot.lines_heading, Dot.lines_dotStatements,
    hopen, hclose, String.append_assoc]

namespace Module

variable {m : Module}

/-- The blocks of all functions, each with its function and the position of that. -/
def places (m : Module) : List (Nat × Function × BlockKey) :=
  m.members.zipIdx.flatMap fun (x, i) => x.function.keys.map fun key => (i, x.function, key)

/-- The text of a module whose node ids and ends of edges are written so. -/
def clustered (m : Module) (style : Dot.Style) (node tip : Nat → Function → BlockKey → String) :
    String :=
  "digraph \"" ++ Text.escape m.name ++ "\" \x7b\n" ++
    "    label=\"" ++ Text.escape m.name ++ "\";\n" ++
    String.join (m.members.zipIdx.map fun (x, i) =>
      Dot.clusterText style i x.function (node i x.function) (tip i x.function)) ++ "\x7d\n"

theorem mem_places_iff {i : Nat} {f : Function} {key : BlockKey} :
    (i, f, key) ∈ m.places ↔
      ∃ x, m.members[i]? = some x ∧ x.function = f ∧ key ∈ x.function.keys := by
  simp only [places, List.mem_flatMap, Prod.exists, List.mem_zipIdx_iff_getElem?, List.mem_map,
    Prod.mk.injEq]
  constructor
  · rintro ⟨x, _, hx, _, hkey, rfl, rfl, rfl⟩
    exact ⟨x, hx, rfl, hkey⟩
  · rintro ⟨x, hx, rfl, hkey⟩
    exact ⟨x, i, hx, key, hkey, rfl, rfl, rfl⟩

theorem nodup_places (h : ∀ x ∈ m.members, x.function.keys.Nodup) : m.places.Nodup := by
  rw [places, List.nodup_flatMap]
  constructor
  · intro p hp
    have hx := List.mem_of_getElem? (List.mem_zipIdx_iff_getElem?.mp hp)
    refine (h p.1 hx).map fun u v heq => ?_
    exact (Prod.mk.inj (Prod.mk.inj heq).2).2
  · have hindex : m.members.zipIdx.Pairwise fun p q => p.2 ≠ q.2 := by
      rw [← List.pairwise_map, List.zipIdx_map_snd]
      exact List.nodup_range'
    refine hindex.imp fun {p q} hne r hr hr' => ?_
    obtain ⟨_, -, rfl⟩ := List.mem_map.mp hr
    obtain ⟨_, -, heq⟩ := List.mem_map.mp hr'
    exact hne (congrArg Prod.fst heq).symm

/-- No two blocks of a module have the same id, for the lead tells the function. -/
theorem nodup_map_clusterLead (h : ∀ x ∈ m.members, x.function.Wired) :
    (m.places.map fun p => Dot.clusterLead p.1 ++ p.2.1.dotId p.2.2).Nodup := by
  refine (nodup_places fun x hx => (h x hx).nodup).map_on ?_
  rintro ⟨i, f, u⟩ hp ⟨j, g, v⟩ hq heq
  obtain ⟨x, hx, rfl, hu⟩ := mem_places_iff.mp hp
  obtain ⟨y, hy, rfl, hv⟩ := mem_places_iff.mp hq
  obtain ⟨rfl, hid⟩ := Dot.clusterLead_append_inj heq
  obtain rfl := Option.some.inj (hx.symm.trans hy)
  have hkey := (h x (List.mem_of_getElem? hx)).dotId_inj hu hv hid
  exact congrArg (fun key => (i, x.function, key)) hkey

theorem dot_eq_ok (h : ∀ x ∈ m.members, x.function.Wired) (style : Dot.Style) :
    m.dot style = .ok (m.clustered style
      (fun i f key => Text.quoted (Dot.clusterLead i ++ f.dotId key))
      (fun i f key => Text.quoted (Dot.clusterLead i ++ f.dotId key))) := by
  have hopen : "digraph \"" = "digraph " ++ "\"" := by decide
  have hbrace : "\" \x7b\n" = "\"" ++ " \x7b\n" := by decide
  have hlabel : "    label=\"" = "    " ++ "label=\"" := by decide
  have hclose : "\";\n" = "\"" ++ ";\n" := by decide
  have hclusters := mapM_eq_pure (l := m.members.zipIdx)
    (k := fun (x, i) => x.function.dotCluster style i)
    fun p hp => (h p.1 (List.mem_of_getElem? (List.mem_zipIdx_iff_getElem?.mp hp))).dotCluster_eq_ok
      style p.2
  delta dot clustered
  simp only [hclusters, pure_bind, hopen, hbrace, hlabel, hclose, Text.quoted, Dot.Statement.line,
    Dot.Statement.text, Dot.text_label, String.append_assoc]
  rfl

/-- The clusters of the text of a module share no id. Each block has a line of its own, whose id is
the id that its function gives it behind the lead of the cluster; no two of these ids are the same,
as they are or as they are written. The ends of an edge are written piece by piece, and they come
out as the ids of two nodes of the same cluster, those of its source and of its target. -/
theorem clusters_keep_apart (h : m.Reachable) (style : Dot.Style) :
    let id (i : Nat) (f : Function) (key : BlockKey) : String := Dot.clusterLead i ++ f.dotId key
    let node (i : Nat) (f : Function) (key : BlockKey) : String :=
      "\"" ++ Text.escape (id i f key) ++ "\""
    let tip (i : Nat) (f : Function) (key : BlockKey) : String :=
      "\"" ++ Text.escape (Dot.clusterLead i) ++ Text.escape (f.dotId key) ++ "\""
    m.dot style = .ok (m.clustered style node tip) ∧
      (m.places.map fun (i, f, key) => id i f key).Nodup ∧
      (m.places.map fun (i, f, key) => Text.escape (id i f key)).Nodup ∧
      ∀ i x, m.members[i]? = some x →
        (∀ key ∈ x.function.keys, x.function.dotIds.lookup key = some (x.function.dotId key)) ∧
        ∀ p ∈ x.function.edges,
          (∃ n ∈ x.function.nodes, n.key = p.1 ∧ tip i x.function p.1 = node i x.function n.key) ∧
          ∃ n ∈ x.function.nodes, n.key = p.2.target ∧
            tip i x.function p.2.target = node i x.function n.key := by
  intro id node tip
  have hwired : ∀ x ∈ m.members, x.function.Wired := fun x hx => (h.function hx).wired
  have htip : tip = node := funext fun i => funext fun f => funext fun key =>
    (Dot.quoted_append (Dot.clusterLead i) (f.dotId key)).symm
  have hids := nodup_map_clusterLead hwired
  have htext : m.dot style = .ok (m.clustered style node tip) := by
    rw [htip]
    exact dot_eq_ok hwired style
  refine ⟨htext, hids, ?_, fun i x hx => ?_⟩
  · have hescaped := hids.map Text.escape_injective
    rwa [List.map_map] at hescaped
  · have hw := hwired x (List.mem_of_getElem? hx)
    have hnode : ∀ u ∈ x.function.keys, ∃ n ∈ x.function.nodes, n.key = u ∧
        tip i x.function u = node i x.function n.key := by
      intro u hu
      obtain ⟨n, hn, rfl⟩ := Function.mem_keys_iff.1 hu
      exact ⟨n, hn, rfl, by rw [htip]⟩
    refine ⟨fun key hkey => Function.Wired.lookup_dotIds hkey, fun p hp => ?_⟩
    obtain ⟨hsrc, he⟩ := Function.mem_edges_iff.1 hp
    exact ⟨hnode p.1 hsrc, hnode p.2.target (hw.target_mem he)⟩

/-- A block has the id of a block of the next cluster for a name, and a name that needs escapes is
that of two blocks. -/
theorem clusters_keep_apart_nested :
    let m := (empty ⟨0⟩ "m").run
      [.create ⟨1⟩ "f", .create ⟨2⟩ "f", .edit ⟨0⟩ (.create "f1::a"), .edit ⟨0⟩ (.create "\\\""),
        .edit ⟨0⟩ (.create "\\\""), .edit ⟨1⟩ (.create "a"),
        .edit ⟨1⟩ (.connect ⟨⟨2⟩, 0⟩ ⟨⟨2⟩, 0⟩ "")]
    m.Reachable ∧ (∃ text, m.dot {} = .ok text) ∧
      (m.places.map fun (i, f, key) => Dot.clusterLead i ++ f.dotId key) =
        ["f0::f1::a", "f0::\\\"", "f0::\\\".1", "f1::a"] ∧
      (m.places.map fun (i, f, key) => Text.escape (Dot.clusterLead i ++ f.dotId key)).Nodup := by
  intro m
  have hm : m.Reachable := ⟨_, _, _, rfl⟩
  obtain ⟨htext, -, hescaped, -⟩ := clusters_keep_apart hm {}
  exact ⟨hm, ⟨_, htext⟩, by cbv, hescaped⟩

end Module

end FlowGraph
