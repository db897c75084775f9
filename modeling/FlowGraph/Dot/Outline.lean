import FlowGraph.Dot.Label

/-!
What a list of statements describes, said at once: the ids in order of mention, and the edges.
-/
namespace FlowGraph.Dot

/-- The ids that a statement mentions, in order. -/
def Statement.mentions : Statement → List String
  | .attribute _ | .defaults _ _ => []
  | .node id _ => [id]
  | .edge src dst _ => [src, dst]

/-- An edge between two ids. -/
structure Link where
  src : String
  tag : String
  dst : String
deriving DecidableEq, Repr

/-- A way along links leads from one id to another. It may have no link at all. -/
inductive Leads (links : List Link) : String → String → Prop where
  | refl (id : String) : Leads links id id
  | step {l : Link} {dst : String} : l ∈ links → Leads links l.dst dst → Leads links l.src dst

def Statement.link? : Statement → Option Link
  | .edge src dst attributes => some ⟨src, edgeTag attributes, dst⟩
  | _ => none

namespace Graph

/-- The distinct ids, in order of first mention. -/
def ids (g : Graph) : List String := (g.statements.flatMap Statement.mentions).eraseDups

def links (g : Graph) : List Link := g.statements.filterMap Statement.link?

/-- The name of the block of an id, which the first mention of the id decides. -/
def blockName (g : Graph) (id : String) : String :=
  match g.statements.find? (id ∈ ·.mentions) with
  | some (.node _ attributes) => nodeName id attributes
  | _ => id

/-- No id has two outgoing edges of one tag. -/
def TagsDiffer (g : Graph) : Prop := (g.links.map fun l => (l.src, l.tag)).Nodup

instance (g : Graph) : Decidable g.TagsDiffer := inferInstanceAs (Decidable (List.Nodup _))

end Graph

end FlowGraph.Dot
