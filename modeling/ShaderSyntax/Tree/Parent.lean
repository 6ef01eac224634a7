import ShaderSyntax.Document
import ShaderSyntax.Tree.Walk

/-!
# Owners

Trees hold their children and know nothing of what holds them. The owners are gathered on a walk:
the children of every tree that it meets are noted with that tree, later notes over earlier ones. A
tree is told by its kind and its span.
-/
namespace ShaderSyntax

/-- What tells a tree of a document from the others. -/
def Tree.key (t : Tree) : Kind × Span Nat :=
  (t.kind, t.span)

/-- The noted owners. Roots are noted without one, and what is not noted has none either. -/
abbrev Owners :=
  Kind × Span Nat → Option Tree

namespace Owners

def empty : Owners := fun _ => none

/-- The owners with one note more, in place of any note on the same tree. -/
def put (owners : Owners) (t : Tree) (owner? : Option Tree) : Owners :=
  fun key => if key = t.key then owner? else owners key

/-- Notes the tree as the owner of its children. -/
def adopt (owners : Owners) (t : Tree) : Owners :=
  t.children.foldl (fun owners child => owners.put child (some t)) owners

/-- Notes the owners of a root and of all below it. -/
def enroll (owners : Owners) (root : Tree) : Owners :=
  (root.visits (fun _ => true) none).foldl (fun owners v => owners.adopt v.tree)
    (owners.put root none)

def ofRoots (roots : List Tree) : Owners :=
  roots.foldl enroll empty

end Owners

namespace Document

/-- The tree that owns the tree. A declaration has none, and neither has a tree of another
document. -/
def parent? (d : Document) (t : Tree) : Option Tree :=
  Owners.ofRoots d.trees t.key

/-- The owner that so many steps from owner to owner lead to. -/
def ancestor? (d : Document) : Nat → Tree → Option Tree
  | 0, t => some t
  | steps + 1, t => (d.ancestor? steps t).bind d.parent?

end Document

end ShaderSyntax
