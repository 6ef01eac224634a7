import ShaderSyntax.Tree

/-!
# Walking a tree

The trees met in depth-first order, each with the tree that owns it.
-/
namespace ShaderSyntax

/-- A tree and its owner; a root has none. -/
structure Visit where
  parent? : Option Tree
  tree : Tree

mutual

/-- A tree and everything below it. Below a tree that `enter` refuses nothing is visited. -/
def Tree.visits (enter : Tree → Bool) (parent? : Option Tree) : Tree → List Visit
  | .leaf k s t => [⟨parent?, .leaf k s t⟩]
  | .error s m => [⟨parent?, .error s m⟩]
  | .branch k s fields =>
    let tree := Tree.branch k s fields
    ⟨parent?, tree⟩ :: if enter tree then Field.visits enter (some tree) fields else []

def Field.visits (enter : Tree → Bool) (parent? : Option Tree) : List Field → List Visit
  | [] => []
  | .attribute _ _ :: rest => Field.visits enter parent? rest
  | .child _ t :: rest => t.visits enter parent? ++ Field.visits enter parent? rest

end

/-- The visits of trees that follow each other, all of them roots. -/
def Tree.walk (enter : Tree → Bool) (roots : List Tree) : List Visit :=
  roots.flatMap fun t => t.visits enter none

end ShaderSyntax
