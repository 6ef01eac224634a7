import ShaderSyntax.Tree.SExpr

/-!
# Indented dumps

The one-line dump broken into lines, a field a line, two spaces deeper than its node. A node with at
most one child, and that child without children, stays on its line.
-/
namespace ShaderSyntax

/-- A line feed and two spaces for each level. -/
def lineBreak (level : Nat) : Text :=
  Byte.lineFeed :: Text.spaces (2 * level)

/-- Whether a tree stays on one line. -/
def Tree.isShort (t : Tree) : Bool :=
  t.fields.isEmpty || (t.children.length ≤ 1 && t.children.all fun c => c.children.isEmpty)

mutual

/-- A tree whose broken lines stand `level` levels deep. -/
def Tree.outline (level : Nat) : Tree → Text
  | .leaf k s t => (Tree.leaf k s t).sexpr
  | .error s m => (Tree.error s m).sexpr
  | .branch k s fields =>
    if (Tree.branch k s fields).isShort then (Tree.branch k s fields).sexpr
    else parens (k.name ++ Field.outlines level fields)

/-- The fields, each on a line of its own. -/
def Field.outlines (level : Nat) : List Field → Text
  | [] => []
  | .attribute label t :: rest =>
    lineBreak level ++ label.lead ++ t ++ Field.outlines level rest
  | .child label t :: rest =>
    lineBreak level ++ label.lead ++ t.outline (level + 1) ++ Field.outlines level rest

end

/-- A tree by itself, with a line feed at its end. -/
def Tree.print (t : Tree) : Text :=
  t.outline 1 ++ [Byte.lineFeed]

/-- The declarations of a file, with a line feed at the end. -/
def Tree.printFile (decls : List Tree) : Text :=
  parens (fileKind ++ decls.flatMap fun d => lineBreak 1 ++ d.outline 2) ++ [Byte.lineFeed]

end ShaderSyntax
