import ShaderSyntax.Tree

/-!
# One-line dumps

A tree in parentheses: its kind, the text of a leaf, and the fields with their labels, as in
`(binary_expr left: (ident a) operator: - right: (ident b))`.
-/
namespace ShaderSyntax

/-- Text in parentheses. -/
def parens (inner : Text) : Text :=
  Text.ofString "(" ++ inner ++ Text.ofString ")"

/-- What stands before the value of a field. -/
def Label.lead (l : Label) : Text :=
  l.name ++ Text.ofString ": "

mutual

def Tree.sexpr : Tree → Text
  | .leaf k _ t => parens (k.name ++ Text.ofString " " ++ t)
  | .error _ _ => parens Kind.error.name
  | .branch k _ fields => parens (k.name ++ Field.sexprs fields)

/-- The fields, with a space before each. -/
def Field.sexprs : List Field → Text
  | [] => []
  | .attribute label t :: rest => Text.ofString " " ++ label.lead ++ t ++ Field.sexprs rest
  | .child label t :: rest => Text.ofString " " ++ label.lead ++ t.sexpr ++ Field.sexprs rest

end

/-- The name under which dumps show a whole file. -/
def fileKind : Text :=
  Text.ofString "source_file"

/-- The declarations of a file as one expression. -/
def Tree.fileSexpr (decls : List Tree) : Text :=
  parens (fileKind ++ decls.flatMap fun d => Text.ofString " " ++ d.sexpr)

end ShaderSyntax
