import ShaderSyntax.Diagnostic
import ShaderSyntax.Grammar.Declaration

/-!
# Documents

A document is a parsed source file. Parsing gives one for every source that does not nest too deep:
whatever does not fit the grammar stands in it as an invalid leaf or an error node.
-/
namespace ShaderSyntax

/-- The levels of nesting allowed when nobody says otherwise. -/
def defaultLevels : Nat := 512

/-- The levels that a requested depth allows; zero and less ask for the default. -/
def levelsFor (depth : Int) : Nat :=
  if depth ≤ 0 then defaultLevels else depth.toNat

structure Document where
  source : Source
  decls : List Decl
  findings : List Finding

namespace Document

/-- Parses a source from its first lexeme to its last. -/
def ofSource (levels : Nat) (source : Source) : Except TooDeep Document :=
  match Grammar.declarations levels source.lexemes with
  | .done decls _ found => .ok ⟨source, decls, found⟩
  | .failed _ _ found => .ok ⟨source, [], found⟩
  | .tooDeep rest _ => .error (source.tooDeep levels rest.length)

def parse (levels : Nat) (text : Text) : Except TooDeep Document :=
  ofSource levels (.ofText text)

/-- The declarations as trees. -/
def trees (d : Document) : List Tree :=
  d.source.placeAll d.source.size (d.decls.map Decl.node)

def diagnostics (d : Document) : List Diagnostic :=
  d.source.diagnostics d.findings

def invalidTrees (d : Document) : List Tree :=
  d.source.invalidTrees d.findings

def comments (d : Document) : List Comment :=
  d.source.comments

def hasErrors (d : Document) : Bool :=
  !d.findings.isEmpty

end Document

end ShaderSyntax
