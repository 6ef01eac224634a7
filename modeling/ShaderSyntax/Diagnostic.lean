import ShaderSyntax.Grammar
import ShaderSyntax.Source

/-!
# Diagnostics

A problem at its place in a source, and the limit on nesting as the one thing that stops a parse.
-/
namespace ShaderSyntax

/-- A problem and the token it was met at. -/
structure Diagnostic where
  problem : Problem
  token : Token

namespace Diagnostic

def kind (d : Diagnostic) : ProblemKind :=
  d.problem.kind

def message (d : Diagnostic) : Text :=
  d.problem.message

def span (d : Diagnostic) : Span Nat :=
  d.token.span

def position (d : Diagnostic) : Position :=
  d.token.position

end Diagnostic

/-- A line and a column before a message. -/
def Position.report (p : Position) (message : Text) : Text :=
  Text.ofString "line " ++ Text.ofNat p.line ++ Text.ofString ", col " ++ Text.ofNat p.column ++
    Text.ofString ": " ++ message

/-- The message of a diagnostic with its place. -/
def Diagnostic.report (d : Diagnostic) : Text :=
  d.position.report d.message

/-- Nesting beyond the levels allowed, and where it was met. -/
structure TooDeep where
  levels : Nat
  position : Position

def TooDeep.report (e : TooDeep) : Text :=
  e.position.report
    (Text.ofString "nesting deeper than " ++ Text.ofNat e.levels ++ Text.ofString " levels")

namespace Source

/-- The diagnostic of a problem met where so many lexemes are left. -/
def diagnose (s : Source) (problem : Problem) (left : Nat) : Diagnostic :=
  ⟨problem, s.tokenLeft left⟩

def diagnostics (s : Source) (findings : List Finding) : List Diagnostic :=
  findings.map fun f => s.diagnose f.problem f.left

/-- The trees that stand for the findings. -/
def invalidTrees (s : Source) (findings : List Finding) : List Tree :=
  findings.map fun f => s.place f.nodeLeft f.node

def tooDeep (s : Source) (levels left : Nat) : TooDeep :=
  ⟨levels, (s.tokenLeft left).position⟩

end Source

end ShaderSyntax
