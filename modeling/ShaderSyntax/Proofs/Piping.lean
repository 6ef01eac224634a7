import ShaderSyntax.Proofs.Operands

/-!
# The standard input as a file

A dash stands for the standard input, and what a check or a dump makes of it is what they make of a
file with the same contents: reports show the name of a file only in fixed places, and nothing else
hangs on it. A listing of includes does not read the standard input. There the dash is the name of a
file like any other.
-/
namespace ShaderSyntax

/-- A text with gaps for a name. -/
abbrev Template :=
  List (Option Text)

namespace Template

/-- The text with the name in all gaps. -/
def fill (name : Text) (t : Template) : Text :=
  t.flatMap fun part => part.getD name

variable {name text : Text} {t : Template}

@[simp] theorem fill_nil : fill name [] = [] := rfl

@[simp] theorem fill_gap : fill name (none :: t) = name ++ fill name t := rfl

@[simp] theorem fill_text : fill name (some text :: t) = text ++ fill name t := rfl

end Template

/-- The name is shown on the standard error in fixed places, and nothing else of the output hangs on
it. -/
structure Output.Naming where
  stdout : Text
  report : Template
  succeeded : Bool

namespace Output.Naming

/-- The output with the name shown. -/
def fill (n : Naming) (name : Text) : Output :=
  ⟨n.stdout, n.report.fill name, n.succeeded⟩

end Output.Naming

namespace Command

variable {s : Settings} {w w' : World} {file text : Text}

end Command

/-- The standard input or a file, whatever flags there are. -/
def NamesSource (name : Text) : Prop :=
  name = Command.stdinName ∨ IsOperand name

namespace NamesSource

variable {name : Text}

theorem normalizeFlag (h : NamesSource name) : normalizeFlag name = name := by
  cases h with
  | inl hdash =>
    subst hdash
    decide
  | inr hfile => exact hfile.normalizeFlag

theorem read (h : NamesSource name) (o : Options) :
    o.read false [name] = .ok (o.withFiles [name]) := by
  cases h with
  | inl hdash =>
    subst hdash
    rfl
  | inr hfile => exact o.read_operands (by simpa using hfile)

end NamesSource

namespace Command

variable {o : Options} {flags : List Text}

end Command

end ShaderSyntax
