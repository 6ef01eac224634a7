import ShaderSyntax.Yaml
import ShaderSyntax.Yaml.Scalar

/-!
# Written documents

A mapping is written a key a line, what belongs to a key two spaces deeper, and the items of a list
each behind a dash. Spans and empty lists stand on the line of their key.
-/
namespace ShaderSyntax.Yaml

/-- A span in brackets. -/
def spanText (s : Span Nat) : Text :=
  Text.ofString "[" ++ Text.ofNat s.start ++ Text.ofString ", " ++ Text.ofNat s.stop ++
    Text.ofString "]"

/-- A line feed and so many spaces. -/
def newLine (indent : Nat) : Text :=
  Byte.lineFeed :: Text.spaces indent

mutual

/-- A value behind its key, which stands at the given indentation. -/
def afterKey (indent : Nat) : Yaml → Text
  | .text t => Text.ofString " " ++ Scalar.render indent t
  | .span s => Text.ofString " " ++ spanText s
  | .list [] => Text.ofString " []"
  | .list (item :: items) => itemsAt (indent + 2) (item :: items)
  | .map entries => newLine (indent + 2) ++ entriesAt (indent + 2) entries

/-- An item behind its dash, with the given indentation for what does not fit on its line. -/
def afterDash (indent : Nat) : Yaml → Text
  | .text t => Scalar.render indent t
  | .span s => spanText s
  | .list [] => Text.ofString "[]"
  | .list (item :: items) => itemsAt indent (item :: items)
  | .map entries => entriesAt indent entries

/-- Items, each on a line of its own. -/
def itemsAt (indent : Nat) : List Yaml → Text
  | [] => []
  | item :: rest =>
    newLine indent ++ Text.ofString "- " ++ afterDash (indent + 2) item ++ itemsAt indent rest

/-- Entries, the first on the line already begun. -/
def entriesAt (indent : Nat) : List (Text × Yaml) → Text
  | [] => []
  | [(key, value)] => key ++ Text.ofString ":" ++ afterKey indent value
  | (key, value) :: rest =>
    key ++ Text.ofString ":" ++ afterKey indent value ++ newLine indent ++ entriesAt indent rest

end

/-- A whole document, with a line feed at its end. -/
def render (y : Yaml) : Text :=
  afterDash 0 y ++ [Byte.lineFeed]

end ShaderSyntax.Yaml
