import ShaderSyntax.Span
import ShaderSyntax.Text

/-!
# Document values

The part of YAML that dumps use: texts, spans, lists, and mappings with their keys in order.
-/
namespace ShaderSyntax

inductive Yaml where
  | text (t : Text)
  | span (s : Span Nat)
  | list (items : List Yaml)
  | map (entries : List (Text × Yaml))

end ShaderSyntax
