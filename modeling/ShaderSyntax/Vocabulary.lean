import ShaderSyntax.Vocabulary.Keyword
import ShaderSyntax.Vocabulary.Words

/-!
# Word classes

A word belongs to the vocabulary that lists it, or to none. Its class depends on the spelling alone;
what the class means depends on where the word stands, and builtin variables and functions are names
but not types.
-/
namespace ShaderSyntax

/-- The vocabulary a word belongs to. -/
inductive WordClass where
  | plain | precision | interpolation | shaderType | renderMode | hint | paramQualifier
  | builtinType | builtinVariable | builtinFunction | keyword | boolean
  deriving DecidableEq, Repr

/-- What a word stands for where a type is expected. -/
inductive TypeRole where
  | builtin | named | invalid
  deriving DecidableEq, Repr

namespace WordClass

def all : List WordClass :=
  [.plain, .precision, .interpolation, .shaderType, .renderMode, .hint, .paramQualifier,
   .builtinType, .builtinVariable, .builtinFunction, .keyword, .boolean]

theorem mem_all (c : WordClass) : c ∈ all := by
  cases c <;> decide

/-- The place of a class in the list of all classes. -/
def number (c : WordClass) : Nat :=
  all.idxOf c

def ofNumber? (n : Nat) : Option WordClass :=
  all[n]?

def name : WordClass → Text
  | plain => Text.ofString "identifier"
  | precision => Text.ofString "precision_qualifier"
  | interpolation => Text.ofString "interpolation_qualifier"
  | shaderType => Text.ofString "shader_type"
  | renderMode => Text.ofString "render_mode"
  | hint => Text.ofString "hint_name"
  | paramQualifier => Text.ofString "param_qualifier"
  | builtinType => Text.ofString "builtin_type"
  | builtinVariable => Text.ofString "builtin_variable"
  | builtinFunction => Text.ofString "builtin_function"
  | keyword => Text.ofString "keyword"
  | boolean => Text.ofString "boolean"

/-- The words of a closed vocabulary. Plain identifiers have no list. -/
def words? : WordClass → Option (List Text)
  | plain => none
  | precision => some Vocabulary.precisionQualifiers
  | interpolation => some Vocabulary.interpolationQualifiers
  | shaderType => some Vocabulary.shaderTypes
  | renderMode => some Vocabulary.renderModes
  | hint => some Vocabulary.hintNames
  | paramQualifier => some Vocabulary.paramQualifiers
  | builtinType => some Vocabulary.builtinTypes
  | builtinVariable => some Vocabulary.builtinVariables
  | builtinFunction => some Vocabulary.builtinFunctions
  | keyword => some (Keyword.all.map Keyword.spelling)
  | boolean => some Vocabulary.booleans

/-- The words of a closed vocabulary in byte order. -/
def sortedWords? (c : WordClass) : Option (List Text) :=
  c.words?.map Text.sort

def lists (c : WordClass) (w : Text) : Bool :=
  match c.words? with
  | some ws => ws.contains w
  | none => false

/-- A word of this class where a type is expected. -/
def typeRole : WordClass → TypeRole
  | builtinType => .builtin
  | plain => .named
  | _ => .invalid

/-- A word of this class where a name is expected. -/
def isName : WordClass → Bool
  | plain | builtinVariable | builtinFunction => true
  | _ => false

end WordClass

/-- The class that lists the word, or `plain` when none does. -/
def classify (w : Text) : WordClass :=
  (WordClass.all.find? fun c => c.lists w).getD .plain

end ShaderSyntax
