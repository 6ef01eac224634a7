import ShaderSyntax.Text

/-!
# Keywords

The structural words of the language. None of them can name a type or a variable, whether or not a
production starts with it.
-/
namespace ShaderSyntax

inductive Keyword where
  | renderMode | shaderType | groupUniforms | globalScope | instanceScope | const | varying
  | uniform | struct | forLoop | whileLoop | doLoop | ifThen | otherwise | elif | continueLoop
  | breakOut | switchOn | caseLabel | defaultLabel | returnValue
  deriving DecidableEq, Repr

namespace Keyword

def all : List Keyword :=
  [.renderMode, .shaderType, .groupUniforms, .globalScope, .instanceScope, .const, .varying,
   .uniform, .struct, .forLoop, .whileLoop, .doLoop, .ifThen, .otherwise, .elif, .continueLoop,
   .breakOut, .switchOn, .caseLabel, .defaultLabel, .returnValue]

theorem mem_all (k : Keyword) : k ∈ all := by
  cases k <;> decide

def spelling : Keyword → Text
  | renderMode => Text.ofString "render_mode"
  | shaderType => Text.ofString "shader_type"
  | groupUniforms => Text.ofString "group_uniforms"
  | globalScope => Text.ofString "global"
  | instanceScope => Text.ofString "instance"
  | const => Text.ofString "const"
  | varying => Text.ofString "varying"
  | uniform => Text.ofString "uniform"
  | struct => Text.ofString "struct"
  | forLoop => Text.ofString "for"
  | whileLoop => Text.ofString "while"
  | doLoop => Text.ofString "do"
  | ifThen => Text.ofString "if"
  | otherwise => Text.ofString "else"
  | elif => Text.ofString "elif"
  | continueLoop => Text.ofString "continue"
  | breakOut => Text.ofString "break"
  | switchOn => Text.ofString "switch"
  | caseLabel => Text.ofString "case"
  | defaultLabel => Text.ofString "default"
  | returnValue => Text.ofString "return"

/-- The keyword with the given spelling. -/
def ofText? (t : Text) : Option Keyword :=
  all.find? fun k => k.spelling == t

theorem spelling_of_ofText? {t : Text} {k : Keyword} (h : ofText? t = some k) : k.spelling = t := by
  simpa using List.find?_some h

@[simp] theorem ofText?_spelling (k : Keyword) : ofText? k.spelling = some k := by
  cases k <;> decide

end Keyword

end ShaderSyntax
