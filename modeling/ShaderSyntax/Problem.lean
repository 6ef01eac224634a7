import ShaderSyntax.Kind
import ShaderSyntax.Operator
import ShaderSyntax.Vocabulary

/-!
# Problems

Everything that can be wrong with a source, as causes. A word outside the vocabulary of its position
leaves the rest of its production intact; any other problem ends the production that meets it.
-/
namespace ShaderSyntax

/-- The marks that the grammar requires, by the place that requires them. -/
inductive Place where
  | conditionalBranch | afterIndex | beforeExpression | afterExpression | closeArrayLiteral
  | closeArguments | afterArraySize | afterBreak | afterContinue | openBlock | closeBlock
  | afterVariable | afterConstant | afterStatement | afterFor | afterLoopCondition
  | afterLoopUpdate | afterSwitch | afterSwitchValue | openSwitch | closeSwitch | afterCaseLabel
  | afterReturn | afterShaderType | afterRenderModes | afterVarying | afterGroupUniforms
  | afterUniform | closeHintParameters | openStruct | closeStruct | afterStruct | afterMember
  | afterFunctionName | closeParameters
  deriving DecidableEq, Repr

namespace Place

/-- The mark required at a place. -/
def punct : Place → Punct
  | conditionalBranch => .colon
  | afterIndex => .closeBracket
  | beforeExpression => .openParen
  | afterExpression => .closeParen
  | closeArrayLiteral => .closeBrace
  | closeArguments => .closeParen
  | afterArraySize => .closeBracket
  | afterBreak => .semicolon
  | afterContinue => .semicolon
  | openBlock => .openBrace
  | closeBlock => .closeBrace
  | afterVariable => .semicolon
  | afterConstant => .semicolon
  | afterStatement => .semicolon
  | afterFor => .openParen
  | afterLoopCondition => .semicolon
  | afterLoopUpdate => .closeParen
  | afterSwitch => .openParen
  | afterSwitchValue => .closeParen
  | openSwitch => .openBrace
  | closeSwitch => .closeBrace
  | afterCaseLabel => .colon
  | afterReturn => .semicolon
  | afterShaderType => .semicolon
  | afterRenderModes => .semicolon
  | afterVarying => .semicolon
  | afterGroupUniforms => .semicolon
  | afterUniform => .semicolon
  | closeHintParameters => .closeParen
  | openStruct => .openBrace
  | closeStruct => .closeBrace
  | afterStruct => .semicolon
  | afterMember => .semicolon
  | afterFunctionName => .openParen
  | closeParameters => .closeParen

def description : Place → Text
  | conditionalBranch => Text.ofString "in conditional expression"
  | afterIndex => Text.ofString "after index"
  | beforeExpression => Text.ofString "before expression"
  | afterExpression => Text.ofString "after expression"
  | closeArrayLiteral => Text.ofString "to close array literal"
  | closeArguments => Text.ofString "to close argument list"
  | afterArraySize => Text.ofString "after array size"
  | afterBreak => Text.ofString "after break"
  | afterContinue => Text.ofString "after continue"
  | openBlock => Text.ofString "to open block"
  | closeBlock => Text.ofString "to close block"
  | afterVariable => Text.ofString "after variable declaration"
  | afterConstant => Text.ofString "after constant declaration"
  | afterStatement => Text.ofString "after statement"
  | afterFor => Text.ofString "after for"
  | afterLoopCondition => Text.ofString "after loop condition"
  | afterLoopUpdate => Text.ofString "after loop update"
  | afterSwitch => Text.ofString "after switch"
  | afterSwitchValue => Text.ofString "after switch value"
  | openSwitch => Text.ofString "to open switch body"
  | closeSwitch => Text.ofString "to close switch body"
  | afterCaseLabel => Text.ofString "after case label"
  | afterReturn => Text.ofString "after return"
  | afterShaderType => Text.ofString "after shader type"
  | afterRenderModes => Text.ofString "after render modes"
  | afterVarying => Text.ofString "after varying declaration"
  | afterGroupUniforms => Text.ofString "after group_uniforms"
  | afterUniform => Text.ofString "after uniform declaration"
  | closeHintParameters => Text.ofString "to close hint parameters"
  | openStruct => Text.ofString "to open struct body"
  | closeStruct => Text.ofString "to close struct body"
  | afterStruct => Text.ofString "after struct declaration"
  | afterMember => Text.ofString "after struct member"
  | afterFunctionName => Text.ofString "after function name"
  | closeParameters => Text.ofString "to close parameter list"

end Place

/-- What else the grammar may require. -/
inductive Wanted where
  | expression | ofType | identifier | statement | declaration | shaderType | renderMode | hint
  | caseOrDefault | includeWord | includePath
  deriving DecidableEq, Repr

def Wanted.description : Wanted → Text
  | .expression => Text.ofString "expression"
  | .ofType => Text.ofString "type"
  | .identifier => Text.ofString "identifier"
  | .statement => Text.ofString "statement"
  | .declaration => Text.ofString "declaration"
  | .shaderType => Text.ofString "shader type"
  | .renderMode => Text.ofString "render mode"
  | .hint => Text.ofString "hint"
  | .caseOrDefault => Text.ofString "case or default"
  | .includeWord => Text.ofString "include after '#'"
  | .includePath => Text.ofString "include path string"

/-- The word before `uniform` that says where its value lives. -/
inductive Scope where
  | wide | perInstance
  deriving DecidableEq, Repr

namespace Scope

def keyword : Scope → Keyword
  | wide => .globalScope
  | perInstance => .instanceScope

end Scope

/-- The two grades of a problem. -/
inductive ProblemKind where
  | invalidVocabulary | structural
  deriving DecidableEq, Repr

def ProblemKind.name : ProblemKind → Text
  | .invalidVocabulary => Text.ofString "invalid vocabulary"
  | .structural => Text.ofString "syntax error"

/-- What is wrong. Where a problem names what was met instead, the end of the input is `none`. -/
inductive Problem where
  | notAType (cls : WordClass) (word : Text)
  | notAName (cls : WordClass) (word : Text)
  | unknownShaderType (word : Text)
  | unknownRenderMode (word : Text)
  | unknownHint (word : Text)
  | missing (place : Place) (got : Option Lexeme)
  | expected (wanted : Wanted) (got : Option Lexeme)
  | expectedUniform (scope : Scope) (got : Option Lexeme)
  | arraySize (got : Option Lexeme)
  | hintParameter (got : Option Lexeme)
  | unassignable (target : Kind)
  | unadjustable (op : AdjustOp) (target : Kind)
  | emptyStruct (name : Text)
  | unexpected (lexeme : Lexeme)
  deriving DecidableEq, Repr

namespace Problem

def kind : Problem → ProblemKind
  | notAType .. | notAName .. | unknownShaderType _ | unknownRenderMode _ | unknownHint _ =>
    .invalidVocabulary
  | _ => .structural

/-- What was met, as the end of a message. -/
def got (l : Option Lexeme) : Text :=
  Text.ofString ", got " ++ Lexeme.describe l

def message : Problem → Text
  | notAType cls word =>
    cls.name ++ Text.ofString " " ++ word.quoted ++ Text.ofString " cannot be used as a type"
  | notAName cls word =>
    cls.name ++ Text.ofString " " ++ word.quoted ++ Text.ofString " cannot be used as an identifier"
  | unknownShaderType word => Text.ofString "unknown shader type " ++ word.quoted
  | unknownRenderMode word => Text.ofString "unknown render mode " ++ word.quoted
  | unknownHint word => Text.ofString "unknown hint " ++ word.quoted
  | missing place l =>
    Text.ofString "expected '" ++ place.punct.spelling ++ Text.ofString "' " ++
      place.description ++ got l
  | expected wanted l => Text.ofString "expected " ++ wanted.description ++ got l
  | expectedUniform scope l =>
    Text.ofString "expected uniform after " ++ scope.keyword.spelling ++ got l
  | arraySize l => Text.ofString "array size must be an integer literal" ++ got l
  | hintParameter l => Text.ofString "hint parameter must be a number" ++ got l
  | unassignable target => Text.ofString "cannot assign to " ++ target.name
  | unadjustable op target =>
    Text.ofString "cannot apply " ++ op.punct.spelling ++ Text.ofString " to " ++ target.name
  | emptyStruct name => Text.ofString "struct " ++ name ++ Text.ofString " has no members"
  | unexpected l =>
    Text.ofString "unexpected " ++ Lexeme.describe (some l) ++ Text.ofString " in expression"

end Problem

/-- Lexemes that no production took, and why: the problem arose after `reached` of them. -/
structure Skipped where
  lexemes : List Lexeme
  reached : Nat
  problem : Problem
  deriving DecidableEq, Repr

end ShaderSyntax
