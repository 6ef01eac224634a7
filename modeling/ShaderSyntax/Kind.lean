import ShaderSyntax.Text

/-!
# Kinds and labels

The kinds of nodes of a syntax tree, and the labels under which a node holds its parts. Every dump of
a tree is written in these names.
-/
namespace ShaderSyntax

/-- The kind of a node. -/
inductive Kind where
  | ident | builtinVariable | builtinFunction | invalidIdent | builtinType | identType
  | invalidType | arrayType | shaderType | invalidShaderType | renderMode | invalidRenderMode
  | hintName | invalidHint | precisionQualifier | interpolationQualifier | paramQualifier
  | integer | float | boolean | string | error | shaderTypeDeclaration | renderModeDeclaration
  | varSpecifier | arraySizes | constDeclaration | varyingDeclaration | groupUniformsDeclaration
  | uniformDeclaration | hintList | hint | structDeclaration | structMember | functionDeclaration
  | parameter | includeDeclaration | varDeclaration | constVarDeclaration | assignmentStatement
  | adjustmentStatement | switchStatement | switchCase | forStatement | whileStatement
  | ifStatement | exprStatement | continueStatement | breakStatement | returnStatement | block
  | unaryExpr | binaryExpr | callExpr | qualifiedArgument | parenExpr | conditionalExpr
  | subscriptExpr | memberExpr | arrayLiteralExpr
  deriving DecidableEq, Repr

namespace Kind

def name : Kind → Text
  | ident => Text.ofString "ident"
  | builtinVariable => Text.ofString "builtin_variable"
  | builtinFunction => Text.ofString "builtin_function"
  | invalidIdent => Text.ofString "invalid_ident"
  | builtinType => Text.ofString "builtin_type"
  | identType => Text.ofString "ident_type"
  | invalidType => Text.ofString "invalid_type"
  | arrayType => Text.ofString "array_type"
  | shaderType => Text.ofString "shader_type"
  | invalidShaderType => Text.ofString "invalid_shader_type"
  | renderMode => Text.ofString "render_mode"
  | invalidRenderMode => Text.ofString "invalid_render_mode"
  | hintName => Text.ofString "hint_name"
  | invalidHint => Text.ofString "invalid_hint"
  | precisionQualifier => Text.ofString "precision_qualifier"
  | interpolationQualifier => Text.ofString "interpolation_qualifier"
  | paramQualifier => Text.ofString "param_qualifier"
  | integer => Text.ofString "integer"
  | float => Text.ofString "float"
  | boolean => Text.ofString "boolean"
  | string => Text.ofString "string"
  | error => Text.ofString "ERROR"
  | shaderTypeDeclaration => Text.ofString "shader_type_declaration"
  | renderModeDeclaration => Text.ofString "render_mode_declaration"
  | varSpecifier => Text.ofString "var_specifier"
  | arraySizes => Text.ofString "array_sizes"
  | constDeclaration => Text.ofString "const_declaration"
  | varyingDeclaration => Text.ofString "varying_declaration"
  | groupUniformsDeclaration => Text.ofString "group_uniforms_declaration"
  | uniformDeclaration => Text.ofString "uniform_declaration"
  | hintList => Text.ofString "hint_list"
  | hint => Text.ofString "hint"
  | structDeclaration => Text.ofString "struct_declaration"
  | structMember => Text.ofString "struct_member"
  | functionDeclaration => Text.ofString "function_declaration"
  | parameter => Text.ofString "parameter"
  | includeDeclaration => Text.ofString "include_declaration"
  | varDeclaration => Text.ofString "var_declaration"
  | constVarDeclaration => Text.ofString "const_var_declaration"
  | assignmentStatement => Text.ofString "assignment_statement"
  | adjustmentStatement => Text.ofString "adjustment_statement"
  | switchStatement => Text.ofString "switch_statement"
  | switchCase => Text.ofString "switch_case"
  | forStatement => Text.ofString "for_statement"
  | whileStatement => Text.ofString "while_statement"
  | ifStatement => Text.ofString "if_statement"
  | exprStatement => Text.ofString "expr_statement"
  | continueStatement => Text.ofString "continue_statement"
  | breakStatement => Text.ofString "break_statement"
  | returnStatement => Text.ofString "return_statement"
  | block => Text.ofString "block"
  | unaryExpr => Text.ofString "unary_expr"
  | binaryExpr => Text.ofString "binary_expr"
  | callExpr => Text.ofString "call_expr"
  | qualifiedArgument => Text.ofString "qualified_argument"
  | parenExpr => Text.ofString "paren_expr"
  | conditionalExpr => Text.ofString "conditional_expr"
  | subscriptExpr => Text.ofString "subscript_expr"
  | memberExpr => Text.ofString "member_expr"
  | arrayLiteralExpr => Text.ofString "array_literal_expr"

/-- The kinds of nodes that stand for input outside the grammar or outside a vocabulary. -/
def isInvalid : Kind → Bool
  | error | invalidIdent | invalidType | invalidShaderType | invalidRenderMode | invalidHint => true
  | _ => false

end Kind

/-- The label of a part of a node. -/
inductive Label where
  | baseType | size | shaderType | renderMode | ofType | named | sizes | precision | specifier
  | value | interpolation | groupName | subgroupName | scope | hints | hint | param | member
  | functionType | parameter | body | qualifier | file | argument | operation | condition
  | clause | caseLabel | statement | initializer | update | action | alternate | operator | left
  | right | function | paramQualifier | index
  deriving DecidableEq, Repr

namespace Label

def name : Label → Text
  | baseType => Text.ofString "base_type"
  | size => Text.ofString "size"
  | shaderType => Text.ofString "shader_type"
  | renderMode => Text.ofString "render_mode"
  | ofType => Text.ofString "type"
  | named => Text.ofString "name"
  | sizes => Text.ofString "sizes"
  | precision => Text.ofString "precision"
  | specifier => Text.ofString "specifier"
  | value => Text.ofString "value"
  | interpolation => Text.ofString "interpolation"
  | groupName => Text.ofString "group_name"
  | subgroupName => Text.ofString "subgroup_name"
  | scope => Text.ofString "scope"
  | hints => Text.ofString "hints"
  | hint => Text.ofString "hint"
  | param => Text.ofString "param"
  | member => Text.ofString "member"
  | functionType => Text.ofString "function_type"
  | parameter => Text.ofString "parameter"
  | body => Text.ofString "body"
  | qualifier => Text.ofString "qualifier"
  | file => Text.ofString "file"
  | argument => Text.ofString "argument"
  | operation => Text.ofString "operation"
  | condition => Text.ofString "condition"
  | clause => Text.ofString "case"
  | caseLabel => Text.ofString "label"
  | statement => Text.ofString "statement"
  | initializer => Text.ofString "initializer"
  | update => Text.ofString "update"
  | action => Text.ofString "action"
  | alternate => Text.ofString "alternate"
  | operator => Text.ofString "operator"
  | left => Text.ofString "left"
  | right => Text.ofString "right"
  | function => Text.ofString "function"
  | paramQualifier => Text.ofString "param_qualifier"
  | index => Text.ofString "index"

end Label

end ShaderSyntax
