import ShaderSyntax.Ast.Stmt

/-!
# Declarations

A source file is a list of these.
-/
namespace ShaderSyntax

/-- A number in a hint, with an optional minus. -/
structure HintParam where
  negated : Bool
  number : Number
  deriving DecidableEq, Repr

/-- A hint. Parentheses without parameters differ from no parentheses. -/
structure Hint where
  name : Term
  params : Option (List HintParam)
  deriving DecidableEq, Repr

inductive Member where
  | field (specifier : Specifier)
  | error (skipped : Skipped)
  deriving DecidableEq, Repr

structure Parameter where
  qualifier : Option Text
  specifier : Specifier
  deriving DecidableEq, Repr

inductive Decl where
  | shaderType (type : Term)
  | renderMode (modes : List Term)
  | constant (precision : Option Text) (declared : Variable)
  | varying (interpolation precision : Option Text) (specifier : Specifier)
  | groupUniforms (group subgroup : Option Name)
  | uniform (scope : Option Scope) (precision : Option Text) (specifier : Specifier)
      (hints : List Hint) (value : Option Expr)
  | struct (name : Name) (members : List Member)
  | function (type : TypeRef) (name : Name) (params : List Parameter) (body : List Stmt)
  | includes (path : Text)
  | error (skipped : Skipped)

namespace HintParam

def node (p : HintParam) : Node :=
  if p.negated then
    .branch .unaryExpr
      [.attribute .operator (.punct UnaryOp.neg.punct), .child .argument p.number.node]
  else p.number.node

end HintParam

namespace Hint

def paramItems : Option (List HintParam) → List Item
  | none => []
  | some ps =>
    .mark .openParen :: Item.separated .param (ps.map HintParam.node) ++ [.mark .closeParen]

def node (h : Hint) : Node :=
  .branch .hint (.child .named (h.name.node .hintName .invalidHint) :: paramItems h.params)

/-- The hints are one child; without hints there is none. -/
def listNode? : List Hint → Option Node
  | [] => none
  | hs => some (.branch .hintList (Item.separated .hint (hs.map node)))

end Hint

namespace Member

def node : Member → Node
  | field s => .branch .structMember (s.items ++ [.mark .semicolon])
  | error s => .error s

end Member

namespace Parameter

def node (p : Parameter) : Node :=
  .branch .parameter
    (Item.child? .qualifier (p.qualifier.map (qualifierNode .paramQualifier)) ++
      p.specifier.items)

end Parameter

/-- The word after `#` that starts an include. -/
def includeWord : Text :=
  Text.ofString "include"

/-- The contents of a string literal: at most one quote is taken from each end. -/
def unquote (raw : Text) : Text :=
  let inner := if raw.head? = some Byte.quote then raw.tail else raw
  if inner.getLast? = some Byte.quote then inner.dropLast else inner

namespace Decl

def scopeItems : Option Scope → List Item
  | none => []
  | some s => [.attribute .scope (.word s.keyword.spelling)]

def node : Decl → Node
  | shaderType t =>
    .branch .shaderTypeDeclaration
      [.keyword .shaderType, .child .shaderType (t.node .shaderType .invalidShaderType),
        .mark .semicolon]
  | renderMode ts =>
    .branch .renderModeDeclaration
      (.keyword .renderMode ::
        Item.separated .renderMode (ts.map (Term.node .renderMode .invalidRenderMode)) ++
        [.mark .semicolon])
  | constant p v => v.constantNode .constDeclaration p
  | varying i p s =>
    .branch .varyingDeclaration
      (.keyword .varying ::
        Item.child? .interpolation (i.map (qualifierNode .interpolationQualifier)) ++
        Item.child? .precision (p.map (qualifierNode .precisionQualifier)) ++
        [.child .specifier s.node, .mark .semicolon])
  | groupUniforms g s =>
    .branch .groupUniformsDeclaration
      (.keyword .groupUniforms :: Item.child? .groupName (g.map Name.node) ++
        Item.marked? .dot .subgroupName (s.map Name.node) ++ [.mark .semicolon])
  | uniform c p s hs v =>
    .branch .uniformDeclaration
      (scopeItems c ++ .keyword .uniform ::
        Item.child? .precision (p.map (qualifierNode .precisionQualifier)) ++
        .child .specifier s.node :: Item.marked? .colon .hints (Hint.listNode? hs) ++
        Item.marked? .assign .value (v.map Expr.node) ++ [.mark .semicolon])
  | struct n ms =>
    .branch .structDeclaration
      (.keyword .struct :: .child .named n.node :: .mark .openBrace ::
        Item.children .member (ms.map Member.node) ++ [.mark .closeBrace, .mark .semicolon])
  | function t n ps body =>
    .branch .functionDeclaration
      (.child .functionType t.node :: .child .named n.node :: .mark .openParen ::
        Item.separated .parameter (ps.map Parameter.node) ++
        [.mark .closeParen, .child .body (Stmt.block body).node])
  | includes path =>
    .branch .includeDeclaration
      [.mark .hash, .token (.word includeWord), .child .file (.leaf .string (.string path))]
  | error s => .error s

end Decl

end ShaderSyntax
