import ShaderSyntax.Ast.Specifier

/-!
# Expressions

The type admits more than the grammar produces: an argument with a qualifier and a type as a callee
are expressions here, and the grammar writes them only where they belong.
-/
namespace ShaderSyntax

inductive Expr where
  | name (n : Name)
  | number (n : Number)
  | bool (value : Bool)
  | typeName (word : Text)
  | error (skipped : Skipped)
  | paren (value : Expr)
  | array (values : List Expr)
  | call (function : Expr) (arguments : List Expr)
  | qualified (qualifier : Text) (value : Expr)
  | subscript (base index : Expr)
  | member (base : Expr) (name : Name)
  | unary (op : UnaryOp) (operand : Expr)
  | binary (op : BinaryOp) (left right : Expr)
  | conditional (condition thenValue elseValue : Expr)

namespace Expr

mutual

def node : Expr → Node
  | name n => n.node
  | number n => n.node
  | bool value => .leaf .boolean (.word (boolText value))
  | typeName w => .leaf .builtinType (.word w)
  | error s => .error s
  | paren e => .branch .parenExpr [.mark .openParen, .child .value (node e), .mark .closeParen]
  | array es =>
    .branch .arrayLiteralExpr
      (.mark .openBrace :: Item.separated .value (nodes es) ++ [.mark .closeBrace])
  | call f es =>
    .branch .callExpr
      (.child .function (node f) :: .mark .openParen ::
        Item.separated .argument (nodes es) ++ [.mark .closeParen])
  | qualified q e =>
    .branch .qualifiedArgument
      [.child .paramQualifier (.leaf .paramQualifier (.word q)), .child .value (node e)]
  | subscript e i =>
    .branch .subscriptExpr
      [.child .argument (node e), .mark .openBracket, .child .index (node i), .mark .closeBracket]
  | member e n =>
    .branch .memberExpr [.child .argument (node e), .mark .dot, .child .member n.node]
  | unary op e =>
    .branch .unaryExpr [.attribute .operator (.punct op.punct), .child .argument (node e)]
  | binary op l r =>
    .branch .binaryExpr
      [.child .left (node l), .attribute .operator (.punct op.punct), .child .right (node r)]
  | conditional c t e =>
    .branch .conditionalExpr
      [.child .condition (node c), .mark .question, .child .action (node t), .mark .colon,
        .child .alternate (node e)]

def nodes : List Expr → List Node
  | [] => []
  | e :: es => node e :: nodes es

end

theorem nodes_eq_map (es : List Expr) : nodes es = es.map node := by
  induction es with
  | nil => simp [nodes]
  | cons e es ih => simp [nodes, ih]

/-- The parenthesised form of an expression, as loops and branches write their conditions. -/
def parenNode (e : Expr) : Node :=
  (paren e).node

theorem parenNode_eq (e : Expr) :
    e.parenNode =
      .branch .parenExpr [.mark .openParen, .child .value e.node, .mark .closeParen] := by
  simp only [parenNode, node]

def kind (e : Expr) : Kind :=
  e.node.kind

/-- What an assignment may change: a member, an element or a variable. -/
def isAssignable : Expr → Bool
  | name _ | subscript .. | member .. => true
  | _ => false

end Expr

end ShaderSyntax
