import ShaderSyntax.Ast.Expr

/-!
# Statements

An action is what an expression statement does, without the semicolon: the update of a loop is an
action as well.
-/
namespace ShaderSyntax

inductive Action where
  | evaluate (value : Expr)
  | assign (target : Expr) (op : AssignOp) (value : Expr)
  | adjustAfter (target : Expr) (op : AdjustOp)
  | adjustBefore (op : AdjustOp) (target : Expr)

/-- A declared variable with its initial value. -/
structure Variable where
  specifier : Specifier
  value : Option Expr

mutual

inductive Stmt where
  | block (body : List Stmt)
  | declare (declared : Variable)
  | constant (precision : Option Text) (declared : Variable)
  | perform (action : Action)
  | ifThen (condition : Expr) (thenBranch : Stmt)
  | ifElse (condition : Expr) (thenBranch elseBranch : Stmt)
  | whileLoop (condition : Expr) (body : Stmt)
  | forLoop (declared : Variable) (condition : Expr) (update : Action) (body : Stmt)
  | switchOn (value : Expr) (clauses : List Clause)
  | returnValue (value : Option Expr)
  | breakOut
  | continueLoop
  | error (skipped : Skipped)

/-- A clause of a switch owns the statements up to the next one. -/
inductive Clause where
  | onValue (value : Expr) (body : List Stmt)
  | otherwise (body : List Stmt)
  | error (skipped : Skipped)

end

namespace Action

def kind : Action → Kind
  | evaluate _ => .exprStatement
  | assign .. => .assignmentStatement
  | adjustAfter .. | adjustBefore .. => .adjustmentStatement

def items : Action → List Item
  | evaluate e => [.child .value e.node]
  | assign t op v =>
    [.child .argument t.node, .attribute .operation (.punct op.punct), .child .value v.node]
  | adjustAfter t op => [.child .argument t.node, .attribute .operation (.punct op.punct)]
  | adjustBefore op t => [.attribute .operation (.punct op.punct), .child .argument t.node]

/-- As a statement, with its semicolon. -/
def statementNode (a : Action) : Node :=
  .branch a.kind (a.items ++ [.mark .semicolon])

/-- As the update of a loop, where an expression stands for itself. -/
def updateNode : Action → Node
  | evaluate e => e.node
  | a => .branch a.kind a.items

end Action

/-- A qualifier of the given kind. -/
def qualifierNode (kind : Kind) (word : Text) : Node :=
  .leaf kind (.word word)

namespace Variable

/-- The specifier, the value after `=` if there is one, and the semicolon. -/
def items (v : Variable) : List Item :=
  .child .specifier v.specifier.node :: Item.marked? .assign .value (v.value.map Expr.node) ++
    [.mark .semicolon]

def node (v : Variable) : Node :=
  .branch .varDeclaration v.items

/-- A constant, in the kind its surroundings give it. -/
def constantNode (kind : Kind) (precision : Option Text) (v : Variable) : Node :=
  .branch kind
    (.keyword .const ::
      Item.child? .precision (precision.map (qualifierNode .precisionQualifier)) ++ v.items)

end Variable

/-- Statements in braces. -/
def blockNode (statements : List Node) : Node :=
  .branch .block
    (.mark .openBrace :: Item.children .statement statements ++ [.mark .closeBrace])

mutual

def Stmt.node : Stmt → Node
  | .block body => blockNode (Stmt.nodes body)
  | .declare v => v.node
  | .constant p v => v.constantNode .constVarDeclaration p
  | .perform a => a.statementNode
  | .ifThen c t =>
    .branch .ifStatement [.keyword .ifThen, .child .condition c.parenNode, .child .action t.node]
  | .ifElse c t e =>
    .branch .ifStatement
      [.keyword .ifThen, .child .condition c.parenNode, .child .action t.node, .keyword .otherwise,
        .child .alternate e.node]
  | .whileLoop c b =>
    .branch .whileStatement
      [.keyword .whileLoop, .child .condition c.parenNode, .child .action b.node]
  | .forLoop v c u b =>
    .branch .forStatement
      [.keyword .forLoop, .mark .openParen, .child .initializer v.node,
        .child .condition (Action.evaluate c).statementNode, .child .update u.updateNode,
        .mark .closeParen, .child .action b.node]
  | .switchOn e cs =>
    .branch .switchStatement
      ([.keyword .switchOn, .mark .openParen, .child .condition e.node, .mark .closeParen,
        .mark .openBrace] ++ Item.children .clause (Clause.nodes cs) ++ [.mark .closeBrace])
  | .returnValue e =>
    .branch .returnStatement
      (.keyword .returnValue :: Item.child? .value (e.map Expr.node) ++ [.mark .semicolon])
  | .breakOut => .branch .breakStatement [.keyword .breakOut, .mark .semicolon]
  | .continueLoop => .branch .continueStatement [.keyword .continueLoop, .mark .semicolon]
  | .error s => .error s

def Stmt.nodes : List Stmt → List Node
  | [] => []
  | s :: ss => s.node :: Stmt.nodes ss

def Clause.node : Clause → Node
  | .onValue e body =>
    .branch .switchCase
      ([.keyword .caseLabel, .child .argument e.node, .mark .colon] ++
        Item.children .statement (Stmt.nodes body))
  | .otherwise body =>
    .branch .switchCase
      ([.attribute .caseLabel (.word Keyword.defaultLabel.spelling), .mark .colon] ++
        Item.children .statement (Stmt.nodes body))
  | .error s => .error s

def Clause.nodes : List Clause → List Node
  | [] => []
  | c :: cs => c.node :: Clause.nodes cs

end

theorem Stmt.nodes_eq_map (ss : List Stmt) : Stmt.nodes ss = ss.map Stmt.node := by
  induction ss with
  | nil => simp [Stmt.nodes]
  | cons s ss ih => simp [Stmt.nodes, ih]

theorem Clause.nodes_eq_map (cs : List Clause) : Clause.nodes cs = cs.map Clause.node := by
  induction cs with
  | nil => simp [Clause.nodes]
  | cons c cs ih => simp [Clause.nodes, ih]

end ShaderSyntax
