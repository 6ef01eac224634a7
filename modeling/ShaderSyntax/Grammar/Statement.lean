import ShaderSyntax.Ast.Stmt
import ShaderSyntax.Grammar.Expression
import ShaderSyntax.Grammar.Recovery

/-!
# The grammar of statements

The statements of a block and of a switch clause are recovered one by one, and so are the clauses.
A statement that is the body of another is not: its failure is the failure of the whole.
-/
namespace ShaderSyntax.Grammar

open ShaderSyntax.Parser

/-- A value after `=`, if there is one. -/
def initializer (expr : Parser Expr) : Parser (Option Expr) :=
  onPunct .assign
    (do
      let e ← expr
      value (some e))
    (value none)

/-- A specifier with its value, through the mark at the given place. -/
def variableThrough (place : Place) (expr : Parser Expr) : Parser Variable := do
  let s ← specifier
  let v ← initializer expr
  require place
  value ⟨s, v⟩

/-- A constant after its keyword. -/
def constant (expr : Parser Expr) : Parser (Option Text × Variable) := do
  let p ← qualifier .precision
  let v ← variableThrough .afterConstant expr
  value (p, v)

/-- The target of an adjustment whose operator stands before it. -/
def adjusted (expr : Parser Expr) (op : AdjustOp) : Parser Action := do
  let target ← suffixed expr
  if target.isAssignable then value (.adjustBefore op target)
  else fail fun _ => .unadjustable op target.kind

/-- What follows an expression that starts a statement: an assignment, an adjustment or nothing. -/
def actionOn (expr : Parser Expr) (target : Expr) : Parser Action := fun ts =>
  match ts with
  | .punct p :: rest =>
    match AssignOp.ofPunct? p, AdjustOp.ofPunct? p with
    | some op, _ =>
      if target.isAssignable then (expr.andThen fun v => value (.assign target op v)) rest
      else .failed (.unassignable target.kind) ts []
    | none, some op =>
      if target.isAssignable then .done (.adjustAfter target op) rest []
      else .failed (.unadjustable op target.kind) ts []
    | none, none => .done (.evaluate target) ts []
  | _ => .done (.evaluate target) ts []

/-- An action that starts with an expression. -/
def plainAction (expr : Parser Expr) : Parser Action := do
  let e ← expr
  actionOn expr e

/-- A statement of one expression, without its semicolon. -/
def action (expr : Parser Expr) : Parser Action := fun ts =>
  match ts with
  | .punct p :: rest =>
    match AdjustOp.ofPunct? p with
    | some op => adjusted expr op rest
    | none => plainAction expr ts
  | _ => plainAction expr ts

def perform (expr : Parser Expr) : Parser Stmt := do
  let a ← action expr
  require .afterStatement
  value (.perform a)

/-- A statement that becomes an error node when it fails. -/
def recoveredStmt (stmt : Parser Stmt) : Parser Stmt :=
  recovering Recovery.resumeStatement .error stmt

/-- The statements of a block, with its braces. -/
def block (stmt : Parser Stmt) : Parser (List Stmt) := do
  require .openBlock
  let body ← manyUntil (Recovery.isPunct .closeBrace) (recoveredStmt stmt)
  require .closeBlock
  value body

/-- An `if` after its keyword. An `else` belongs to the nearest one. -/
def branching (expr : Parser Expr) (stmt : Parser Stmt) : Parser Stmt := do
  let c ← parenthesized expr
  let t ← stmt
  onKeyword .otherwise
    (do
      let e ← stmt
      value (.ifElse c t e))
    (value (.ifThen c t))

/-- A `while` after its keyword. -/
def whileLoop (expr : Parser Expr) (stmt : Parser Stmt) : Parser Stmt := do
  let c ← parenthesized expr
  let body ← stmt
  value (.whileLoop c body)

/-- A `for` after its keyword. All three parts of its head are required. -/
def forLoop (expr : Parser Expr) (stmt : Parser Stmt) : Parser Stmt := do
  require .afterFor
  let v ← variableThrough .afterVariable expr
  let c ← expr
  require .afterLoopCondition
  let u ← action expr
  require .afterLoopUpdate
  let body ← stmt
  value (.forLoop v c u body)

/-- The colon and the statements of a clause. -/
def clauseBody (stmt : Parser Stmt) : Parser (List Stmt) := do
  require .afterCaseLabel
  manyUntil Recovery.endsClause (recoveredStmt stmt)

def clause (expr : Parser Expr) (stmt : Parser Stmt) : Parser Clause :=
  onKeyword .caseLabel
    (do
      let e ← expr
      let body ← clauseBody stmt
      value (.onValue e body))
    (onKeyword .defaultLabel
      (do
        let body ← clauseBody stmt
        value (.otherwise body))
      (fail (.expected .caseOrDefault)))

/-- A `switch` after its keyword. -/
def switchOn (expr : Parser Expr) (stmt : Parser Stmt) : Parser Stmt := do
  require .afterSwitch
  let e ← expr
  require .afterSwitchValue
  require .openSwitch
  let clauses ← manyUntil (Recovery.isPunct .closeBrace)
    (recovering Recovery.resumeClause .error (clause expr stmt))
  require .closeSwitch
  value (.switchOn e clauses)

/-- A `return` after its keyword. -/
def returnValue (expr : Parser Expr) : Parser Stmt :=
  onPunct .semicolon (value (.returnValue none))
    (do
      let e ← expr
      require .afterReturn
      value (.returnValue (some e)))

/-- A word, sizes and a word: what starts with these declares a variable. -/
def startsVariable : List Lexeme → Bool
  | .word _ :: rest =>
    match (sizeSuffixes rest).2 with
    | .word _ :: _ => true
    | _ => false
  | _ => false

/-- A statement that no keyword and no brace starts. -/
def plainStmt (expr : Parser Expr) : Parser Stmt := fun ts =>
  if startsVariable ts then
    ((variableThrough .afterVariable expr).andThen fun v => value (.declare v)) ts
  else perform expr ts

/-- The statement that a keyword starts, from the lexeme after it. -/
def keywordStmt (expr : Parser Expr) (stmt : Parser Stmt) : Keyword → Option (Parser Stmt)
  | .ifThen => some (branching expr stmt)
  | .whileLoop => some (whileLoop expr stmt)
  | .forLoop => some (forLoop expr stmt)
  | .switchOn => some (switchOn expr stmt)
  | .returnValue => some (returnValue expr)
  | .breakOut =>
    some do
      require .afterBreak
      value .breakOut
  | .continueLoop =>
    some do
      require .afterContinue
      value .continueLoop
  | .const =>
    some do
      let (p, v) ← constant expr
      value (.constant p v)
  | _ => none

/-- A statement over the parsers of what it contains. -/
def statementOf (expr : Parser Expr) (stmt : Parser Stmt) : Parser Stmt := fun ts =>
  match ts with
  | .punct .openBrace :: _ => ((block stmt).andThen fun body => value (.block body)) ts
  | .word w :: rest =>
    match (Keyword.ofText? w).bind (keywordStmt expr stmt) with
    | some p => p rest
    | none => plainStmt expr ts
  | _ => plainStmt expr ts

/-- A statement that may nest the given number of levels, itself included. -/
def statement : Nat → List Lexeme → Outcome Stmt
  | 0, ts => tooDeep ts
  | levels + 1, ts => statementOf (expression levels) (statement levels) ts

theorem statement_zero : statement 0 = tooDeep := rfl

theorem statement_succ (levels : Nat) :
    statement (levels + 1) = statementOf (expression levels) (statement levels) := rfl

end ShaderSyntax.Grammar
