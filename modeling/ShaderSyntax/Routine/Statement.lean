import ShaderSyntax.Grammar.Statement
import ShaderSyntax.Routine.Expression

/-!
# Statements in steps

The routines of statements, and with them those of all productions that nest.
-/
namespace ShaderSyntax

namespace Routine

/-- A value after `=`, if there is one. -/
def initializer : Routine (Option Expr) :=
  onPunct .assign
    (do
      let e ← nested .expression
      value (some e))
    (value none)

/-- A specifier with its value, through the mark at the given place. -/
def variableThrough (place : Place) : Routine Variable := do
  let s ← specifier
  let v ← initializer
  require place
  value ⟨s, v⟩

/-- A constant after its keyword. -/
def constant : Routine (Option Text × Variable) := do
  let p ← qualifier .precision
  let v ← variableThrough .afterConstant
  value (p, v)

/-- The target of an adjustment whose operator stands before it. -/
def adjusted (op : AdjustOp) : Routine Action := do
  let target ← suffixed
  if target.isAssignable then value (.adjustBefore op target)
  else fail fun _ => .unadjustable op target.kind

/-- What follows an expression that starts a statement: an assignment, an adjustment or nothing. -/
def actionOn (target : Expr) : Routine Action :=
  look fun ts =>
    match ts with
    | .punct p :: _ =>
      match AssignOp.ofPunct? p, AdjustOp.ofPunct? p with
      | some op, _ =>
        if target.isAssignable then do
          skip
          let v ← nested .expression
          value (.assign target op v)
        else fail fun _ => .unassignable target.kind
      | none, some op =>
        if target.isAssignable then do
          skip
          value (.adjustAfter target op)
        else fail fun _ => .unadjustable op target.kind
      | none, none => value (.evaluate target)
    | _ => value (.evaluate target)

/-- An action that starts with an expression. -/
def plainAction : Routine Action := do
  let e ← nested .expression
  actionOn e

/-- A statement of one expression, without its semicolon. -/
def action : Routine Action :=
  look fun ts =>
    match ts with
    | .punct p :: _ =>
      match AdjustOp.ofPunct? p with
      | some op => do
        skip
        adjusted op
      | none => plainAction
    | _ => plainAction

def perform : Routine Stmt := do
  let a ← action
  require .afterStatement
  value (.perform a)

/-- A statement that becomes an error node when it fails. -/
def recoveredStmt : Routine Stmt :=
  recovered .statement .error (nested .statement)

/-- The statements of a block, with its braces. -/
def block : Routine (List Stmt) := do
  require .openBlock
  let body ← manyUntil (Recovery.isPunct .closeBrace) recoveredStmt
  require .closeBlock
  value body

/-- An `if` after its keyword. An `else` belongs to the nearest one. -/
def branching : Routine Stmt := do
  let c ← parenthesized
  let t ← nested .statement
  onKeyword .otherwise
    (do
      let e ← nested .statement
      value (.ifElse c t e))
    (value (.ifThen c t))

/-- A `while` after its keyword. -/
def whileLoop : Routine Stmt := do
  let c ← parenthesized
  let body ← nested .statement
  value (.whileLoop c body)

/-- A `for` after its keyword. All three parts of its head are required. -/
def forLoop : Routine Stmt := do
  require .afterFor
  let v ← variableThrough .afterVariable
  let c ← nested .expression
  require .afterLoopCondition
  let u ← action
  require .afterLoopUpdate
  let body ← nested .statement
  value (.forLoop v c u body)

/-- The colon and the statements of a clause. -/
def clauseBody : Routine (List Stmt) := do
  require .afterCaseLabel
  manyUntil Recovery.endsClause recoveredStmt

def clause : Routine Clause :=
  onKeyword .caseLabel
    (do
      let e ← nested .expression
      let body ← clauseBody
      value (.onValue e body))
    (onKeyword .defaultLabel
      (do
        let body ← clauseBody
        value (.otherwise body))
      (fail (.expected .caseOrDefault)))

/-- A `switch` after its keyword. -/
def switchOn : Routine Stmt := do
  require .afterSwitch
  let e ← nested .expression
  require .afterSwitchValue
  require .openSwitch
  let clauses ← manyUntil (Recovery.isPunct .closeBrace) (recovered .clause .error clause)
  require .closeSwitch
  value (.switchOn e clauses)

/-- A `return` after its keyword. -/
def returnValue : Routine Stmt :=
  onPunct .semicolon (value (.returnValue none))
    (do
      let e ← nested .expression
      require .afterReturn
      value (.returnValue (some e)))

/-- A statement that no keyword and no brace starts. -/
def plainStmt : Routine Stmt :=
  look fun ts =>
    if Grammar.startsVariable ts then do
      let v ← variableThrough .afterVariable
      value (.declare v)
    else perform

/-- The statement that a keyword starts, from the lexeme after it. -/
def keywordStmt : Keyword → Option (Routine Stmt)
  | .ifThen => some branching
  | .whileLoop => some whileLoop
  | .forLoop => some forLoop
  | .switchOn => some switchOn
  | .returnValue => some returnValue
  | .breakOut =>
    some do
      require .afterBreak
      value .breakOut
  | .continueLoop =>
    some do
      require .afterContinue
      value .continueLoop
  | .const =>
    some do
      let (p, v) ← constant
      value (.constant p v)
  | _ => none

def stmt : Routine Stmt :=
  look fun ts =>
    match ts with
    | .punct .openBrace :: _ => do
      let body ← block
      value (.block body)
    | .word w :: _ =>
      match (Keyword.ofText? w).bind keywordStmt with
      | some r => do
        skip
        r
      | none => plainStmt
    | _ => plainStmt

/-- A statement by itself, recovered if it fails. There is none at the end. -/
def loneStmt : Routine Stmt :=
  look fun ts => if ts.isEmpty then fail (.expected .statement) else recoveredStmt

end Routine

/-- What a production does on the level that it takes. -/
def Production.body : {α : Type} → Production α → Routine α
  | _, .expression => .conditional
  | _, .sign op => .signed op
  | _, .statement => .stmt

end ShaderSyntax
