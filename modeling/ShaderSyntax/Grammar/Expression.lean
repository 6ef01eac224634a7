import ShaderSyntax.Ast.Expr
import ShaderSyntax.Grammar.Specifier

/-!
# The grammar of expressions

All binary operators bind equally and to the left, the conditional binds loosest and to the right.
Each production is written over the parsers of the expressions inside it. `expression` and `operand`
tie them together: their number is the levels of nesting still allowed, and every expression inside
another and every sign takes one.
-/
namespace ShaderSyntax.Grammar

open ShaderSyntax.Parser

/-- An argument of a call, with a qualifier or without. -/
def argument (expr : Parser Expr) : Parser Expr := do
  let q ← qualifier .paramQualifier
  let e ← expr
  match q with
  | none => value e
  | some w => value (.qualified w e)

/-- The arguments of a call after the opening parenthesis. -/
def arguments (expr : Parser Expr) : Parser (List Expr) :=
  onPunct .closeParen (value [])
    (do
      let es ← separated (argument expr)
      require .closeArguments
      value es)

/-- An expression in parentheses, without them. -/
def parenthesized (expr : Parser Expr) : Parser Expr := do
  require .beforeExpression
  let e ← expr
  require .afterExpression
  value e

/-- The elements of an array literal after the opening brace. There is at least one. -/
def elements (expr : Parser Expr) : Parser (List Expr) := do
  let es ← separated expr
  require .closeArrayLiteral
  value es

/-- A word in an expression: a boolean, a type that is called, or a name. -/
def wordExpr (w : Text) : Parser Expr := fun ts =>
  match boolOf? w with
  | some b => .done (.bool b) ts.tail []
  | none =>
    if classify w = .builtinType ∧ ts[1]? = some (.punct .openParen) then
      .done (.typeName w) ts.tail []
    else (name.andThen fun n => value (.name n)) ts

/-- The marks that end what surrounds an expression. Where an expression should start they are
left, and the production fails. -/
def endsExpression : Punct → Bool
  | .semicolon | .closeBrace | .closeParen | .closeBracket | .comma | .colon => true
  | _ => false

/-- A lexeme that no expression can hold stands as an error by itself. -/
def strayExpr (l : Lexeme) : Parser Expr := fun ts =>
  let e : Expr := .error ⟨[l], 0, .unexpected l⟩
  .done e ts.tail [.single (.unexpected l) e.node ts.length]

/-- An expression without operators. -/
def primary (expr : Parser Expr) : Parser Expr := fun ts =>
  match ts with
  | [] => .failed (.expected .expression none) ts []
  | .int n :: rest => .done (.number (.int n)) rest []
  | .float n :: rest => .done (.number (.float n)) rest []
  | .word w :: _ => wordExpr w ts
  | .punct .openParen :: _ => ((parenthesized expr).andThen fun e => value (.paren e)) ts
  | .punct .openBrace :: rest => ((elements expr).andThen fun es => value (.array es)) rest
  | .punct p :: _ =>
    if endsExpression p then .failed (.expected .expression ts.head?) ts []
    else strayExpr (.punct p) ts
  | l :: _ => strayExpr l ts

/-- The call, subscript or member access that a mark starts after an expression. -/
def suffix (expr : Parser Expr) (e : Expr) : Lexeme → Option (Parser Expr)
  | .punct .openParen =>
    some do
      let es ← arguments expr
      value (.call e es)
  | .punct .openBracket =>
    some do
      let i ← expr
      require .afterIndex
      value (.subscript e i)
  | .punct .dot =>
    some do
      let n ← name
      value (.member e n)
  | _ => none

/-- A primary expression with its calls, subscripts and members. -/
def suffixed (expr : Parser Expr) : Parser Expr := do
  let e ← primary expr
  grow (suffix expr) e

/-- The operation that a binary operator starts after its left operand. -/
def operation (operand : Parser Expr) (left : Expr) : Lexeme → Option (Parser Expr)
  | .punct p =>
    (BinaryOp.ofPunct? p).map fun op => do
      let right ← operand
      value (.binary op left right)
  | _ => none

/-- Operands with binary operators between them, folded to the left. -/
def chain (operand : Parser Expr) : Parser Expr := do
  let e ← operand
  grow (operation operand) e

/-- A chain, or a choice by a chain. -/
def conditional (operand expr : Parser Expr) : Parser Expr := do
  let c ← chain operand
  onPunct .question
    (do
      let t ← expr
      require .conditionalBranch
      let e ← expr
      value (.conditional c t e))
    (value c)

/-- A sign and its operand. -/
def signed (operand : Parser Expr) (op : UnaryOp) : Parser Expr := do
  skip
  let e ← operand
  value (.unary op e)

/-- What a sign starts, or a suffixed expression. -/
def unsignedOr (sign : UnaryOp → Parser Expr) (expr : Parser Expr) : Parser Expr := fun ts =>
  match ts with
  | .punct p :: _ =>
    match UnaryOp.ofPunct? p with
    | some op => sign op ts
    | none => suffixed expr ts
  | _ => suffixed expr ts

/-- The two parsers that nest. -/
inductive Rank where
  | expression | operand
  deriving DecidableEq, Repr

/-- An expression or an operand that may nest the given number of levels. -/
def ranked : Nat → Rank → List Lexeme → Outcome Expr
  | 0, .expression, ts => tooDeep ts
  | 0, .operand, ts => unsignedOr (fun _ => tooDeep) tooDeep ts
  | levels + 1, .expression, ts =>
    conditional (ranked levels .operand) (ranked levels .expression) ts
  | levels + 1, .operand, ts =>
    unsignedOr (signed (ranked levels .operand))
      (conditional (ranked levels .operand) (ranked levels .expression)) ts

def expression (levels : Nat) : Parser Expr :=
  ranked levels .expression

def operand (levels : Nat) : Parser Expr :=
  ranked levels .operand

theorem expression_zero : expression 0 = tooDeep := rfl

theorem expression_succ (levels : Nat) :
    expression (levels + 1) = conditional (operand levels) (expression levels) := rfl

theorem operand_zero : operand 0 = unsignedOr (fun _ => tooDeep) (expression 0) := rfl

theorem operand_succ (levels : Nat) :
    operand (levels + 1) = unsignedOr (signed (operand levels)) (expression (levels + 1)) := rfl

end ShaderSyntax.Grammar
