import ShaderSyntax.Grammar.Expression
import ShaderSyntax.Routine

/-!
# Names, types and expressions in steps

The routines of the productions inside a statement. An expression inside another and a sign are
productions of their own.
-/
namespace ShaderSyntax.Routine

def name : Routine Name :=
  look fun ts =>
    match ts with
    | .word w :: _ => do
      skip
      let cls := classify w
      if cls.isName then value (.valid cls w)
      else do
        let n : Name := .invalid cls w
        note (.notAName cls w) n.node ts.length
        value n
    | _ => fail (.expected .identifier)

/-- The type that a word names. -/
def baseType : Routine TypeRef :=
  look fun ts =>
    match ts with
    | .word w :: _ => do
      skip
      let cls := classify w
      match cls.typeRole with
      | .builtin => value (.builtin w)
      | .named => value (.named w)
      | .invalid => do
        let t : TypeRef := .invalid cls w
        note (.notAType cls w) t.node ts.length
        value t
    | _ => fail (.expected .ofType)

/-- A type with as many sizes as follow, each of three lexemes. -/
def typeRef : Routine TypeRef := do
  let base ← baseType
  look fun ts =>
    let sizes := (Grammar.sizeSuffixes ts).1
    do
      skips (3 * sizes.length)
      value (sizes.foldl .array base)

/-- A size after its opening bracket. -/
def arraySize : Routine Text :=
  look fun ts =>
    match ts with
    | .int n :: _ => do
      skip
      require .afterArraySize
      value n
    | _ => fail .arraySize

def arraySizesWithin : Nat → Routine (List Text)
  | 0 => value []
  | rounds + 1 =>
    onPunct .openBracket
      (do
        let n ← arraySize
        let rest ← arraySizesWithin rounds
        value (n :: rest))
      (value [])

/-- The sizes after a declared name. Here every bracket must hold a size. -/
def arraySizes : Routine (List Text) :=
  inRounds arraySizesWithin

def specifier : Routine Specifier := do
  let type ← typeRef
  let name ← name
  let sizes ← arraySizes
  value ⟨type, name, sizes⟩

/-- A word that should belong to one vocabulary. -/
def term (wanted : Wanted) (cls : WordClass) (good bad : Kind) (problem : Text → Problem) :
    Routine Term :=
  look fun ts =>
    match ts with
    | .word w :: _ => do
      skip
      if classify w = cls then value (.known w)
      else do
        note (problem w) ((Term.unknown w).node good bad) ts.length
        value (.unknown w)
    | _ => fail (.expected wanted)

/-- An argument of a call, with a qualifier or without. -/
def argument : Routine Expr := do
  let q ← qualifier .paramQualifier
  let e ← nested .expression
  match q with
  | none => value e
  | some w => value (.qualified w e)

/-- The arguments of a call after the opening parenthesis. -/
def arguments : Routine (List Expr) :=
  onPunct .closeParen (value [])
    (do
      let es ← separated argument
      require .closeArguments
      value es)

/-- An expression in parentheses, without them. -/
def parenthesized : Routine Expr := do
  require .beforeExpression
  let e ← nested .expression
  require .afterExpression
  value e

/-- The elements of an array literal after the opening brace. There is at least one. -/
def elements : Routine (List Expr) := do
  let es ← separated (nested .expression)
  require .closeArrayLiteral
  value es

/-- A word in an expression: a boolean, a type that is called, or a name. -/
def wordExpr (w : Text) : Routine Expr :=
  look fun ts =>
    match boolOf? w with
    | some b => do
      skip
      value (.bool b)
    | none =>
      if classify w = .builtinType ∧ ts[1]? = some (.punct .openParen) then do
        skip
        value (.typeName w)
      else do
        let n ← name
        value (.name n)

/-- A lexeme that no expression can hold stands as an error by itself. -/
def strayExpr (l : Lexeme) : Routine Expr :=
  look fun ts => do
    let e : Expr := .error ⟨[l], 0, .unexpected l⟩
    skip
    note (.unexpected l) e.node ts.length
    value e

/-- An expression without operators. -/
def primary : Routine Expr :=
  look fun ts =>
    match ts with
    | [] => fail (.expected .expression)
    | .int n :: _ => do
      skip
      value (.number (.int n))
    | .float n :: _ => do
      skip
      value (.number (.float n))
    | .word w :: _ => wordExpr w
    | .punct .openParen :: _ => do
      let e ← parenthesized
      value (.paren e)
    | .punct .openBrace :: _ => do
      skip
      let es ← elements
      value (.array es)
    | .punct p :: _ =>
      if Grammar.endsExpression p then fail (.expected .expression) else strayExpr (.punct p)
    | l :: _ => strayExpr l

/-- The call, subscript or member access that a mark starts after an expression. -/
def suffix (e : Expr) : Lexeme → Option (Routine Expr)
  | .punct .openParen =>
    some do
      let es ← arguments
      value (.call e es)
  | .punct .openBracket =>
    some do
      let i ← nested .expression
      require .afterIndex
      value (.subscript e i)
  | .punct .dot =>
    some do
      let n ← name
      value (.member e n)
  | _ => none

/-- A primary expression with its calls, subscripts and members. -/
def suffixed : Routine Expr := do
  let e ← primary
  grow suffix e

/-- What a sign starts, or a suffixed expression. -/
def operand : Routine Expr :=
  look fun ts =>
    match ts with
    | .punct p :: _ =>
      match UnaryOp.ofPunct? p with
      | some op => nested (.sign op)
      | none => suffixed
    | _ => suffixed

/-- A sign and its operand. -/
def signed (op : UnaryOp) : Routine Expr := do
  skip
  let e ← operand
  value (.unary op e)

/-- The operation that a binary operator starts after its left operand. -/
def operation (left : Expr) : Lexeme → Option (Routine Expr)
  | .punct p =>
    (BinaryOp.ofPunct? p).map fun op => do
      let right ← operand
      value (.binary op left right)
  | _ => none

/-- Operands with binary operators between them, folded to the left. -/
def chain : Routine Expr := do
  let e ← operand
  grow operation e

/-- A chain, or a choice by a chain. -/
def conditional : Routine Expr := do
  let c ← chain
  onPunct .question
    (do
      let t ← nested .expression
      require .conditionalBranch
      let e ← nested .expression
      value (.conditional c t e))
    (value c)

end ShaderSyntax.Routine
