import ShaderSyntax.Ast.Decl
import ShaderSyntax.Lexeme.Reader

/-!
# Canonical syntax

The types of syntax admit more than the grammar writes: a sum as the base of a call, an invalid word
as a name, an empty struct. Canonical syntax is what the grammar gives back, and its depth is the
number of levels that the grammar needs for it.
-/
namespace ShaderSyntax

namespace Lexeme

/-- The text is one that the shape allows. -/
def wellSpelled : Lexeme → Bool
  | word w => w.head?.any Byte.isLetter && w.all isWordByte
  | int digits => !digits.isEmpty && digits.all Byte.isDigit
  | float digits =>
    let whole := digits.takeWhile Byte.isDigit
    let fraction := (digits.dropWhile Byte.isDigit).tail
    !whole.isEmpty && digits == whole ++ Byte.dot :: fraction && !fraction.isEmpty &&
      fraction.all Byte.isDigit
  | string raw =>
    let inner := raw.tail.dropLast
    raw == Byte.quote :: (inner ++ [Byte.quote]) && !inner.contains Byte.quote
  | illegal _ => false
  | punct _ => true

end Lexeme

def Name.canonical : Name → Bool
  | valid cls w => classify w == cls && cls.isName
  | invalid _ _ => false

/-- A word of the given class. -/
def Term.canonical (cls : WordClass) : Term → Bool
  | known w => classify w == cls
  | unknown _ => false

namespace TypeRef

def canonical : TypeRef → Bool
  | builtin w => (classify w).typeRole == .builtin
  | named w => (classify w).typeRole == .named
  | invalid _ _ => false
  | array base _ => base.canonical

end TypeRef

def Specifier.canonical (s : Specifier) : Bool :=
  s.type.canonical && s.name.canonical

/-- A qualifier of the given class, or none. -/
def canonicalQualifier (cls : WordClass) (word : Option Text) : Bool :=
  word.all fun w => classify w == cls

namespace Expr

/-- What the productions of the grammar write, from the tightest to the loosest. -/
def isSuffixed : Expr → Bool
  | name _ | number _ | bool _ | paren _ | array _ | call .. | subscript .. | member .. => true
  | _ => false

def isOperand : Expr → Bool
  | unary .. => true
  | e => e.isSuffixed

def isChain : Expr → Bool
  | binary .. => true
  | e => e.isOperand

def isFull : Expr → Bool
  | conditional .. => true
  | e => e.isChain

/-- Before the parentheses of a call also a type may stand. -/
def isCallee : Expr → Bool
  | typeName _ => true
  | e => e.isSuffixed

/-- Inside the parentheses of a call also a qualifier may stand. -/
def isArgument : Expr → Bool
  | qualified .. => true
  | e => e.isFull

theorem isOperand_of_isSuffixed {e : Expr} (h : e.isSuffixed = true) : e.isOperand = true := by
  cases e <;> simp_all [isOperand, isSuffixed]

theorem isChain_of_isOperand {e : Expr} (h : e.isOperand = true) : e.isChain = true := by
  cases e <;> simp_all [isChain, isOperand, isSuffixed]

theorem isFull_of_isChain {e : Expr} (h : e.isChain = true) : e.isFull = true := by
  cases e <;> simp_all [isFull, isChain, isOperand, isSuffixed]

theorem isCallee_of_isSuffixed {e : Expr} (h : e.isSuffixed = true) : e.isCallee = true := by
  cases e <;> simp_all [isCallee, isSuffixed]

theorem isFull_or_qualified {e : Expr} (h : e.isArgument = true) :
    e.isFull = true ∨ ∃ q v, e = .qualified q v := by
  cases e <;> simp_all [isArgument]

mutual

def canonical : Expr → Bool
  | name n => n.canonical
  | number _ => true
  | bool _ => true
  | typeName w => classify w == .builtinType
  | error _ => false
  | paren e => e.isFull && canonical e
  | array es => !es.isEmpty && es.all isFull && canonicals es
  | call f es => f.isCallee && canonical f && es.all isArgument && canonicals es
  | qualified q e => classify q == .paramQualifier && e.isFull && canonical e
  | subscript e i => e.isSuffixed && canonical e && i.isFull && canonical i
  | member e n => e.isSuffixed && canonical e && n.canonical
  | unary _ e => e.isOperand && canonical e
  | binary _ l r => l.isChain && canonical l && r.isOperand && canonical r
  | conditional c t e =>
    c.isChain && canonical c && t.isFull && canonical t && e.isFull && canonical e

def canonicals : List Expr → Bool
  | [] => true
  | e :: es => canonical e && canonicals es

end

mutual

/-- The levels below an expression. The expression itself takes one more where it is a whole, and
none where it is an operand. -/
def depth : Expr → Nat
  | name _ | number _ | bool _ | typeName _ | error _ => 0
  | paren e => depth e + 1
  | array es => depths es
  | call f es => max (depth f) (depths es)
  | qualified _ e => depth e
  | subscript e i => max (depth e) (depth i + 1)
  | member e _ => depth e
  | unary _ e => depth e + 1
  | binary _ l r => max (depth l) (depth r)
  | conditional c t e => max (depth c) (max (depth t + 1) (depth e + 1))

/-- The levels of expressions that are wholes. -/
def depths : List Expr → Nat
  | [] => 0
  | e :: es => max (depth e + 1) (depths es)

end

/-- An expression that stands by itself. -/
def whole (e : Expr) : Bool :=
  e.isFull && e.canonical

/-- The levels of a value, if there is one. -/
def depth? : Option Expr → Nat
  | none => 0
  | some e => e.depth + 1

end Expr

namespace Action

def canonical : Action → Bool
  | evaluate e => e.whole
  | assign t _ v => t.isAssignable && t.canonical && v.whole
  | adjustAfter t _ | adjustBefore _ t => t.isAssignable && t.canonical

def depth : Action → Nat
  | evaluate e => e.depth + 1
  | assign t _ v => max (t.depth + 1) (v.depth + 1)
  | adjustAfter t _ => t.depth + 1
  | adjustBefore _ t => t.depth

/-- Where a statement may start, a brace starts a block. -/
def startsBlock (a : Action) : Bool :=
  (Item.lexemes a.items).head? == some (.punct .openBrace)

end Action

namespace Variable

def canonical (v : Variable) : Bool :=
  v.specifier.canonical && v.value.all Expr.whole

def depth (v : Variable) : Nat :=
  Expr.depth? v.value

end Variable

/-- The statement ends with an `if` that an `else` after it would belong to. -/
def Stmt.endsOpen : Stmt → Bool
  | .ifThen .. => true
  | .ifElse _ _ e => e.endsOpen
  | .whileLoop _ b => b.endsOpen
  | .forLoop _ _ _ b => b.endsOpen
  | _ => false

mutual

def Stmt.canonical : Stmt → Bool
  | .block body => Stmt.canonicals body
  | .declare v => v.canonical
  | .constant p v => canonicalQualifier .precision p && v.canonical
  | .perform a => a.canonical && !a.startsBlock
  | .ifThen c t => c.whole && t.canonical
  | .ifElse c t e => c.whole && t.canonical && !t.endsOpen && e.canonical
  | .whileLoop c b => c.whole && b.canonical
  | .forLoop v c u b => v.canonical && c.whole && u.canonical && b.canonical
  | .switchOn e cs => e.whole && Clause.canonicals cs
  | .returnValue e => e.all Expr.whole
  | .breakOut | .continueLoop => true
  | .error _ => false

def Stmt.canonicals : List Stmt → Bool
  | [] => true
  | s :: ss => s.canonical && Stmt.canonicals ss

def Clause.canonical : Clause → Bool
  | .onValue e body => e.whole && Stmt.canonicals body
  | .otherwise body => Stmt.canonicals body
  | .error _ => false

def Clause.canonicals : List Clause → Bool
  | [] => true
  | c :: cs => c.canonical && Clause.canonicals cs

end

mutual

/-- The levels of a statement, itself included. -/
def Stmt.depth : Stmt → Nat
  | .block body => Stmt.depths body + 1
  | .declare v | .constant _ v => v.depth + 1
  | .perform a => a.depth + 1
  | .ifThen c t => max (c.depth + 1) t.depth + 1
  | .ifElse c t e => max (c.depth + 1) (max t.depth e.depth) + 1
  | .whileLoop c b => max (c.depth + 1) b.depth + 1
  | .forLoop v c u b => max (max v.depth (c.depth + 1)) (max u.depth b.depth) + 1
  | .switchOn e cs => max (e.depth + 1) (Clause.depths cs) + 1
  | .returnValue e => Expr.depth? e + 1
  | .breakOut | .continueLoop | .error _ => 1

def Stmt.depths : List Stmt → Nat
  | [] => 0
  | s :: ss => max s.depth (Stmt.depths ss)

def Clause.depth : Clause → Nat
  | .onValue e body => max (e.depth + 1) (Stmt.depths body)
  | .otherwise body => Stmt.depths body
  | .error _ => 0

def Clause.depths : List Clause → Nat
  | [] => 0
  | c :: cs => max c.depth (Clause.depths cs)

end

def Hint.canonical (h : Hint) : Bool :=
  h.name.canonical .hint

def Member.canonical : Member → Bool
  | field s => s.canonical
  | error _ => false

def Parameter.canonical (p : Parameter) : Bool :=
  canonicalQualifier .paramQualifier p.qualifier && p.specifier.canonical

namespace Decl

def canonical : Decl → Bool
  | shaderType t => t.canonical .shaderType
  | renderMode ts => ts.all (Term.canonical .renderMode)
  | constant p v => canonicalQualifier .precision p && v.canonical
  | varying i p s =>
    canonicalQualifier .interpolation i && canonicalQualifier .precision p && s.canonical
  | groupUniforms g s => g.all Name.canonical && s.all Name.canonical
  | uniform _ p s hs v =>
    canonicalQualifier .precision p && s.canonical && hs.all Hint.canonical && v.all Expr.whole
  | struct n ms => n.canonical && !ms.isEmpty && ms.all Member.canonical
  | function t n ps body =>
    t.canonical && n.canonical && ps.all Parameter.canonical && Stmt.canonicals body
  | includes _ => true
  | error _ => false

/-- Declarations take no level, and neither does the block of a function. -/
def depth : Decl → Nat
  | constant _ v => v.depth
  | uniform _ _ _ _ v => Expr.depth? v
  | function _ _ _ body => Stmt.depths body
  | _ => 0

end Decl

end ShaderSyntax
