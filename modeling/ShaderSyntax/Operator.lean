import ShaderSyntax.Lexeme

/-!
# Operators

The roles that marks play in expressions and statements. Each operator is written with one mark, and
a mark may be written for several operators: a minus is a sign or a subtraction.
-/
namespace ShaderSyntax

/-- Operators between two operands. All bind equally, and to the left. -/
inductive BinaryOp where
  | add | sub | mul | div | mod | lt | le | gt | ge | eq | ne | and | or | bitAnd | bitOr | bitXor
  | shiftLeft | shiftRight
  deriving DecidableEq, Repr

/-- Operators before their operand. -/
inductive UnaryOp where
  | neg | not | bitNot | pos
  deriving DecidableEq, Repr

inductive AssignOp where
  | set | add | sub
  deriving DecidableEq, Repr

inductive AdjustOp where
  | increment | decrement
  deriving DecidableEq, Repr

namespace BinaryOp

def all : List BinaryOp :=
  [.add, .sub, .mul, .div, .mod, .lt, .le, .gt, .ge, .eq, .ne, .and, .or, .bitAnd, .bitOr, .bitXor,
   .shiftLeft, .shiftRight]

def punct : BinaryOp → Punct
  | add => .plus
  | sub => .minus
  | mul => .star
  | div => .slash
  | mod => .percent
  | lt => .lt
  | le => .le
  | gt => .gt
  | ge => .ge
  | eq => .eq
  | ne => .ne
  | and => .andAnd
  | or => .orOr
  | bitAnd => .ampersand
  | bitOr => .pipe
  | bitXor => .caret
  | shiftLeft => .shiftLeft
  | shiftRight => .shiftRight

def ofPunct? (p : Punct) : Option BinaryOp :=
  all.find? fun op => op.punct = p

theorem punct_of_ofPunct? {p : Punct} {op : BinaryOp} (h : ofPunct? p = some op) : op.punct = p := by
  simpa using List.find?_some h

@[simp] theorem ofPunct?_punct (op : BinaryOp) : ofPunct? op.punct = some op := by
  cases op <;> decide

end BinaryOp

namespace UnaryOp

def all : List UnaryOp :=
  [.neg, .not, .bitNot, .pos]

def punct : UnaryOp → Punct
  | neg => .minus
  | not => .not
  | bitNot => .tilde
  | pos => .plus

def ofPunct? (p : Punct) : Option UnaryOp :=
  all.find? fun op => op.punct = p

theorem punct_of_ofPunct? {p : Punct} {op : UnaryOp} (h : ofPunct? p = some op) : op.punct = p := by
  simpa using List.find?_some h

@[simp] theorem ofPunct?_punct (op : UnaryOp) : ofPunct? op.punct = some op := by
  cases op <;> decide

end UnaryOp

namespace AssignOp

def all : List AssignOp :=
  [.set, .add, .sub]

def punct : AssignOp → Punct
  | set => .assign
  | add => .plusAssign
  | sub => .minusAssign

def ofPunct? (p : Punct) : Option AssignOp :=
  all.find? fun op => op.punct = p

theorem punct_of_ofPunct? {p : Punct} {op : AssignOp} (h : ofPunct? p = some op) : op.punct = p := by
  simpa using List.find?_some h

@[simp] theorem ofPunct?_punct (op : AssignOp) : ofPunct? op.punct = some op := by
  cases op <;> decide

end AssignOp

namespace AdjustOp

def all : List AdjustOp :=
  [.increment, .decrement]

def punct : AdjustOp → Punct
  | increment => .increment
  | decrement => .decrement

def ofPunct? (p : Punct) : Option AdjustOp :=
  all.find? fun op => op.punct = p

theorem punct_of_ofPunct? {p : Punct} {op : AdjustOp} (h : ofPunct? p = some op) : op.punct = p := by
  simpa using List.find?_some h

@[simp] theorem ofPunct?_punct (op : AdjustOp) : ofPunct? op.punct = some op := by
  cases op <;> decide

end AdjustOp

end ShaderSyntax
