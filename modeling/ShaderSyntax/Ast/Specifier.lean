import ShaderSyntax.Concrete

/-!
# Names, types and specifiers

The parts that declarations, statements and expressions share. A word that its position does not
admit is kept, marked as invalid.
-/
namespace ShaderSyntax

/-- A word where a name is required, with its class. -/
inductive Name where
  | valid (cls : WordClass) (word : Text)
  | invalid (cls : WordClass) (word : Text)
  deriving DecidableEq, Repr

/-- A word where a word of one vocabulary is required. -/
inductive Term where
  | known (word : Text)
  | unknown (word : Text)
  deriving DecidableEq, Repr

inductive TypeRef where
  | builtin (word : Text)
  | named (word : Text)
  | invalid (cls : WordClass) (word : Text)
  | array (base : TypeRef) (size : Text)
  deriving DecidableEq, Repr

inductive Number where
  | int (digits : Text)
  | float (digits : Text)
  deriving DecidableEq, Repr

/-- A type, a name, and the sizes in brackets after the name. -/
structure Specifier where
  type : TypeRef
  name : Name
  sizes : List Text
  deriving DecidableEq, Repr

namespace Name

def kind : Name → Kind
  | valid .builtinVariable _ => .builtinVariable
  | valid .builtinFunction _ => .builtinFunction
  | valid _ _ => .ident
  | invalid _ _ => .invalidIdent

def word : Name → Text
  | valid _ w => w
  | invalid _ w => w

def node (n : Name) : Node :=
  .leaf n.kind (.word n.word)

end Name

namespace Term

/-- A leaf of the first kind for a known word, of the second for any other. -/
def node (good bad : Kind) : Term → Node
  | known w => .leaf good (.word w)
  | unknown w => .leaf bad (.word w)

end Term

namespace Number

def node : Number → Node
  | int digits => .leaf .integer (.int digits)
  | float digits => .leaf .float (.float digits)

end Number

/-- An array size in its brackets. -/
def sizeItems (digits : Text) : List Item :=
  [.mark .openBracket, .child .size (Number.int digits).node, .mark .closeBracket]

namespace TypeRef

def node : TypeRef → Node
  | builtin w => .leaf .builtinType (.word w)
  | named w => .leaf .identType (.word w)
  | invalid _ w => .leaf .invalidType (.word w)
  | array base size => .branch .arrayType (.child .baseType base.node :: sizeItems size)

end TypeRef

namespace Specifier

/-- The sizes are one child; without sizes there is none. -/
def sizesNode? : List Text → Option Node
  | [] => none
  | sizes => some (.branch .arraySizes (sizes.flatMap sizeItems))

def items (s : Specifier) : List Item :=
  [.child .ofType s.type.node, .child .named s.name.node] ++ Item.child? .sizes (sizesNode? s.sizes)

def node (s : Specifier) : Node :=
  .branch .varSpecifier s.items

end Specifier

end ShaderSyntax
