import ShaderSyntax.Token
import ShaderSyntax.Tree

/-!
# Sources

A text with its tokens. Places that the grammar tells in lexemes become places in the text here.
-/
namespace ShaderSyntax

/-- A text and its tokens, the end token last. -/
structure Source where
  text : Text
  tokens : Array Token

namespace Source

def ofText (text : Text) : Source :=
  ⟨text, (tokenize text).toArray⟩

def lexemes (s : Source) : List Lexeme :=
  ShaderSyntax.lexemes s.tokens.toList

def comments (s : Source) : List Comment :=
  ShaderSyntax.comments s.tokens.toList

/-- The number of lexemes: every token but the last has one. -/
def size (s : Source) : Nat :=
  s.tokens.size - 1

/-- The token with the given number. -/
def token (s : Source) (index : Nat) : Token :=
  s.tokens[index]?.getD ⟨none, .start, []⟩

/-- The number of the token at which so many lexemes are left. -/
def index (s : Source) (left : Nat) : Nat :=
  s.size - left

/-- The token at which so many lexemes are left. -/
def tokenLeft (s : Source) (left : Nat) : Token :=
  s.token (s.index left)

/-- The bytes from the start of one token to the end of the one before another. -/
def locate (s : Source) (first stop : Nat) : Span Nat :=
  ⟨(s.token first).span.start, (s.token (stop - 1)).span.stop⟩

/-- The tree of a node at whose first lexeme so many are left. -/
def place (s : Source) (left : Nat) (n : Node) : Tree :=
  n.place s.locate (s.index left)

/-- The trees of nodes that follow each other, with so many lexemes left at the first. -/
def placeAll (s : Source) (left : Nat) (nodes : List Node) : List Tree :=
  Node.placeAll s.locate (s.index left) nodes

/-- The text that a span covers. -/
def slice (s : Source) (span : Span Nat) : Text :=
  (s.text.drop span.start).take span.length

end Source

end ShaderSyntax
