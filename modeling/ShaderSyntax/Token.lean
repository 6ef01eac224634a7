import ShaderSyntax.Lexeme.Reader
import ShaderSyntax.Span

/-!
# Tokens

A token is a lexeme at its place in the source, with the comments that stand before it. The end of
the input is a token without a lexeme, which carries the comments at the end.
-/
namespace ShaderSyntax

/-- A place in a text. Lines and columns count from one, and columns count bytes. -/
structure Position where
  offset : Nat
  line : Nat
  column : Nat
  deriving DecidableEq, Repr

namespace Position

def start : Position :=
  ⟨0, 1, 1⟩

/-- The place after one byte. -/
def next (p : Position) (b : UInt8) : Position :=
  if b = Byte.lineFeed then ⟨p.offset + 1, p.line + 1, 1⟩
  else ⟨p.offset + 1, p.line, p.column + 1⟩

/-- The place after a text. -/
def after (p : Position) (t : Text) : Position :=
  t.foldl next p

@[simp] theorem after_nil (p : Position) : p.after [] = p := rfl

@[simp] theorem after_cons (p : Position) (b : UInt8) (t : Text) :
    p.after (b :: t) = (p.next b).after t := rfl

theorem after_append (p : Position) (t u : Text) : p.after (t ++ u) = (p.after t).after u := by
  simp [after]

theorem offset_after (p : Position) (t : Text) : (p.after t).offset = p.offset + t.length := by
  induction t generalizing p with
  | nil => rfl
  | cons b t ih =>
    rw [after_cons, ih, List.length_cons]
    unfold next
    split <;> (dsimp only; omega)

end Position

/-- A comment with its delimiters. -/
structure Comment where
  text : Text
  position : Position
  deriving DecidableEq, Repr

namespace Comment

def span (c : Comment) : Span Nat :=
  ⟨c.position.offset, c.position.offset + c.text.length⟩

/-- The comments among pieces of trivia that start at a position. -/
def ofTrivia (p : Position) : List Trivia → List Comment
  | [] => []
  | .blank t :: rest => ofTrivia (p.after t) rest
  | .comment t :: rest => ⟨t, p⟩ :: ofTrivia (p.after t) rest

end Comment

structure Token where
  lexeme? : Option Lexeme
  position : Position
  comments : List Comment
  deriving DecidableEq, Repr

namespace Token

def kind (t : Token) : TokenKind :=
  match t.lexeme? with
  | some l => l.kind
  | none => .eof

def text (t : Token) : Text :=
  match t.lexeme? with
  | some l => l.text
  | none => []

def span (t : Token) : Span Nat :=
  ⟨t.position.offset, t.position.offset + t.text.length⟩

end Token

/-- The rest of a source and the place where it starts. -/
structure Scanner where
  rest : Text
  position : Position
  deriving DecidableEq, Repr

namespace Scanner

def start (source : Text) : Scanner :=
  ⟨source, .start⟩

/-- Drops bytes from the head, and moves the place past them. -/
def skip (s : Scanner) (t : Text) : Scanner :=
  ⟨s.rest.drop t.length, s.position.after t⟩

/-- The next token, and the source after it. At the end this is the end token, every time. -/
def next (s : Scanner) : Token × Scanner :=
  let gap := Trivia.gap s.rest
  let comments := Comment.ofTrivia s.position gap
  let here := s.skip (gap.flatMap Trivia.text)
  match Lexeme.first? here.rest with
  | none => (⟨none, here.position, comments⟩, here)
  | some l => (⟨some l, here.position, comments⟩, here.skip l.text)

def tokensWithin : Nat → Scanner → List Token × Scanner
  | 0, s => ([], s)
  | count + 1, s =>
    let (token, after) := s.next
    match token.lexeme? with
    | none => ([token], after)
    | some _ =>
      let (tokens, finish) := tokensWithin count after
      (token :: tokens, finish)

/-- All tokens of the rest through the end token, and the empty rest after them. -/
def tokens (s : Scanner) : List Token × Scanner :=
  tokensWithin (s.rest.length + 1) s

end Scanner

/-- The tokens of a source, the end token last. -/
def tokenize (source : Text) : List Token :=
  (Scanner.start source).tokens.1

/-- The lexemes of a token stream. -/
def lexemes (tokens : List Token) : List Lexeme :=
  tokens.filterMap Token.lexeme?

/-- All comments of a token stream, in source order. -/
def comments (tokens : List Token) : List Comment :=
  tokens.flatMap Token.comments

end ShaderSyntax
