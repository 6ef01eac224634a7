import ShaderSyntax.Lexeme

/-!
# Reading lexemes and the text between them

`Trivia.first?` and `Lexeme.first?` name what stands at the head of a text. Each answer carries the
bytes it covers, so what follows is the rest of the text after as many bytes. Reading never fails:
a byte that starts nothing else is an illegal lexeme.
-/
namespace ShaderSyntax

/-- A piece of the text between two lexemes. -/
inductive Trivia where
  | blank (text : Text)
  | comment (text : Text)
  deriving DecidableEq, Repr

namespace Trivia

def text : Trivia → Text
  | blank t => t
  | comment t => t

/-- Space, tab, line feed, vertical tab, form feed or carriage return. -/
def isBlankByte (b : UInt8) : Bool :=
  b == Byte.space || (Byte.tab ≤ b && b ≤ Byte.carriageReturn)

/-- The rest of a line comment. It ends before a line feed, unless a run of backslashes stands
before the line feed: that run takes the next byte into the comment, and a carriage return together
with the line feed after it. -/
def lineComment (escaped : Bool) : Text → Text
  | [] => []
  | b :: rest =>
    if b = Byte.backslash then b :: lineComment true rest
    else if escaped then
      b :: lineComment (b = Byte.carriageReturn ∧ rest.head? = some Byte.lineFeed) rest
    else if b = Byte.lineFeed then []
    else b :: lineComment false rest

/-- The rest of a block comment, through the first closing mark or else to the end. -/
def blockComment : Text → Text
  | [] => []
  | b :: rest =>
    if b = Byte.star ∧ rest.head? = some Byte.slash then [Byte.star, Byte.slash]
    else b :: blockComment rest

/-- What a backslash before a line break joins to the next line. -/
def continuation? (rest : Text) : Option Trivia :=
  if rest.take 1 = [Byte.lineFeed] then some (.blank [Byte.backslash, Byte.lineFeed])
  else if rest.take 2 = [Byte.carriageReturn, Byte.lineFeed] then
    some (.blank [Byte.backslash, Byte.carriageReturn, Byte.lineFeed])
  else none

/-- The comment that a slash starts. -/
def comment? : Text → Option Trivia
  | [] => none
  | b :: rest =>
    if b = Byte.slash then some (.comment (Byte.slash :: b :: lineComment false rest))
    else if b = Byte.star then some (.comment (Byte.slash :: b :: blockComment rest))
    else none

/-- The blank, line continuation or comment a text starts with. -/
def first? : Text → Option Trivia
  | [] => none
  | b :: rest =>
    if isBlankByte b then some (.blank [b])
    else if b = Byte.backslash then continuation? rest
    else if b = Byte.slash then comment? rest
    else none

/-- At most `count` pieces from the head of a text. -/
def gapWithin : Nat → Text → List Trivia
  | 0, _ => []
  | count + 1, t =>
    match first? t with
    | none => []
    | some piece => piece :: gapWithin count (t.drop piece.text.length)

/-- All pieces before the first lexeme. -/
def gap (t : Text) : List Trivia :=
  gapWithin t.length t

end Trivia

namespace Lexeme

def isWordByte (b : UInt8) : Bool :=
  Byte.isLetter b || Byte.isDigit b

/-- Digits, with a point and more digits where at least one digit follows the point. -/
def number (t : Text) : Lexeme :=
  let whole := t.takeWhile Byte.isDigit
  match t.dropWhile Byte.isDigit with
  | [] => .int whole
  | b :: rest =>
    let fraction := rest.takeWhile Byte.isDigit
    if b = Byte.dot ∧ fraction ≠ [] then .float (whole ++ b :: fraction) else .int whole

/-- The string that a quote starts, through the next quote. A quote without a partner is illegal. -/
def closedString (rest : Text) : Lexeme :=
  if Byte.quote ∈ rest then
    .string (Byte.quote :: rest.takeWhile (· != Byte.quote) ++ [Byte.quote])
  else .illegal [Byte.quote]

/-- One character, or one byte where no character starts. -/
def stray (t : Text) : Lexeme :=
  match Utf8.char? t with
  | some c => .illegal (t.take c.utf8Size)
  | none => .illegal (t.take 1)

/-- The lexeme a text starts with; none only at the end. -/
def first? : Text → Option Lexeme
  | [] => none
  | b :: rest =>
    if Byte.isLetter b then some (.word ((b :: rest).takeWhile isWordByte))
    else if Byte.isDigit b then some (number (b :: rest))
    else if b = Byte.quote then some (closedString rest)
    else
      match Punct.first? (b :: rest) with
      | some p => some (.punct p)
      | none => some (stray (b :: rest))

end Lexeme

end ShaderSyntax
