import ShaderSyntax.Text.Utf8
import ShaderSyntax.Text.Quoted

/-!
# Scalars

How a text is written so that a reader of YAML gets it back as a text: plain where nothing in it has
another meaning, in single quotes, in double quotes with escapes, or as a literal block.
-/
namespace ShaderSyntax.Scalar

inductive Style where
  | plain | single | double | literal
  deriving DecidableEq, Repr

/-- The line breaks of YAML. -/
def isBreak (c : Char) : Bool :=
  c.toNat ∈ [0x0A, 0x0D, 0x85, 0x2028, 0x2029]

/-- The characters that may stand unescaped. The tab and what needs four bytes are not among them. -/
def isPlainChar (c : Char) : Bool :=
  let n := c.toNat
  n == 0x0A || (0x20 ≤ n && n ≤ 0x7E) || (0xA0 ≤ n && n ≤ 0xD7FF) ||
    (0xE000 ≤ n && n ≤ 0xFFFD && n != 0xFEFF)

/-- Neither a character that may stand unescaped nor a tab. -/
def isSpecial : Utf8.Piece → Bool
  | .char c => !isPlainChar c && c != '\t'
  | .stray _ => true

def isBlankPiece (p : Utf8.Piece) : Bool :=
  p == .char ' ' || p == .char '\t'

def isBreakPiece : Utf8.Piece → Bool
  | .char c => isBreak c
  | .stray _ => false

/-- Whether a piece that satisfies the first test stands right before one that satisfies the
second. -/
def hasPair (first second : Utf8.Piece → Bool) (ps : List Utf8.Piece) : Bool :=
  (ps.zip ps.tail).any fun pair => first pair.1 && second pair.2

/-- The characters that no plain scalar starts with. -/
def indicators : List Char :=
  ['#', ',', '[', ']', '\x7b', '\x7d', '&', '*', '!', '|', '>', '\x27', '"', '%', '@', '\x60']

/-- Whether nothing or a blank comes next. -/
def endsWord : List Utf8.Piece → Bool
  | [] => true
  | p :: _ => isBlankPiece p

/-- Whether the start of a text would be read as a mark of the format. -/
def startsAsMark : List Utf8.Piece → Bool
  | [] => false
  | .stray _ :: _ => false
  | .char c :: rest => indicators.contains c || ("?:-".toList.contains c && endsWord rest)

/-- Whether a colon inside a text would be read as the end of a key. -/
def hasKeyMark : List Utf8.Piece → Bool
  | [] => false
  | p :: rest => (p == .char ':' && endsWord rest) || hasKeyMark rest

/-- Whether a hash inside a text would be read as the start of a comment. -/
def hasCommentMark (ps : List Utf8.Piece) : Bool :=
  hasPair (fun p => isBlankPiece p || isBreakPiece p) (· == .char '#') ps

/-- The marks that divide documents. -/
def startsAsDivider (t : Text) : Bool :=
  t.startsWith (Text.ofString "---") || t.startsWith (Text.ofString "...")

def hasSpaceBreak (ps : List Utf8.Piece) : Bool :=
  hasPair (· == .char ' ') isBreakPiece ps

def hasBreakSpace (ps : List Utf8.Piece) : Bool :=
  hasPair isBreakPiece (· == .char ' ') ps

def startsOrEndsBlank (ps : List Utf8.Piece) : Bool :=
  let outer (p : Option Utf8.Piece) : Bool := p.any fun p => p == .char ' ' || isBreakPiece p
  outer ps.head? || outer ps.getLast?

/-- Whether the text may stand in single quotes. -/
def singleAllowed (ps : List Utf8.Piece) : Bool :=
  !(hasSpaceBreak ps || hasBreakSpace ps || ps.any isSpecial || ps.contains (.char '\t'))

/-- Whether the text may stand without quotes. -/
def plainAllowed (t : Text) (ps : List Utf8.Piece) : Bool :=
  singleAllowed ps && !(startsOrEndsBlank ps || ps.any isBreakPiece || startsAsDivider t ||
    startsAsMark ps || hasKeyMark ps || hasCommentMark ps)

/-- Whether the text may stand as a literal block. -/
def literalAllowed (ps : List Utf8.Piece) : Bool :=
  !(hasSpaceBreak ps || ps.any isSpecial || ps.getLast? == some (.char ' '))

/-- The words that stand for a boolean or for nothing. -/
def reservedWords : List Text :=
  ["", "~", "null", "Null", "NULL", "true", "True", "TRUE", "false", "False", "FALSE"].map
    Text.ofString

def digitsValue (digits : Text) : Nat :=
  digits.foldl (fun n b => n * 10 + (b.toNat - 48)) 0

/-- The least number that double precision rounds to infinity. -/
def overflow : Nat :=
  Nat.pow 2 1024 - Nat.pow 2 970

/-- Whether the text is digits with at most one point after them, and a number that double precision
holds. -/
def isNumber (t : Text) : Bool :=
  let whole := t.takeWhile Byte.isDigit
  let rest := t.dropWhile Byte.isDigit
  whole != [] && digitsValue whole < overflow &&
    (rest == [] || (rest.head? == some Byte.dot && rest.tail.all Byte.isDigit))

/-- Whether a reader would take the plain text for something else than a text. -/
def readsAsOther (t : Text) : Bool :=
  reservedWords.contains t || isNumber t

/-- The style in which a text is written. -/
def style (t : Text) : Style :=
  let ps := Utf8.pieces t
  if Byte.lineFeed ∈ t then if literalAllowed ps then .literal else .double
  else if readsAsOther t then .double
  else if plainAllowed t ps then .plain
  else if singleAllowed ps then .single
  else .double

/-- The upper case hexadecimal digits of a number, after the letter that tells how many. -/
def numeric (letter : Char) (width n : Nat) : Text :=
  Byte.backslash :: Text.ofChar letter ++
    (Quoted.hex width n).map fun b => if 97 ≤ b then b - 32 else b

/-- The letter that names a character after a backslash. -/
def escapeLetter? : Nat → Option Char
  | 0x00 => some '0'
  | 0x07 => some 'a'
  | 0x08 => some 'b'
  | 0x09 => some 't'
  | 0x0A => some 'n'
  | 0x0B => some 'v'
  | 0x0C => some 'f'
  | 0x0D => some 'r'
  | 0x1B => some 'e'
  | 0x22 => some '"'
  | 0x5C => some '\\'
  | 0x85 => some 'N'
  | 0xA0 => some '_'
  | 0x2028 => some 'L'
  | 0x2029 => some 'P'
  | _ => none

/-- A character in double quotes. -/
def escaped (c : Char) : Text :=
  let n := c.toNat
  if isPlainChar c && !isBreak c && c != '"' && c != '\\' then Text.ofChar c
  else
    match escapeLetter? n with
    | some letter => Byte.backslash :: Text.ofChar letter
    | none =>
      if n ≤ 0xFF then numeric 'x' 2 n
      else if n ≤ 0xFFFF then numeric 'u' 4 n
      else numeric 'U' 8 n

def escapedPiece : Utf8.Piece → Text
  | .char c => escaped c
  | .stray b => numeric 'x' 2 b.toNat

/-- The bytes of a piece. -/
def rawPiece : Utf8.Piece → Text
  | .char c => Text.ofChar c
  | .stray b => [b]

/-- A piece in single quotes, where the quote is written twice. -/
def singlePiece (p : Utf8.Piece) : Text :=
  if p = .char '\x27' then rawPiece p ++ rawPiece p else rawPiece p

/-- Pieces with indentation before what follows a line break. -/
def indented (write : Utf8.Piece → Text) (indent : Nat) : Bool → List Utf8.Piece → Text
  | _, [] => []
  | fresh, p :: rest =>
    if isBreakPiece p then rawPiece p ++ indented write indent true rest
    else
      (if fresh then Text.spaces indent else []) ++ write p ++ indented write indent false rest

/-- A text in its style, as the value of a key that stands at the given indentation. -/
def render (indent : Nat) (t : Text) : Text :=
  let ps := Utf8.pieces t
  match style t with
  | .plain => t
  | .single =>
    Text.ofString "'" ++ indented singlePiece (indent + 2) false ps ++ Text.ofString "'"
  | .double => Byte.quote :: ps.flatMap escapedPiece ++ [Byte.quote]
  | .literal => Text.ofString "|-\n" ++ indented rawPiece (indent + 2) true ps

end ShaderSyntax.Scalar
