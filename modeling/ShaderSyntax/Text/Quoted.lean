import ShaderSyntax.Text.Printable
import ShaderSyntax.Text.Utf8

/-!
# Quoted text

How messages show a piece of the source: in double quotes, with everything that could not be read
back from a terminal escaped.
-/
namespace ShaderSyntax

namespace Quoted

/-- The lower case hexadecimal digit of a number below sixteen. -/
def hexDigit (n : Nat) : UInt8 :=
  UInt8.ofNat (if n < 10 then 48 + n else 87 + n)

/-- The last `width` hexadecimal digits of a number. -/
def hex : Nat → Nat → Text
  | 0, _ => []
  | width + 1, n => hex width (n / 16) ++ [hexDigit (n % 16)]

/-- The letter that names a control character after a backslash. -/
def controlLetter? : Nat → Option Char
  | 7 => some 'a'
  | 8 => some 'b'
  | 9 => some 't'
  | 10 => some 'n'
  | 11 => some 'v'
  | 12 => some 'f'
  | 13 => some 'r'
  | _ => none

/-- A backslash, a letter that tells the width, and the number in hexadecimal. -/
def numeric (letter : Char) (width n : Nat) : Text :=
  Text.ofString "\\" ++ Text.ofChar letter ++ hex width n

/-- The quote and the backslash get a backslash, seven control characters a letter, and what has no
visible form its number, in the narrowest of the widths 2, 4 and 8. -/
def character (c : Char) : Text :=
  let n := c.toNat
  if c = '"' ∨ c = '\\' then Byte.backslash :: Text.ofChar c
  else if isPrintable c then Text.ofChar c
  else
    match controlLetter? n with
    | some letter => Byte.backslash :: Text.ofChar letter
    | none =>
      if n < 0x20 ∨ n = 0x7F then numeric 'x' 2 n
      else if n < 0x10000 then numeric 'u' 4 n
      else numeric 'U' 8 n

def piece : Utf8.Piece → Text
  | .char c => character c
  | .stray b => numeric 'x' 2 b.toNat

end Quoted

/-- The text in double quotes, with escapes. -/
def Text.quoted (t : Text) : Text :=
  Byte.quote :: (Utf8.pieces t).flatMap Quoted.piece ++ [Byte.quote]

end ShaderSyntax
