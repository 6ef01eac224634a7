import ShaderSyntax.Text.Utf8

/-!
# Blank text

The characters with the Unicode property White_Space, and the texts made of nothing else.
-/
namespace ShaderSyntax

/-- The Unicode property White_Space. -/
def isBlankChar (c : Char) : Bool :=
  let n := c.toNat
  (9 ≤ n && n ≤ 13) || n == 0x20 || n == 0x85 || n == 0xA0 || n == 0x1680 ||
    (0x2000 ≤ n && n ≤ 0x200A) || n == 0x2028 || n == 0x2029 || n == 0x202F || n == 0x205F ||
    n == 0x3000

def Utf8.Piece.isBlank : Utf8.Piece → Bool
  | .char c => isBlankChar c
  | .stray _ => false

/-- Every byte belongs to a white space character. -/
def Text.isBlank (t : Text) : Bool :=
  (Utf8.pieces t).all Utf8.Piece.isBlank

end ShaderSyntax
