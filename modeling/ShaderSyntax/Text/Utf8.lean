import ShaderSyntax.Text

/-!
# UTF-8

Characters at the head of a text, and the division of any text into characters and stray bytes. The
rules are the standard's: no overlong forms, no surrogates, nothing above U+10FFFF.
-/
namespace ShaderSyntax

namespace Utf8

/-- The six payload bits of a continuation byte. -/
def continuation? (b : UInt8) : Option Nat :=
  if 0x80 ≤ b ∧ b ≤ 0xBF then some (b.toNat - 0x80) else none

/-- The value of a lead byte followed by exactly `count` continuation bytes. -/
def extend? : Nat → Nat → Text → Option Nat
  | 0, value, _ => some value
  | _ + 1, _, [] => none
  | count + 1, value, b :: rest =>
    (continuation? b).bind fun bits => extend? count (value * 64 + bits) rest

/-- What a lead byte announces: the number of continuation bytes, its own payload bits, and the
least value that needs this form. -/
def lead? (b : UInt8) : Option (Nat × Nat × Nat) :=
  if b < 0x80 then some (0, b.toNat, 0)
  else if b < 0xC0 then none
  else if b < 0xE0 then some (1, b.toNat - 0xC0, 0x80)
  else if b < 0xF0 then some (2, b.toNat - 0xE0, 0x800)
  else if b < 0xF8 then some (3, b.toNat - 0xF0, 0x10000)
  else none

/-- The character a text starts with, if its first bytes encode one. -/
def char? : Text → Option Char
  | [] => none
  | b :: rest => do
    let (count, bits, least) ← lead? b
    let value ← extend? count bits rest
    if h : least ≤ value ∧ value.isValidChar then some (Char.ofNatAux value h.2) else none

/-- A character, or a byte that belongs to none. -/
inductive Piece where
  | char (c : Char)
  | stray (b : UInt8)
  deriving DecidableEq, Repr

/-- Divides a text, after skipping the rest of a character already taken. -/
def piecesAfter : Nat → Text → List Piece
  | _, [] => []
  | skip + 1, _ :: rest => piecesAfter skip rest
  | 0, b :: rest =>
    match char? (b :: rest) with
    | some c => .char c :: piecesAfter (c.utf8Size - 1) rest
    | none => .stray b :: piecesAfter 0 rest

/-- A text as characters and stray bytes, in order. -/
def pieces (t : Text) : List Piece :=
  piecesAfter 0 t

def Piece.char? : Piece → Option Char
  | .char c => some c
  | .stray _ => none

end Utf8

/-- The string that a text encodes; a text with a stray byte encodes none. -/
def Text.toString? (t : Text) : Option String :=
  ((Utf8.pieces t).mapM Utf8.Piece.char?).map String.ofList

end ShaderSyntax
