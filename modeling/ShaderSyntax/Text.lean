/-!
# Texts

Sources, file names and messages are strings of bytes: nothing promises that a shader file is valid
UTF-8. This module fixes the type, the few ways of building a text, and its division into lines.
-/
namespace ShaderSyntax

/-- A string of bytes. -/
abbrev Text := List UInt8

namespace Byte

abbrev tab : UInt8 := 9
abbrev lineFeed : UInt8 := 10
abbrev carriageReturn : UInt8 := 13
abbrev space : UInt8 := 32
abbrev quote : UInt8 := 34
abbrev star : UInt8 := 42
abbrev minus : UInt8 := 45
abbrev dot : UInt8 := 46
abbrev slash : UInt8 := 47
abbrev equals : UInt8 := 61
abbrev backslash : UInt8 := 92
abbrev underscore : UInt8 := 95

def isDigit (b : UInt8) : Bool :=
  48 ≤ b && b ≤ 57

/-- An ASCII letter or the underscore. -/
def isLetter (b : UInt8) : Bool :=
  (97 ≤ b && b ≤ 122) || (65 ≤ b && b ≤ 90) || b == underscore

end Byte

namespace Text

/-- The UTF-8 bytes of a string. -/
def ofString (s : String) : Text :=
  s.toUTF8.data.toList

/-- The UTF-8 bytes of a character. -/
def ofChar (c : Char) : Text :=
  ofString (String.singleton c)

/-- Decimal digits without leading zeros. -/
def ofNat (n : Nat) : Text :=
  (Nat.toDigits 10 n).map fun c => UInt8.ofNat c.toNat

/-- So many spaces. -/
def spaces (n : Nat) : Text :=
  List.replicate n Byte.space

def startsWith (t start : Text) : Bool :=
  start.isPrefixOf t

/-- Byte by byte comparison, a text before all its extensions. -/
def le (a b : Text) : Bool :=
  decide (a ≤ b)

/-- The texts in ascending byte order. -/
def sort (ts : List Text) : List Text :=
  ts.mergeSort le

/-- The text before the first line feed. -/
def firstLine (t : Text) : Text :=
  t.takeWhile (· != Byte.lineFeed)

/-- The text after the last line feed. -/
def lastLine (t : Text) : Text :=
  (t.reverse.takeWhile (· != Byte.lineFeed)).reverse

/-- The line that holds the given offset, without its line feed. An offset past the end belongs to
the last line. -/
def lineAt (t : Text) (offset : Nat) : Text :=
  lastLine (t.take offset) ++ firstLine (t.drop offset)

/-- The number of the line that holds the given offset, counted from one. -/
def lineNumberAt (t : Text) (offset : Nat) : Nat :=
  (t.take offset).count Byte.lineFeed + 1

/-- The pieces between the separators: one more than there are separators. -/
def split (separator : UInt8) : Text → List Text
  | [] => [[]]
  | b :: rest =>
    if b = separator then [] :: split separator rest
    else
      match split separator rest with
      | [] => [[b]]
      | first :: others => (b :: first) :: others

@[simp] theorem split_nil (separator : UInt8) : split separator [] = [[]] := rfl

theorem split_ne_nil (separator : UInt8) (t : Text) : split separator t ≠ [] := by
  cases t with
  | nil => simp
  | cons b rest =>
    unfold split
    split
    · simp
    · split <;> simp

end Text

end ShaderSyntax
