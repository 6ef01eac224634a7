import ShaderSyntax.Text

/-!
# Integers on the command line

A sign, a base mark (`0x`, `0b`, `0o`, or a zero for octal) and digits, with single underscores
between digits or after the base mark. The number has to fit in 64 bits with its sign.
-/
namespace ShaderSyntax.Integer

/-- The value of a digit, a letter in either case from ten on. -/
def digit? (b : UInt8) : Option Nat :=
  if Byte.isDigit b then some (b.toNat - 48)
  else if 97 ≤ b ∧ b ≤ 122 then some (b.toNat - 87)
  else if 65 ≤ b ∧ b ≤ 90 then some (b.toNat - 55)
  else none

/-- Whether each underscore stands after a digit and before one. -/
def underscoresFit : Bool → Text → Bool
  | afterDigit, [] => afterDigit
  | afterDigit, b :: rest =>
    if b = Byte.underscore then afterDigit && underscoresFit false rest
    else underscoresFit true rest

/-- The value of digits in a base, underscores left out. -/
def value? (base : Nat) : Nat → Text → Option Nat
  | n, [] => some n
  | n, b :: rest =>
    if b = Byte.underscore then value? base n rest
    else
      match digit? b with
      | some d => if d < base then value? base (n * base + d) rest else none
      | none => none

/-- Digits in a base, after something that counts as a digit or not. -/
def digits? (base : Nat) (afterDigit : Bool) (t : Text) : Option Nat :=
  if underscoresFit afterDigit t then value? base 0 t else none

/-- The base that a letter after a zero marks. -/
def base? (b : UInt8) : Option Nat :=
  if b = 120 ∨ b = 88 then some 16
  else if b = 98 ∨ b = 66 then some 2
  else if b = 111 ∨ b = 79 then some 8
  else none

/-- A number without a sign. -/
def unsigned? : Text → Option Nat
  | [] => none
  | b :: rest =>
    if b = 48 then
      match rest with
      | m :: d :: more =>
        match base? m with
        | some base => digits? base true (d :: more)
        | none => digits? 8 true rest
      | _ => digits? 8 true rest
    else digits? 10 false (b :: rest)

/-- The numbers of 64 bits with a sign lie from `-limit` up to but not including `limit`. -/
def limit : Nat :=
  Nat.pow 2 63

/-- A number with an optional sign, within 64 bits. -/
def parse? (t : Text) : Option Int :=
  match t with
  | [] => none
  | b :: rest =>
    if b = Byte.minus then
      (unsigned? rest).bind fun n => if n ≤ limit then some (-(n : Int)) else none
    else
      (unsigned? (if b = 43 then rest else t)).bind fun n =>
        if n < limit then some (n : Int) else none

end ShaderSyntax.Integer
