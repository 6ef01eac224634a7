import ShaderSyntax.Lexeme.Punct

/-!
# Lexemes

The units the grammar is written in. A lexeme is a shape with the text that the shape leaves open.
Words are not divided into keywords and names here: the grammar does that by position. The two
boolean literals are words that have a token class of their own.
-/
namespace ShaderSyntax

/-- The class of a token. -/
inductive TokenKind where
  | eof | illegal | ident | int | float | bool | string
  | punct (p : Punct)
  deriving DecidableEq, Repr

namespace TokenKind

def all : List TokenKind :=
  [.eof, .illegal, .ident, .int, .float, .bool, .string] ++ Punct.all.map .punct

theorem mem_all (k : TokenKind) : k ∈ all := by
  cases k with
  | punct p => simp [all, Punct.mem_all]
  | _ => simp [all]

def ofNumber? (n : Nat) : Option TokenKind :=
  all[n]?

def name : TokenKind → Text
  | eof => Text.ofString "EOF"
  | illegal => Text.ofString "ILLEGAL"
  | ident => Text.ofString "IDENT"
  | int => Text.ofString "INT"
  | float => Text.ofString "FLOAT"
  | bool => Text.ofString "BOOL"
  | string => Text.ofString "STRING"
  | punct p => p.spelling

def isPunctuation : TokenKind → Bool
  | punct _ => true
  | _ => false

end TokenKind

/-- A token of the source without its place. Strings keep their quotes. -/
inductive Lexeme where
  | word (w : Text)
  | int (digits : Text)
  | float (digits : Text)
  | string (raw : Text)
  | illegal (raw : Text)
  | punct (p : Punct)
  deriving DecidableEq, Repr

def boolText (value : Bool) : Text :=
  if value then Text.ofString "true" else Text.ofString "false"

/-- The value of a word that is a boolean literal. -/
def boolOf? (w : Text) : Option Bool :=
  if w = boolText true then some true
  else if w = boolText false then some false
  else none

theorem boolText_of_boolOf? {w : Text} {value : Bool} (h : boolOf? w = some value) :
    boolText value = w := by
  unfold boolOf? at h
  split at h
  · simp_all
  · split at h <;> simp_all

@[simp] theorem boolOf?_boolText (value : Bool) : boolOf? (boolText value) = some value := by
  cases value <;> decide

namespace Lexeme

/-- The spelling in the source. -/
def text : Lexeme → Text
  | word w => w
  | int digits => digits
  | float digits => digits
  | string raw => raw
  | illegal raw => raw
  | punct p => p.spelling

def kind : Lexeme → TokenKind
  | word w => if (boolOf? w).isSome then .bool else .ident
  | int _ => .int
  | float _ => .float
  | string _ => .string
  | illegal _ => .illegal
  | punct p => .punct p

/-- How a message names a lexeme; the end of the input is the absence of one. -/
def describe : Option Lexeme → Text
  | none => Text.ofString "end of input"
  | some (punct p) => Text.ofString "'" ++ p.spelling ++ Text.ofString "'"
  | some l => l.kind.name ++ Text.ofString " " ++ Text.quoted l.text

end Lexeme

end ShaderSyntax
