import ShaderSyntax.Text.Quoted

/-!
# Operators and delimiters

The forty-five marks of the language, each with one spelling of one to three bytes. Where several
spellings start a text, the longest is the one that is read.
-/
namespace ShaderSyntax

/-- An operator or delimiter. -/
inductive Punct where
  | plus | minus | star | slash | percent | assign | eq | ne | lt | le | gt | ge | andAnd | orOr
  | not | ampersand | pipe | caret | tilde | shiftLeft | shiftRight | question | colon
  | plusAssign | minusAssign | starAssign | slashAssign | percentAssign | andAssign | orAssign
  | xorAssign | shiftLeftAssign | shiftRightAssign | increment | decrement | openParen
  | closeParen | openBrace | closeBrace | openBracket | closeBracket | semicolon | comma | dot
  | hash
  deriving DecidableEq, Repr

namespace Punct

def all : List Punct :=
  [.plus, .minus, .star, .slash, .percent, .assign, .eq, .ne, .lt, .le, .gt, .ge, .andAnd, .orOr,
   .not, .ampersand, .pipe, .caret, .tilde, .shiftLeft, .shiftRight, .question, .colon,
   .plusAssign, .minusAssign, .starAssign, .slashAssign, .percentAssign, .andAssign, .orAssign,
   .xorAssign, .shiftLeftAssign, .shiftRightAssign, .increment, .decrement, .openParen,
   .closeParen, .openBrace, .closeBrace, .openBracket, .closeBracket, .semicolon, .comma, .dot,
   .hash]

theorem mem_all (p : Punct) : p ∈ all := by
  cases p <;> decide

def spelling : Punct → Text
  | plus => Text.ofString "+"
  | minus => Text.ofString "-"
  | star => Text.ofString "*"
  | slash => Text.ofString "/"
  | percent => Text.ofString "%"
  | assign => Text.ofString "="
  | eq => Text.ofString "=="
  | ne => Text.ofString "!="
  | lt => Text.ofString "<"
  | le => Text.ofString "<="
  | gt => Text.ofString ">"
  | ge => Text.ofString ">="
  | andAnd => Text.ofString "&&"
  | orOr => Text.ofString "||"
  | not => Text.ofString "!"
  | ampersand => Text.ofString "&"
  | pipe => Text.ofString "|"
  | caret => Text.ofString "^"
  | tilde => Text.ofString "~"
  | shiftLeft => Text.ofString "<<"
  | shiftRight => Text.ofString ">>"
  | question => Text.ofString "?"
  | colon => Text.ofString ":"
  | plusAssign => Text.ofString "+="
  | minusAssign => Text.ofString "-="
  | starAssign => Text.ofString "*="
  | slashAssign => Text.ofString "/="
  | percentAssign => Text.ofString "%="
  | andAssign => Text.ofString "&="
  | orAssign => Text.ofString "|="
  | xorAssign => Text.ofString "^="
  | shiftLeftAssign => Text.ofString "<<="
  | shiftRightAssign => Text.ofString ">>="
  | increment => Text.ofString "++"
  | decrement => Text.ofString "--"
  | openParen => Text.ofString "("
  | closeParen => Text.ofString ")"
  | openBrace => Text.ofString "\x7b"
  | closeBrace => Text.ofString "\x7d"
  | openBracket => Text.ofString "["
  | closeBracket => Text.ofString "]"
  | semicolon => Text.ofString ";"
  | comma => Text.ofString ","
  | dot => Text.ofString "."
  | hash => Text.ofString "#"

/-- The mark with the given spelling. -/
def ofText? (t : Text) : Option Punct :=
  all.find? fun p => p.spelling == t

theorem spelling_of_ofText? {t : Text} {p : Punct} (h : ofText? t = some p) : p.spelling = t := by
  simpa using List.find?_some h

@[simp] theorem ofText?_spelling (p : Punct) : ofText? p.spelling = some p := by
  cases p <;> decide

/-- The mark with the longest spelling that starts the text. -/
def first? (t : Text) : Option Punct :=
  [3, 2, 1].findSome? fun length => ofText? (t.take length)

end Punct

end ShaderSyntax
