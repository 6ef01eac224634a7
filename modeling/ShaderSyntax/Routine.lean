import ShaderSyntax.Ast.Decl
import ShaderSyntax.Grammar.Recovery

/-!
# Routines

A routine tells a production by its steps, in the order in which they are taken: it looks at the
lexemes left, takes one, notes a finding, fails, goes into a production that nests, or recovers from
the failure of another routine. A production that nests is only named, so the steps between two
levels are a finite tree although the grammar is recursive.
-/
namespace ShaderSyntax

/-- The productions that take a level. -/
inductive Production : Type → Type where
  | expression : Production Expr
  /-- A sign and its operand. -/
  | sign (op : UnaryOp) : Production Expr
  | statement : Production Stmt

/-- The ways to find the end of a production that failed. -/
inductive Extent where
  | statement | clause | declaration
  deriving DecidableEq, Repr

/-- Where parsing goes on, from the lexemes that the failed production took and those left. -/
def Extent.resume : Extent → List Lexeme → List Lexeme → List Lexeme
  | statement => Recovery.resumeStatement
  | clause => Recovery.resumeClause
  | declaration => Recovery.resumeDeclaration

inductive Routine : Type → Type 1 where
  | value {α : Type} (a : α) : Routine α
  | andThen {α β : Type} (first : Routine α) (next : α → Routine β) : Routine β
  /-- Goes on as the lexemes left demand. -/
  | look {α : Type} (next : List Lexeme → Routine α) : Routine α
  /-- Takes one lexeme. -/
  | skip : Routine Unit
  /-- Notes a problem and the node that stands for it, where so many lexemes were left. -/
  | note (problem : Problem) (node : Node) (left : Nat) : Routine Unit
  /-- Ends the production at the next lexeme. -/
  | fail {α : Type} (problem : Option Lexeme → Problem) : Routine α
  | nested {α : Type} (p : Production α) : Routine α
  /-- Turns a failure into a value, which stands for all lexemes up to where parsing resumes. -/
  | recovered {α : Type} (extent : Extent) (error : Skipped → α) (inner : Routine α) : Routine α

namespace Routine

variable {α : Type}

instance : Monad Routine where
  pure := value
  bind := andThen

/-- Takes as many lexemes. -/
def skips : Nat → Routine Unit
  | 0 => value ()
  | n + 1 => do
    skip
    skips n

/-- Takes the mark that a place requires. -/
def require (place : Place) : Routine Unit :=
  look fun ts =>
    match ts with
    | .punct p :: _ => if p = place.punct then skip else fail (.missing place)
    | _ => fail (.missing place)

/-- Takes the mark and goes on one way, or takes nothing and goes on the other. -/
def onPunct (p : Punct) (yes no : Routine α) : Routine α :=
  look fun ts =>
    match ts with
    | .punct q :: _ =>
      if q = p then do
        skip
        yes
      else no
    | _ => no

/-- Takes the keyword and goes on one way, or takes nothing and goes on the other. -/
def onKeyword (k : Keyword) (yes no : Routine α) : Routine α :=
  look fun ts =>
    match ts with
    | .word w :: _ =>
      if w = k.spelling then do
        skip
        yes
      else no
    | _ => no

/-- Takes a word of the class if one is next. -/
def qualifier (cls : WordClass) : Routine (Option Text) :=
  look fun ts =>
    match ts with
    | .word w :: _ =>
      if classify w = cls then do
        skip
        value (some w)
      else value none
    | _ => value none

/-- A routine that makes at most as many rounds as there are lexemes left. -/
def inRounds (r : Nat → Routine α) : Routine α :=
  look fun ts => r ts.length

def manyWithin (stop : Lexeme → Bool) (item : Routine α) : Nat → Routine (List α)
  | 0 => value []
  | rounds + 1 =>
    look fun ts =>
      match ts with
      | [] => value []
      | l :: _ =>
        if stop l then value []
        else do
          let a ← item
          let rest ← manyWithin stop item rounds
          value (a :: rest)

/-- Items up to a lexeme that stops them or to the end. -/
def manyUntil (stop : Lexeme → Bool) (item : Routine α) : Routine (List α) :=
  inRounds (manyWithin stop item)

def moreWithin (item : Routine α) : Nat → Routine (List α)
  | 0 => value []
  | rounds + 1 =>
    onPunct .comma
      (do
        let a ← item
        let rest ← moreWithin item rounds
        value (a :: rest))
      (value [])

/-- One or more items with commas between them. -/
def separated (item : Routine α) : Routine (List α) := do
  let first ← item
  let others ← inRounds (moreWithin item)
  value (first :: others)

def growWithin (step : α → Lexeme → Option (Routine α)) : Nat → α → Routine α
  | 0, a => value a
  | rounds + 1, a =>
    look fun ts =>
      match ts with
      | [] => value a
      | l :: _ =>
        match step a l with
        | none => value a
        | some r => do
          skip
          let b ← r
          growWithin step rounds b

/-- Extends a value as long as the next lexeme starts an extension of it. -/
def grow (step : α → Lexeme → Option (Routine α)) (a : α) : Routine α :=
  inRounds fun rounds => growWithin step rounds a

end Routine

end ShaderSyntax
