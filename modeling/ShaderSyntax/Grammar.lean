import ShaderSyntax.Concrete

/-!
# Parsers

A parser runs on the lexemes that remain and leaves fewer or as many. Besides its value it leaves the
findings made on the way. It may fail, which a surrounding parser can recover from, or it may meet
the limit on nesting, which nothing recovers from. Places in the input are told by the number of
lexemes left there, so nothing depends on what stood before.
-/
namespace ShaderSyntax

/-- A problem, the node that stands for it, and the number of lexemes left at the node's first
lexeme and where the problem arose. -/
structure Finding where
  problem : Problem
  node : Node
  nodeLeft : Nat
  left : Nat

/-- A finding about one lexeme that is a node by itself. -/
def Finding.single (problem : Problem) (node : Node) (left : Nat) : Finding :=
  ⟨problem, node, left, left⟩

/-- How a parser ends. In every case the lexemes left and the findings are known. -/
inductive Outcome (α : Type) where
  | done (value : α) (rest : List Lexeme) (findings : List Finding)
  | failed (problem : Problem) (rest : List Lexeme) (findings : List Finding)
  | tooDeep (rest : List Lexeme) (findings : List Finding)

namespace Outcome

variable {α : Type}

def rest : Outcome α → List Lexeme
  | done _ r _ => r
  | failed _ r _ => r
  | tooDeep r _ => r

def findings : Outcome α → List Finding
  | done _ _ found => found
  | failed _ _ found => found
  | tooDeep _ found => found

/-- The outcome when other findings came first. -/
def after (earlier : List Finding) : Outcome α → Outcome α
  | done a r found => done a r (earlier ++ found)
  | failed p r found => failed p r (earlier ++ found)
  | tooDeep r found => tooDeep r (earlier ++ found)

@[simp] theorem after_nil (o : Outcome α) : o.after [] = o := by
  cases o <;> rfl

theorem after_append (xs ys : List Finding) (o : Outcome α) :
    o.after (xs ++ ys) = (o.after ys).after xs := by
  cases o <;> simp [after]

end Outcome

def Parser (α : Type) : Type :=
  List Lexeme → Outcome α

namespace Parser

variable {α β : Type}

def value (a : α) : Parser α := fun ts =>
  .done a ts []

/-- Runs a second parser on what the first leaves. -/
def andThen (p : Parser α) (f : α → Parser β) : Parser β := fun ts =>
  match p ts with
  | .done a rest found => (f a rest).after found
  | .failed problem rest found => .failed problem rest found
  | .tooDeep rest found => .tooDeep rest found

instance : Monad Parser where
  pure := value
  bind := andThen

theorem bind_eq_andThen (p : Parser α) (f : α → Parser β) : p >>= f = p.andThen f := rfl

theorem andThen_eq_done_iff {p : Parser α} {f : α → Parser β} {ts rest : List Lexeme} {b : β}
    {found : List Finding} :
    p.andThen f ts = .done b rest found ↔
      ∃ a mid first last, p ts = .done a mid first ∧ f a mid = .done b rest last ∧
        found = first ++ last := by
  unfold andThen
  cases p ts with
  | done a mid first => cases h : f a mid <;> simp [Outcome.after, h, eq_comm, and_assoc]
  | failed problem mid first => simp
  | tooDeep mid first => simp

theorem andThen_eq_tooDeep_iff {p : Parser α} {f : α → Parser β} {ts rest : List Lexeme}
    {found : List Finding} :
    p.andThen f ts = .tooDeep rest found ↔
      p ts = .tooDeep rest found ∨
        ∃ a mid first last, p ts = .done a mid first ∧ f a mid = .tooDeep rest last ∧
          found = first ++ last := by
  unfold andThen
  cases p ts with
  | done a mid first => cases h : f a mid <;> simp [Outcome.after, h, eq_comm, and_assoc]
  | failed problem mid first => simp
  | tooDeep mid first => simp

/-- Ends the production at the next lexeme. -/
def fail (problem : Option Lexeme → Problem) : Parser α := fun ts =>
  .failed (problem ts.head?) ts []

/-- Meets the limit on nesting at the next lexeme. -/
def tooDeep : Parser α := fun ts =>
  .tooDeep ts []

/-- Leaves out one lexeme. -/
def skip : Parser Unit := fun ts =>
  .done () ts.tail []

/-- Takes the mark that a place requires. -/
def require (place : Place) : Parser Unit := fun ts =>
  match ts with
  | .punct p :: rest =>
    if p = place.punct then .done () rest [] else .failed (.missing place ts.head?) ts []
  | _ => .failed (.missing place ts.head?) ts []

/-- Takes the mark and goes on one way, or takes nothing and goes on the other. -/
def onPunct (p : Punct) (yes no : Parser α) : Parser α := fun ts =>
  match ts with
  | .punct q :: rest => if q = p then yes rest else no ts
  | _ => no ts

/-- Takes the keyword and goes on one way, or takes nothing and goes on the other. -/
def onKeyword (k : Keyword) (yes no : Parser α) : Parser α := fun ts =>
  match ts with
  | .word w :: rest => if w = k.spelling then yes rest else no ts
  | _ => no ts

/-- Takes a word of the class if one is next. -/
def qualifier (cls : WordClass) : Parser (Option Text) := fun ts =>
  match ts with
  | .word w :: rest => if classify w = cls then .done (some w) rest [] else .done none ts []
  | _ => .done none ts []

/-- Runs a parser that makes at most as many rounds as there are lexemes left. -/
def inRounds (p : Nat → Parser α) : Parser α := fun ts =>
  p ts.length ts

def manyWithin (stop : Lexeme → Bool) (item : Parser α) : Nat → Parser (List α)
  | 0 => value []
  | rounds + 1 => fun ts =>
    match ts with
    | [] => .done [] ts []
    | l :: _ =>
      if stop l then .done [] ts []
      else
        (do
          let a ← item
          let rest ← manyWithin stop item rounds
          value (a :: rest) : Parser (List α)) ts

/-- Items up to a lexeme that stops them or to the end. -/
def manyUntil (stop : Lexeme → Bool) (item : Parser α) : Parser (List α) :=
  inRounds (manyWithin stop item)

def moreWithin (item : Parser α) : Nat → Parser (List α)
  | 0 => value []
  | rounds + 1 =>
    onPunct .comma
      (do
        let a ← item
        let rest ← moreWithin item rounds
        value (a :: rest))
      (value [])

/-- One or more items with commas between them. -/
def separated (item : Parser α) : Parser (List α) := do
  let first ← item
  let others ← inRounds (moreWithin item)
  value (first :: others)

def growWithin (step : α → Lexeme → Option (Parser α)) : Nat → α → Parser α
  | 0, a => value a
  | rounds + 1, a => fun ts =>
    match ts with
    | [] => .done a ts []
    | l :: rest =>
      match step a l with
      | none => .done a ts []
      | some p => (p.andThen (growWithin step rounds)) rest

/-- Extends a value as long as the next lexeme starts an extension of it. -/
def grow (step : α → Lexeme → Option (Parser α)) (a : α) : Parser α :=
  inRounds fun rounds => growWithin step rounds a

end Parser

end ShaderSyntax
