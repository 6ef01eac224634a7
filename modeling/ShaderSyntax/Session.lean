import ShaderSyntax.Document
import ShaderSyntax.Routine.Declaration

/-!
# Parsing by fragments

A session holds a source, the lexemes not yet taken, a count of the levels in use, and two lists of
what was found wrong: the diagnostics, and the trees that stand for them. Each request runs a routine
at the front. A production that nests takes a level and gives it back however it ends. Where the
count goes over the levels allowed, everything under way is given up, and the request sets the count
back. What is recorded stays, except that a failure that is recovered from cuts both lists back to
where they were when the failed production began.
-/
namespace ShaderSyntax

structure Session where
  source : Source
  levels : Nat
  /-- The levels taken and not given back. -/
  depth : Int
  rest : List Lexeme
  diagnostics : List Diagnostic
  invalidTrees : List Tree

/-- Why a request gave no fragment. -/
inductive Refusal where
  | problem (diagnostic : Diagnostic)
  | tooDeep (limit : TooDeep)

def Refusal.report : Refusal → Text
  | .problem d => d.report
  | .tooDeep e => e.report

/-- What a run gave, and the session after it. -/
abbrev Ending (α : Type) :=
  Except Refusal α × Session

namespace Session

variable {α : Type}

def start (levels : Nat) (text : Text) : Session :=
  let source := Source.ofText text
  ⟨source, levels, 0, source.lexemes, [], []⟩

/-- The number of lexemes taken. -/
def taken (s : Session) : Nat :=
  s.source.index s.rest.length

/-- The token at the front. -/
def token (s : Session) : Token :=
  s.source.tokenLeft s.rest.length

/-- The levels that a request may still take. -/
def free (s : Session) : Nat :=
  (s.levels - s.depth).toNat

/-- Takes a level, allowed or not. -/
def enter (s : Session) : Session :=
  { s with depth := s.depth + 1 }

/-- Gives a level back. -/
def leave (s : Session) : Session :=
  { s with depth := s.depth - 1 }

/-- Takes one lexeme. -/
def skip (s : Session) : Session :=
  { s with rest := s.rest.tail }

/-- The refusal for a problem met at the front. -/
def problem (s : Session) (problem : Option Lexeme → Problem) : Refusal :=
  .problem (s.source.diagnose (problem s.rest.head?) s.rest.length)

/-- The refusal for nesting too deep at the front. -/
def limit (s : Session) : Refusal :=
  .tooDeep (s.source.tooDeep s.levels s.rest.length)

/-- Adds a diagnostic and the tree that stands for it, each to its list. -/
def record (s : Session) (d : Diagnostic) (t : Tree) : Session :=
  { s with diagnostics := s.diagnostics ++ [d], invalidTrees := s.invalidTrees ++ [t] }

/-- How much stood in the two lists at some time. -/
structure Mark where
  diagnostics : Nat
  invalidTrees : Nat

def mark (s : Session) : Mark :=
  ⟨s.diagnostics.length, s.invalidTrees.length⟩

/-- Drops what was recorded after a mark. -/
def cut (s : Session) (m : Mark) : Session :=
  { s with
    diagnostics := s.diagnostics.take m.diagnostics
    invalidTrees := s.invalidTrees.take m.invalidTrees }

/-- Recovers from the failure of what began at the given lexemes and mark: goes on where parsing
resumes, and records one error in place of all that was recorded since. -/
def recover (s : Session) (extent : Extent) (begun : List Lexeme) (m : Mark) (d : Diagnostic) :
    Skipped × Session :=
  let reached := begun.length - s.rest.length
  let after := extent.resume (begun.take reached) s.rest
  let skipped : Skipped := ⟨begun.take (begun.length - after.length), reached, d.problem⟩
  let error := s.source.place begun.length (.error skipped)
  (skipped, ({ s with rest := after }.cut m).record d error)

/-- Runs something on a level of its own. The level that was one too many is not given back here:
what met the limit never ran. -/
def nest (s : Session) (inner : Session → Ending α) : Ending α :=
  let entered := s.enter
  if entered.levels < entered.depth then (.error entered.limit, entered)
  else
    let (result, after) := inner entered
    (result, after.leave)

end Session

/-- Runs a routine, given how productions that nest are run. -/
def Routine.run (call : {β : Type} → Production β → Session → Ending β) {α : Type} :
    Routine α → Session → Ending α
  | .value a, s => (.ok a, s)
  | .andThen first next, s =>
    match first.run call s with
    | (.ok a, after) => (next a).run call after
    | (.error e, after) => (.error e, after)
  | .look next, s => (next s.rest).run call s
  | .skip, s => (.ok (), s.skip)
  | .note problem node left, s =>
    (.ok (), s.record (s.source.diagnose problem left) (s.source.place left node))
  | .fail problem, s => (.error (s.problem problem), s)
  | .nested p, s => call p s
  | .recovered extent error inner, s =>
    match inner.run call s with
    | (.error (.problem d), after) =>
      let (skipped, after) := after.recover extent s.rest s.mark d
      (.ok (error skipped), after)
    | (result, after) => (result, after)

/-- Runs a production that nests, where so many levels are free. Where none is, it takes one too many,
so what stands here for its body is never run. -/
def Production.run : Nat → {α : Type} → Production α → Session → Ending α
  | 0, _, _, s => s.nest fun s => (.error s.limit, s.enter)
  | below + 1, _, p, s => s.nest (p.body.run (Production.run below))

namespace Session

variable {α : Type}

def run (s : Session) (r : Routine α) : Ending α :=
  r.run (Production.run s.free) s

/-- Where the limit was met, no level is in use any more. -/
def release : Ending α → Ending α
  | (.error (.tooDeep e), after) => (.error (.tooDeep e), { after with depth := 0 })
  | ending => ending

def request (s : Session) (r : Routine α) : Ending α :=
  release (s.run r)

/-- Takes an expression. -/
def expression (s : Session) : Ending Tree :=
  let (result, after) := s.request (.nested .expression)
  (result.map fun e => s.source.place s.rest.length e.node, after)

/-- Takes a statement. -/
def statement (s : Session) : Ending Tree :=
  let (result, after) := s.request .loneStmt
  (result.map fun t => s.source.place s.rest.length t.node, after)

/-- Takes all declarations up to the end. -/
def file (s : Session) : Ending (List Tree) :=
  let (result, after) := s.request .declarations
  (result.map fun ds => s.source.placeAll s.rest.length (ds.map Decl.node), after)

end Session

end ShaderSyntax
