import ShaderSyntax.Proofs.Placing
import ShaderSyntax.Proofs.Reading.Declaration
import ShaderSyntax.Proofs.Running

/-!
# Sessions under any requests

Expressions, statements and whole files may be asked for in any order, and each request may be
answered or refused. Whatever comes, the session stays at a token of its source and never goes back,
no level stays in use, and what was found stays found.
-/
namespace ShaderSyntax

/-- What can be asked of a session. -/
inductive Request where
  | expression | statement | file
  deriving DecidableEq, Repr

namespace Session

open ShaderSyntax.Parser

variable {α β : Type} {s after : Session} {text : Text}

/-- The trees that a request gives, or why there are none, and the session after it. -/
def answer (s : Session) : Request → Except Refusal (List Tree) × Session
  | .expression => (s.expression.1.map fun t => [t], s.expression.2)
  | .statement => (s.statement.1.map fun t => [t], s.statement.2)
  | .file => s.file

/-- The session after a sequence of requests. -/
def afterAll (s : Session) (requests : List Request) : Session :=
  requests.foldl (fun s r => (s.answer r).2) s

/-- The session stands in the text, and no level is in use. -/
structure Standing (text : Text) (s : Session) : Prop where
  source : s.source = .ofText text
  depth : s.depth = 0
  rest : s.rest <:+ (Source.ofText text).lexemes
  length_eq : s.diagnostics.length = s.invalidTrees.length

theorem standing_start (levels : Nat) (text : Text) : (start levels text).Standing text :=
  ⟨rfl, rfl, List.suffix_refl _, rfl⟩

/-- Steps that give back every level leave the session in its text. -/
theorem Goes.standing (h : s.Goes 0 after) (hs : s.Standing text) : after.Standing text := by
  have hgrowth := h.growth
  have hlength := hs.length_eq
  constructor
  · rw [h.source, hs.source]
  · rw [h.depth, hs.depth, Int.add_zero]
  · exact h.rest.trans hs.rest
  · omega

/-- The lexemes taken and those left are all lexemes. -/
theorem Standing.taken_add (h : s.Standing text) :
    s.taken + s.rest.length = (Source.ofText text).lexemes.length := by
  have hle := h.rest.length_le
  have hlen := (Source.run_lexemes text).length_eq
  rw [taken, h.source, Source.index, Source.size_ofText]
  omega

theorem Standing.drop_taken (h : s.Standing text) :
    s.source.lexemes.drop s.taken = s.rest := by
  obtain ⟨front, hfront⟩ := h.rest
  have hsum := h.taken_add
  rw [h.source]
  rw [← hfront, List.length_append] at hsum
  rw [← hfront, List.drop_left' (by omega)]

theorem Standing.taken_lt_size (h : s.Standing text) : s.taken < s.source.tokens.size := by
  have hsum := h.taken_add
  have hlen := (Source.run_lexemes text).length_eq
  obtain ⟨last, htokens, -⟩ := Source.tokens_ofText text
  rw [h.source, ← Array.length_toList, htokens, List.length_append, List.length_singleton]
  omega

theorem Standing.kind_token (h : s.Standing text) (hr : s.rest = []) : s.token.kind = .eof := by
  obtain ⟨last, htokens, hlast⟩ := Source.tokens_ofText text
  have hsize := Source.size_ofText text
  have hend : s.token = last := by
    rw [token, h.source, hr, Source.tokenLeft, Source.token, Source.index, hsize,
      ← Array.getElem?_toList, htokens]
    simp
  rw [hend, Token.kind, hlast]

/-- A request sets the count back where the limit was met, and finds it right where it was not. -/
theorem goes_request (hs : s.depth = 0) (r : Routine α) : s.Goes 0 (s.request r).2 := by
  have hgoes := s.run_goes r
  rw [request]
  cases hrun : s.run r with
  | mk result after =>
    rw [hrun] at hgoes
    cases result with
    | ok a => exact hgoes
    | error refusal =>
      cases refusal with
      | problem d => exact hgoes
      | tooDeep limit => exact { hgoes with depth := by rw [hs]; rfl }

/-- A run that meets the limit on the second level has given back the first, and the request gives back
the second. -/
example :
    let s := start 1 (Text.ofString "( a )")
    (s.run (.nested .expression)).2.depth = 1 ∧ s.expression.2.depth = 0 := by
  decide +kernel

/-- What a request gives is what the parser of its routine says. -/
theorem request_eq (s : Session) (r : Routine α) :
    s.request r = release (s.told (r.parse (Production.parse s.free) s.rest)) :=
  congrArg release (s.run_eq r)

theorem request_eq_done {r : Routine α} {a : α} {rest : List Lexeme} {found : List Finding}
    (h : r.parse (Production.parse s.free) s.rest = .done a rest found) :
    s.request r = (.ok a, s.advance rest found) := by
  rw [request_eq, h]
  rfl

/-- An answered request is a parser that was done. -/
theorem done_of_request (r : Routine α) (f : α → β) (h : ((s.request r).1.map f).isOk = true) :
    ∃ a rest found, r.parse (Production.parse s.free) s.rest = .done a rest found ∧
      (s.request r).2.rest = rest := by
  cases ho : r.parse (Production.parse s.free) s.rest with
  | done a rest found => exact ⟨a, rest, found, rfl, by rw [request_eq_done ho]; rfl⟩
  | failed problem rest found =>
    rw [request_eq, ho] at h
    cases h
  | tooDeep rest found =>
    rw [request_eq, ho] at h
    cases h

/-- What a request does to a session in which no level is in use. If it is answered, it takes
something, and a file takes all. -/
structure Step (s : Session) (r : Request) (answered : Bool) (after : Session) : Prop where
  goes : s.depth = 0 → s.Goes 0 after
  length_lt : answered = true → r ≠ .file → after.rest.length < s.rest.length
  finish : answered = true → r = .file → after.rest = []

/-- One run of a routine, told by what its parser leaves when it is done. -/
theorem step_request (request : Request) (r : Routine α) (f : α → β)
    (hlt : request ≠ .file → ∀ a rest found,
      r.parse (Production.parse s.free) s.rest = .done a rest found → rest.length < s.rest.length)
    (hfinish : request = .file → ∀ a rest found,
      r.parse (Production.parse s.free) s.rest = .done a rest found → rest = []) :
    s.Step request ((s.request r).1.map f).isOk (s.request r).2 := by
  constructor
  · exact fun hs => goes_request hs r
  · intro hok hr
    obtain ⟨a, rest, found, hd, hrest⟩ := done_of_request r f hok
    rw [hrest]
    exact hlt hr a rest found hd
  · intro hok hr
    obtain ⟨a, rest, found, hd, hrest⟩ := done_of_request r f hok
    rw [hrest]
    exact hfinish hr a rest found hd

theorem step_answer (s : Session) (r : Request) :
    s.Step r (s.answer r).1.isOk (s.answer r).2 := by
  have hmap : ∀ (x : Except Refusal Tree), (x.map fun t => [t]).isOk = x.isOk := by
    intro x
    cases x <;> rfl
  cases r with
  | expression =>
    have hstep : s.Step .expression s.expression.1.isOk s.expression.2 := by
      refine step_request .expression (.nested .expression) _ ?_ nofun
      intro _ a rest found hd
      rw [Routine.parse_nested, Production.parse_expression] at hd
      exact length_lt_of_reads (Grammar.expression_reads s.free s.rest) hd
    simpa only [answer, hmap] using hstep
  | statement =>
    have hstep : s.Step .statement s.statement.1.isOk s.statement.2 := by
      refine step_request .statement .loneStmt _ ?_ nofun
      intro _ a rest found hd
      by_cases hr : s.rest = []
      · rw [hr] at hd
        cases hd
      · rw [Production.parse_loneStmt _ hr] at hd
        exact length_lt_of_reads
          (Grammar.recoveredStmt_reads (Grammar.statement_reads s.free) s.rest hr) hd
    simpa only [answer, hmap] using hstep
  | file =>
    refine step_request .file .declarations _ (fun h => absurd rfl h) ?_
    intro _ ds rest found hd
    rw [Production.parse_declarations] at hd
    rcases Grammar.declarations_total s.free s.rest with ⟨ds', found', ht⟩ | ⟨rest', found', ht⟩
    · rw [hd] at ht
      cases ht
      rfl
    · rw [hd] at ht
      cases ht

/-- A session that was started on a text stands in it after every sequence of requests. -/
theorem standing_afterAll (levels : Nat) (text : Text) (requests : List Request) :
    ((start levels text).afterAll requests).Standing text := by
  have hall : ∀ s : Session, s.Standing text → (s.afterAll requests).Standing text := by
    induction requests with
    | nil => exact fun s h => h
    | cons r requests ih => exact fun s h => ih _ (((s.step_answer r).goes h.depth).standing h)
  exact hall _ (standing_start levels text)

/-- A new session that is asked for the file gives the document of the text with its findings, or
meets the limit where the parse of the text does. -/
theorem file_start (levels : Nat) (text : Text) :
    match Document.parse levels text with
    | .ok d => (start levels text).file = (.ok d.trees,
        ⟨.ofText text, levels, 0, [], d.diagnostics, d.invalidTrees⟩)
    | .error e => (start levels text).file.1 = .error (.tooDeep e) := by
  have hparse : Routine.declarations.parse (Production.parse (start levels text).free)
      (start levels text).rest = Grammar.declarations levels (Source.ofText text).lexemes :=
    congrFun (Production.parse_declarations levels) _
  have hsize : (Source.ofText text).size = (Source.ofText text).lexemes.length :=
    (Source.size_ofText text).trans (Source.run_lexemes text).length_eq
  rw [file, request_eq, hparse, Document.parse, Document.ofSource]
  rcases Grammar.declarations_total levels (Source.ofText text).lexemes with
    ⟨ds, found, hd⟩ | ⟨rest, found, hd⟩
  · rw [hd]
    simp only [Document.trees, hsize]
    rfl
  · rw [hd]
    rfl

/-- What holds of a session after a request, and how it compares with the session before. -/
structure Keeps (before : Session) (r : Request) (answered : Bool) (after : Session) : Prop where
  depth : after.depth = 0
  /-- The next request may nest as deep as the first. -/
  free : after.free = before.levels
  /-- The session stands at a token, and what is left is what follows it. -/
  within : after.taken < after.source.tokens.size
  rest : after.rest = after.source.lexemes.drop after.taken
  taken_le : before.taken ≤ after.taken
  taken_lt : answered = true → r ≠ .file → before.taken < after.taken
  finish : answered = true → r = .file → after.token.kind = .eof
  length_eq : after.diagnostics.length = after.invalidTrees.length
  diagnostics : before.diagnostics <+: after.diagnostics
  invalidTrees : before.invalidTrees <+: after.invalidTrees

theorem Step.keeps {r : Request} {answered : Bool} (h : s.Step r answered after)
    (hs : s.Standing text) : s.Keeps r answered after := by
  have hgoes := h.goes hs.depth
  have ha := hgoes.standing hs
  have hbefore := hs.taken_add
  have hafter := ha.taken_add
  constructor
  · exact ha.depth
  · rw [Session.free, ha.depth, Int.sub_zero, Int.toNat_natCast, hgoes.levels]
  · exact ha.taken_lt_size
  · exact ha.drop_taken.symm
  · have := hgoes.rest.length_le
    omega
  · intro hok hr
    have := h.length_lt hok hr
    omega
  · exact fun hok hr => ha.kind_token (h.finish hok hr)
  · exact ha.length_eq
  · exact hgoes.diagnostics
  · exact hgoes.invalidTrees

end Session

/-- Whatever the text and the limit, and whatever was asked before and came of it, every request
leaves the session in order. -/
theorem requests_keep (levels : Nat) (text : Text) (requests : List Request) (r : Request) :
    let before := (Session.start levels text).afterAll requests
    before.Keeps r (before.answer r).1.isOk (before.answer r).2 :=
  (Session.step_answer _ r).keeps (Session.standing_afterAll levels text requests)

end ShaderSyntax
