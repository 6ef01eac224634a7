import ShaderSyntax.Proofs.Telling
import ShaderSyntax.Session

/-!
# Runs of a session

Each step of a session changes the count of levels by what it says, goes on in the source or stays,
and adds to both lists alike. A run is put together from such steps, so it has given back every
level that it took, except the one that was too many, and it has cut nothing that stood there before
it. What a run gives and leaves is what the parser of its routine gives and leaves.
-/
namespace ShaderSyntax

open ShaderSyntax.Parser

/-- Parsing goes on at a later lexeme, whatever failed. -/
theorem Extent.resumes (extent : Extent) : Recovery.Resumes extent.resume := by
  cases extent with
  | statement => exact Recovery.resumes_statement
  | clause => exact Recovery.resumes_clause
  | declaration => exact Recovery.resumes_declaration

namespace Session

variable {α : Type} {s middle after : Session} {m n : Int}

/-! ### What steps and runs keep -/

/-- What happens to a session in some steps that count by so many levels. -/
structure Goes (s : Session) (n : Int) (after : Session) : Prop where
  source : after.source = s.source
  levels : after.levels = s.levels
  depth : after.depth = s.depth + n
  rest : after.rest <:+ s.rest
  diagnostics : s.diagnostics <+: after.diagnostics
  invalidTrees : s.invalidTrees <+: after.invalidTrees
  /-- Both lists have grown by equally many. -/
  growth : after.diagnostics.length + s.invalidTrees.length =
    after.invalidTrees.length + s.diagnostics.length

theorem goes_refl (s : Session) : s.Goes 0 s :=
  ⟨rfl, rfl, (Int.add_zero _).symm, List.suffix_refl _, List.prefix_rfl, List.prefix_rfl,
    Nat.add_comm _ _⟩

theorem Goes.trans (h : s.Goes m middle) (h' : middle.Goes n after) : s.Goes (m + n) after := by
  have hgrowth := h.growth
  have hgrowth' := h'.growth
  constructor
  · rw [h'.source, h.source]
  · rw [h'.levels, h.levels]
  · rw [h'.depth, h.depth, Int.add_assoc]
  · exact h'.rest.trans h.rest
  · exact h.diagnostics.trans h'.diagnostics
  · exact h.invalidTrees.trans h'.invalidTrees
  · omega

theorem goes_enter (s : Session) : s.Goes 1 s.enter :=
  { s.goes_refl with depth := rfl }

theorem goes_leave (s : Session) : s.Goes (-1) s.leave :=
  { s.goes_refl with depth := rfl }

theorem goes_skip (s : Session) : s.Goes 0 s.skip :=
  { s.goes_refl with rest := List.tail_suffix _ }

theorem goes_record (s : Session) (d : Diagnostic) (t : Tree) : s.Goes 0 (s.record d t) := by
  refine { s.goes_refl with
    diagnostics := List.prefix_append _ _, invalidTrees := List.prefix_append _ _, growth := ?_ }
  simp only [record, List.length_append, List.length_singleton]
  omega

/-- What was recorded after a mark is all that a cut drops. -/
theorem Goes.cut_mark (h : s.Goes n after) :
    after.cut s.mark = { after with diagnostics := s.diagnostics, invalidTrees := s.invalidTrees } := by
  rw [cut, mark, ← List.prefix_iff_eq_take.mp h.diagnostics,
    ← List.prefix_iff_eq_take.mp h.invalidTrees]

/-- A recovery leaves what stood there when the failed production began, and one error more. -/
theorem Goes.recover (h : s.Goes 0 after) (extent : Extent) (d : Diagnostic) :
    s.Goes 0 (after.recover extent s.rest s.mark d).2 := by
  let resumed := extent.resume (s.rest.take (s.rest.length - after.rest.length)) after.rest
  have hresumed : s.Goes 0 { after with rest := resumed } :=
    { h with rest := (extent.resumes.suffix _ _).trans h.rest }
  have hcut : s.Goes 0 ({ after with rest := resumed }.cut s.mark) := by
    rw [hresumed.cut_mark]
    exact { hresumed with
      diagnostics := List.prefix_rfl, invalidTrees := List.prefix_rfl,
      growth := Nat.add_comm _ _ }
  exact hcut.trans (goes_record _ _ _)

/-- The levels that an ending has not given back: where the limit was met, the one too many. -/
def excess : Except Refusal α → Int
  | .ok _ => 0
  | .error (.problem _) => 0
  | .error (.tooDeep _) => 1

theorem excess_error {β : Type} (e : Refusal) :
    excess (.error e : Except Refusal α) = excess (.error e : Except Refusal β) := by
  cases e <;> rfl

/-- A level of its own is given back unless it was one too many. -/
theorem goes_nest {inner : Session → Ending α}
    (h : ∀ s : Session, s.Goes (excess (inner s).1) (inner s).2) (s : Session) :
    s.Goes (excess (s.nest inner).1) (s.nest inner).2 := by
  rw [nest]
  split
  · exact s.goes_enter
  · have hleft := ((s.goes_enter).trans (h s.enter)).trans (goes_leave _)
    have hcount : 1 + excess (inner s.enter).1 + -1 = excess (inner s.enter).1 := by omega
    exact hcount ▸ hleft

end Session

namespace Routine

open ShaderSyntax.Session

variable {call : {β : Type} → Production β → Session → Ending β}

/-- Where the productions that nest keep what a run keeps, all routines do. -/
theorem run_goes (h : ∀ {β : Type} (p : Production β) (s : Session),
      s.Goes (excess (call p s).1) (call p s).2)
    {α : Type} (r : Routine α) (s : Session) :
    s.Goes (excess (r.run call s).1) (r.run call s).2 := by
  induction r generalizing s with
  | value a => exact s.goes_refl
  | andThen first next ihfirst ihnext =>
    have hfirst := ihfirst s
    rw [run]
    split
    · next a after heq =>
      rw [heq] at hfirst
      have hboth : s.Goes (0 + _) _ := hfirst.trans (ihnext a after)
      rwa [Int.zero_add] at hboth
    · next e after heq =>
      rw [heq] at hfirst
      exact excess_error e ▸ hfirst
  | look next ih => exact ih s.rest s
  | skip => exact s.goes_skip
  | note problem node left => exact s.goes_record _ _
  | fail problem => exact s.goes_refl
  | nested p => exact h p s
  | recovered extent error inner ih =>
    have hinner := ih s
    rw [run]
    -- Only a problem is recovered from. The limit passes through, and nothing is cut on its way.
    split
    · next d after heq =>
      rw [heq] at hinner
      exact hinner.recover extent d
    · next heq =>
      rw [heq] at hinner
      exact hinner

end Routine

namespace Production

open ShaderSyntax.Session

theorem run_goes (below : Nat) {α : Type} (p : Production α) (s : Session) :
    s.Goes (excess (p.run below s).1) (p.run below s).2 := by
  induction below generalizing α s with
  | zero =>
    refine goes_nest ?_ s
    exact goes_enter
  | succ below ih => exact goes_nest (Routine.run_goes ih p.body) s

end Production

namespace Session

variable {α : Type} {s after : Session}

/-- Steps that give back every level leave as many free. -/
theorem Goes.free (h : s.Goes 0 after) : after.free = s.free := by
  rw [Session.free, Session.free, h.levels, h.depth, Int.add_zero]

theorem run_goes (s : Session) (r : Routine α) : s.Goes (excess (s.run r).1) (s.run r).2 :=
  Routine.run_goes (Production.run_goes s.free) r s

/-! ### The steps of a run

A run is put together from the runs of its parts, which start with the levels that are free then. So
the number that a production is run with bounds nothing: it is always the number of free levels. -/

theorem run_andThen {β : Type} (s : Session) (r : Routine α) (f : α → Routine β) :
    s.run (.andThen r f) =
      match s.run r with
      | (.ok a, after) => after.run (f a)
      | (.error e, after) => (.error e, after) := by
  have hgoes := s.run_goes r
  simp only [run, Routine.run] at hgoes ⊢
  cases hr : r.run (Production.run s.free) s with
  | mk result after =>
    rw [hr] at hgoes
    cases result with
    | error e => rfl
    | ok a =>
      have hfree : after.free = s.free := Goes.free hgoes
      simp only [hfree]

/-- Exactly where no level is free, one more is too many. -/
theorem enter_exceeds_iff (s : Session) : (s.enter.levels : Int) < s.enter.depth ↔ s.free = 0 := by
  simp only [enter, free, Int.toNat_eq_zero]
  omega

theorem free_enter {below : Nat} (h : s.free = below + 1) : s.enter.free = below := by
  simp only [enter, free] at h ⊢
  omega

theorem nest_of_none_free (h : s.free = 0) (inner : Session → Ending α) :
    s.nest inner = (.error s.enter.limit, s.enter) := by
  rw [nest, if_pos ((enter_exceeds_iff s).mpr h)]

theorem nest_of_some_free {below : Nat} (h : s.free = below + 1) (inner : Session → Ending α) :
    s.nest inner = ((inner s.enter).1, (inner s.enter).2.leave) := by
  have hallowed : ¬(s.enter.levels : Int) < s.enter.depth := by
    rw [enter_exceeds_iff, h]
    exact Nat.succ_ne_zero below
  rw [nest, if_neg hallowed]

theorem run_nested (s : Session) (p : Production α) :
    s.run (.nested p) = s.nest fun s => s.run p.body := by
  have hrun : s.run (.nested p) = p.run s.free s := rfl
  rw [hrun]
  cases hfree : s.free with
  | zero => rw [nest_of_none_free hfree, Production.run, nest_of_none_free hfree]
  | succ below =>
    rw [nest_of_some_free hfree, Production.run, nest_of_some_free hfree, run, free_enter hfree]

theorem run_recovered (s : Session) (extent : Extent) (error : Skipped → α) (r : Routine α) :
    s.run (.recovered extent error r) =
      match s.run r with
      | (.error (.problem d), after) =>
        let (skipped, after) := after.recover extent s.rest s.mark d
        (.ok (error skipped), after)
      | (result, after) => (result, after) := rfl

/-! ### What parsers say of runs -/

/-- The session after some findings, with so much left. -/
def advance (s : Session) (rest : List Lexeme) (found : List Finding) : Session :=
  { s with
    rest
    diagnostics := s.diagnostics ++ s.source.diagnostics found
    invalidTrees := s.invalidTrees ++ s.source.invalidTrees found }

theorem advance_nil (s : Session) (rest : List Lexeme) : s.advance rest [] = { s with rest } := by
  simp [advance, Source.diagnostics, Source.invalidTrees]

theorem advance_advance (s : Session) (rest rest' : List Lexeme) (found found' : List Finding) :
    (s.advance rest found).advance rest' found' = s.advance rest' (found ++ found') := by
  simp [advance, Source.diagnostics, Source.invalidTrees]

/-- The ending that an outcome tells. Where the limit was met, the level too many is counted. -/
def told (s : Session) : Outcome α → Ending α
  | .done a rest found => (.ok a, s.advance rest found)
  | .failed problem rest found =>
    (.error (.problem (s.source.diagnose problem rest.length)), s.advance rest found)
  | .tooDeep rest found =>
    (.error (.tooDeep (s.source.tooDeep s.levels rest.length)), (s.advance rest found).enter)

theorem told_advance (s : Session) (rest : List Lexeme) (found : List Finding) (o : Outcome α) :
    (s.advance rest found).told o = s.told (o.after found) := by
  cases o with
  | done a rest' found' => simp only [told, Outcome.after, advance_advance]
  | failed problem rest' found' =>
    simp only [told, Outcome.after, advance_advance]
    rfl
  | tooDeep rest' found' =>
    simp only [told, Outcome.after, advance_advance]
    rfl

/-- A level of its own leaves no trace in what is told. -/
theorem told_enter (s : Session) (o : Outcome α) :
    ((s.enter.told o).1, (s.enter.told o).2.leave) = s.told o := by
  have hdepth : ∀ n : Int, n + 1 - 1 = n := fun n => Int.add_sub_cancel n 1
  cases o <;> simp only [told, advance, enter, leave, hdepth]

/-- The error that a recovery records is the finding that stands for it. -/
theorem recover_advance (s : Session) (extent : Extent) (error : Skipped → α) {p : Parser α}
    {rest : List Lexeme} {problem : Problem} {found : List Finding}
    (h : p s.rest = .failed problem rest found) :
    ((.ok (error ((s.advance rest found).recover extent s.rest s.mark
        (s.source.diagnose problem rest.length)).1),
      ((s.advance rest found).recover extent s.rest s.mark
        (s.source.diagnose problem rest.length)).2) : Ending α) =
      s.told (Parser.recovering extent.resume error p s.rest) := by
  simp [recover, advance, cut, mark, record, told, Parser.recovering, h, Source.diagnostics,
    Source.invalidTrees, Source.diagnose]

/-- A run gives and leaves what the parser of its routine says, on the levels that are free. -/
theorem run_eq (s : Session) (r : Routine α) :
    s.run r = s.told (r.parse (Production.parse s.free) s.rest) := by
  -- The outer induction is on the levels that are free, the inner one on the steps between two of
  -- them. In these the count stands still, so `hfree` holds again for the next step.
  induction hfree : s.free using Nat.strongRecOn generalizing α s with
  | ind free ih =>
    induction r generalizing s with
    | value a => exact (congrArg _ (s.advance_nil s.rest)).symm
    | andThen first next ihfirst ihnext =>
      have hparse : (Routine.andThen first next).parse (Production.parse free) s.rest =
          (first.parse (Production.parse free)).andThen
            (fun a => (next a).parse (Production.parse free)) s.rest := rfl
      rw [run_andThen, ihfirst s hfree, hparse, Parser.andThen]
      cases first.parse (Production.parse free) s.rest with
      | done a rest found =>
        exact (ihnext a (s.advance rest found) hfree).trans (s.told_advance _ _ _)
      | failed problem rest found => rfl
      | tooDeep rest found => rfl
    | look next ihnext => exact ihnext s.rest s hfree
    | skip => exact (congrArg _ (s.advance_nil s.rest.tail)).symm
    | note problem node left => rfl
    | fail problem => exact (congrArg _ (s.advance_nil s.rest)).symm
    | nested p =>
      rw [run_nested]
      cases free with
      | zero =>
        rw [nest_of_none_free hfree, Routine.parse_nested, Production.parse, Parser.tooDeep, told,
          advance_nil]
        rfl
      | succ below =>
        have hinner := ih below (Nat.lt_succ_self below) s.enter p.body (free_enter hfree)
        rw [nest_of_some_free hfree, hinner]
        exact s.told_enter (p.body.parse (Production.parse below) s.rest)
    | recovered extent error inner ihinner =>
      have hparse : (Routine.recovered extent error inner).parse (Production.parse free) s.rest =
          Parser.recovering extent.resume error (inner.parse (Production.parse free)) s.rest := rfl
      rw [run_recovered, ihinner s hfree, hparse]
      cases hinner : inner.parse (Production.parse free) s.rest with
      | done a rest found =>
        rw [Parser.recovering, hinner]
        rfl
      | failed problem rest found => exact s.recover_advance extent error hinner
      | tooDeep rest found =>
        rw [Parser.recovering, hinner]
        rfl

end Session

end ShaderSyntax
