import ShaderSyntax.Proofs.Reading

/-!
# What a parser notes

A finding pairs a problem with the node that stands for it. A word outside its vocabulary is a leaf,
and the problem is met at that very leaf. Any other problem is met inside the lexemes that were
skipped for it, or right after them. This file states that contract, `Parser.Notes`, and proves one
rule for each way of building a parser. A production that fails must fail with a problem of the
second kind, since its failure may become a finding of a parser around it.
-/
namespace ShaderSyntax

/-- The node of the finding is one that its problem leads to, at the place where it was met. -/
inductive Finding.Fits : Finding → Prop
  /-- The problem is met at the word itself. -/
  | word (problem : Problem) (k : Kind) (l : Lexeme) (left : Nat)
      (hp : problem.kind = .invalidVocabulary) (hk : k.isInvalid = true) (hne : k ≠ .error) :
      Fits (.single problem (.leaf k l) left)
  /-- The problem is met at one of the lexemes skipped, or at the one after them. -/
  | skipped (problem : Problem) (lexemes : List Lexeme) (reached nodeLeft left : Nat)
      (hp : problem.kind = .structural) (hle : left ≤ nodeLeft)
      (hreach : nodeLeft ≤ left + lexemes.length) :
      Fits ⟨problem, .error ⟨lexemes, reached, problem⟩, nodeLeft, left⟩

variable {α β : Type}

/-- The outcome of a run on `ts`: it leaves no more than there was, its findings fit, and if it
failed, then not for a word outside its vocabulary. -/
structure Outcome.Notes (ts : List Lexeme) (o : Outcome α) : Prop where
  length_le : o.rest.length ≤ ts.length
  fits : ∀ f ∈ o.findings, f.Fits
  structural : ∀ problem rest found, o = .failed problem rest found → problem.kind = .structural

namespace Outcome.Notes

variable {ts mid rest : List Lexeme} {o : Outcome α}

theorem of_done {a : α} (h : rest.length ≤ ts.length) :
    (Outcome.done a rest []).Notes ts :=
  ⟨h, by simp [findings], by simp⟩

theorem of_failed {problem : Problem} (hp : problem.kind = .structural)
    (h : rest.length ≤ ts.length) : (Outcome.failed problem rest [] : Outcome α).Notes ts := by
  refine ⟨h, by simp [findings], ?_⟩
  intro problem' rest' found' he
  cases he
  exact hp

/-- A run with one finding. -/
theorem of_finding {a : α} {f : Finding} (hf : f.Fits) (h : rest.length ≤ ts.length) :
    (Outcome.done a rest [f]).Notes ts := by
  refine ⟨h, ?_, by simp⟩
  intro g hg
  rw [List.mem_singleton.mp hg]
  exact hf

/-- A run may be seen from an earlier place, with findings that were made before it. -/
theorem after {first : List Finding} (h : o.Notes mid) (hlen : mid.length ≤ ts.length)
    (hfirst : ∀ f ∈ first, f.Fits) : (o.after first).Notes ts := by
  have hfits : ∀ f ∈ first ++ o.findings, f.Fits := by
    intro f hf
    rcases List.mem_append.mp hf with hf | hf
    · exact hfirst f hf
    · exact h.fits f hf
  have hle := Nat.le_trans h.length_le hlen
  cases o with
  | done a rest found => exact ⟨hle, hfits, by simp [Outcome.after]⟩
  | failed problem rest found =>
    refine ⟨hle, hfits, ?_⟩
    intro problem' rest' found' he
    cases he
    exact h.structural problem rest found rfl
  | tooDeep rest found => exact ⟨hle, hfits, by simp [Outcome.after]⟩

/-- One lexeme before the run. -/
theorem cons (l : Lexeme) (h : o.Notes ts) : o.Notes (l :: ts) := by
  refine ⟨Nat.le_trans h.length_le ?_, h.fits, h.structural⟩
  simp

end Outcome.Notes

/-- On every input the findings of the parser fit, and it fails with structural problems only. -/
def Parser.Notes (p : Parser α) : Prop :=
  ∀ ts, (p ts).Notes ts

namespace Parser

variable {p : Parser α}

theorem notes_value {a : α} : (value a).Notes :=
  fun _ => .of_done (Nat.le_refl _)

theorem notes_fail {problem : Option Lexeme → Problem}
    (h : ∀ got, (problem got).kind = .structural) : (fail problem : Parser α).Notes :=
  fun ts => .of_failed (h ts.head?) (Nat.le_refl _)

theorem notes_tooDeep : (tooDeep : Parser α).Notes :=
  fun _ => ⟨Nat.le_refl _, by simp [tooDeep, Outcome.findings], by simp [tooDeep]⟩

theorem notes_skip : skip.Notes :=
  fun ts => .of_done (by rw [List.length_tail]; omega)

theorem notes_require (place : Place) : (require place).Notes := by
  intro ts
  rcases require_cases place ts with ⟨rest, rfl, hr⟩ | hr
  · rw [hr]
    exact .of_done (by simp)
  · rw [hr]
    exact .of_failed rfl (Nat.le_refl _)

theorem notes_qualifier (cls : WordClass) : (qualifier cls).Notes := by
  intro ts
  unfold qualifier
  split
  · split
    · exact .of_done (by simp)
    · exact .of_done (Nat.le_refl _)
  · exact .of_done (Nat.le_refl _)

theorem Notes.andThen {f : α → Parser β} (h : p.Notes) (hf : ∀ a, (f a).Notes) :
    (p.andThen f).Notes := by
  intro ts
  have hp := h ts
  unfold Parser.andThen
  cases ho : p ts with
  | done a mid first =>
    rw [ho] at hp
    exact (hf a mid).after hp.length_le hp.fits
  | failed problem rest first =>
    rw [ho] at hp
    refine ⟨hp.length_le, hp.fits, ?_⟩
    intro problem' rest' found' he
    cases he
    exact hp.structural problem rest first rfl
  | tooDeep rest first =>
    rw [ho] at hp
    exact ⟨hp.length_le, hp.fits, by simp⟩

theorem Notes.onPunct {yes no : Parser α} (q : Punct) (hyes : yes.Notes) (hno : no.Notes) :
    (onPunct q yes no).Notes := by
  intro ts
  unfold Parser.onPunct
  split
  · split
    · exact (hyes _).cons _
    · exact hno _
  · exact hno _

theorem Notes.onKeyword {yes no : Parser α} (k : Keyword) (hyes : yes.Notes) (hno : no.Notes) :
    (onKeyword k yes no).Notes := by
  intro ts
  unfold Parser.onKeyword
  split
  · split
    · exact (hyes _).cons _
    · exact hno _
  · exact hno _

theorem Notes.inRounds {q : Nat → Parser α} (h : ∀ rounds, (q rounds).Notes) :
    (inRounds q).Notes :=
  fun ts => h ts.length ts

theorem Notes.manyWithin {item : Parser α} (stop : Lexeme → Bool) (h : item.Notes)
    (rounds : Nat) : (manyWithin stop item rounds).Notes := by
  induction rounds with
  | zero => exact notes_value
  | succ rounds ih =>
    intro ts
    unfold Parser.manyWithin
    split
    · exact .of_done (Nat.le_refl _)
    · split
      · exact .of_done (Nat.le_refl _)
      · exact h.andThen (fun _ => ih.andThen fun _ => notes_value) _

theorem Notes.manyUntil {item : Parser α} (stop : Lexeme → Bool) (h : item.Notes) :
    (manyUntil stop item).Notes :=
  .inRounds (h.manyWithin stop)

theorem Notes.moreWithin {item : Parser α} (h : item.Notes) (rounds : Nat) :
    (moreWithin item rounds).Notes := by
  induction rounds with
  | zero => exact notes_value
  | succ rounds ih =>
    apply Notes.onPunct
    · exact h.andThen fun _ => ih.andThen fun _ => notes_value
    · exact notes_value

theorem Notes.separated {item : Parser α} (h : item.Notes) : (separated item).Notes :=
  h.andThen fun _ => (Notes.inRounds h.moreWithin).andThen fun _ => notes_value

theorem Notes.growWithin {step : α → Lexeme → Option (Parser α)}
    (h : ∀ a l q, step a l = some q → q.Notes) (rounds : Nat) (a : α) :
    (growWithin step rounds a).Notes := by
  induction rounds generalizing a with
  | zero => exact notes_value
  | succ rounds ih =>
    intro ts
    unfold Parser.growWithin
    split
    · exact .of_done (Nat.le_refl _)
    · next l rest =>
      split
      · exact .of_done (Nat.le_refl _)
      · next q hq => exact ((h a l q hq).andThen ih rest).cons l

theorem Notes.grow {step : α → Lexeme → Option (Parser α)}
    (h : ∀ a l q, step a l = some q → q.Notes) (a : α) : (grow step a).Notes :=
  .inRounds fun rounds => .growWithin h rounds a

/-- A failure was met after the lexemes that the production took, and before those where parsing
resumes. -/
theorem Notes.recovering {resume : List Lexeme → List Lexeme → List Lexeme}
    (hr : Recovery.Resumes resume) (error : Skipped → α) (h : p.Notes) :
    (recovering resume error p).Notes := by
  intro ts
  have hp := h ts
  unfold Parser.recovering
  cases ho : p ts with
  | done a rest found =>
    rw [ho] at hp
    exact hp
  | tooDeep rest found =>
    rw [ho] at hp
    exact ⟨hp.length_le, hp.fits, by simp⟩
  | failed problem rest found =>
    rw [ho] at hp
    have hrest : rest.length ≤ ts.length := hp.length_le
    have hafter := (hr.suffix (ts.take (ts.length - rest.length)) rest).length_le
    have hkind := hp.structural problem rest found rfl
    dsimp only
    refine .of_finding (.skipped _ _ _ _ _ hkind hrest ?_) (by omega)
    rw [List.length_take]
    omega

end Parser

end ShaderSyntax
