import ShaderSyntax.Grammar.Specifier
import ShaderSyntax.Proofs.Reading

/-!
# More levels

A run that does not meet the limit on nesting is repeated, lexeme by lexeme, by a run with more
levels. A run that does meet it was given enough lexemes to nest so deep. This file states both as
one contract between two parsers, `Parser.Deepens`, and proves one rule for each way of building a
parser. The second half needs no count of the levels in use: it only asks how many lexemes were left
where a parser started.
-/
namespace ShaderSyntax

variable {α β : Type}

/-- How a run on `ts` compares with a run that has more levels. If it met the limit, then there were
at least `need` lexemes. If not, the other run is the same, and none of them left more than there
was. -/
def Outcome.Repeated (need : Nat) (ts : List Lexeme) (o o' : Outcome α) : Prop :=
  match o with
  | .tooDeep _ _ => need ≤ ts.length
  | .done _ rest _ => o' = o ∧ rest.length ≤ ts.length
  | .failed _ rest _ => o' = o ∧ rest.length ≤ ts.length

namespace Outcome.Repeated

variable {need : Nat} {ts mid : List Lexeme} {o o' : Outcome α}

theorem mono {less : Nat} (hl : less ≤ need) (h : o.Repeated need ts o') :
    o.Repeated less ts o' := by
  cases o with
  | done a rest found => exact h
  | failed problem rest found => exact h
  | tooDeep rest found =>
    have hn : need ≤ ts.length := h
    change less ≤ ts.length
    omega

/-- A run may be seen from an earlier place, where there were more lexemes. -/
theorem earlier {more : Nat} (h : o.Repeated need mid o') (hlen : mid.length ≤ ts.length)
    (hmore : need ≤ mid.length → more ≤ ts.length) : o.Repeated more ts o' := by
  cases o with
  | done a rest found => exact ⟨h.1, Nat.le_trans h.2 hlen⟩
  | failed problem rest found => exact ⟨h.1, Nat.le_trans h.2 hlen⟩
  | tooDeep rest found => exact hmore h

/-- One lexeme before the run. -/
theorem cons (l : Lexeme) (h : o.Repeated (need - 1) ts o') : o.Repeated need (l :: ts) o' := by
  apply h.earlier
  · simp only [List.length_cons]
    omega
  · simp only [List.length_cons]
    omega

theorem after (first : List Finding) (h : o.Repeated need ts o') :
    (o.after first).Repeated need ts (o'.after first) := by
  cases o with
  | done a rest found => exact ⟨by rw [h.1], h.2⟩
  | failed problem rest found => exact ⟨by rw [h.1], h.2⟩
  | tooDeep rest found => exact h

end Outcome.Repeated

/-- The second parser goes deeper than the first and is the same elsewhere, and the first meets the
limit where there are at least `need` lexemes only. -/
def Parser.Deepens (need : Nat) (p q : Parser α) : Prop :=
  ∀ ts, (p ts).Repeated need ts (q ts)

namespace Parser

variable {need : Nat} {p p' : Parser α}

theorem Deepens.mono {less : Nat} (hl : less ≤ need) (h : Deepens need p p') : Deepens less p p' :=
  fun ts => (h ts).mono hl

theorem deepens_value {a : α} : Deepens need (value a) (value a) :=
  fun _ => ⟨rfl, Nat.le_refl _⟩

theorem deepens_fail (problem : Option Lexeme → Problem) :
    Deepens need (fail problem : Parser α) (fail problem) :=
  fun _ => ⟨rfl, Nat.le_refl _⟩

/-- At the limit nothing is left to compare. -/
theorem deepens_tooDeep : Deepens 0 (tooDeep : Parser α) p :=
  fun ts => Nat.zero_le ts.length

theorem deepens_require (place : Place) : Deepens need (require place) (require place) := by
  intro ts
  rcases require_cases place ts with ⟨rest, rfl, hr⟩ | hr
  · rw [hr]
    exact ⟨rfl, by simp⟩
  · rw [hr]
    exact ⟨rfl, Nat.le_refl _⟩

theorem deepens_qualifier (cls : WordClass) : Deepens need (qualifier cls) (qualifier cls) := by
  intro ts
  unfold qualifier
  split
  · next w rest =>
    split
    · exact ⟨rfl, by simp⟩
    · exact ⟨rfl, Nat.le_refl _⟩
  · exact ⟨rfl, Nat.le_refl _⟩

theorem Deepens.andThen {f f' : α → Parser β} (h : Deepens need p p')
    (hf : ∀ a, Deepens need (f a) (f' a)) : Deepens need (p.andThen f) (p'.andThen f') := by
  intro ts
  have hp := h ts
  unfold Parser.andThen
  cases ho : p ts with
  | done a mid first =>
    rw [ho] at hp
    obtain ⟨he, hlen⟩ := hp
    rw [he]
    apply ((hf a mid).after first).earlier hlen
    omega
  | failed problem rest first =>
    rw [ho] at hp
    exact ⟨by rw [hp.1], hp.2⟩
  | tooDeep rest first =>
    rw [ho] at hp
    exact hp

/-- What runs after a required mark has one lexeme less. -/
theorem Deepens.afterRequire {q q' : Parser β} (place : Place) (h : Deepens (need - 1) q q') :
    Deepens need ((require place).andThen fun _ => q) ((require place).andThen fun _ => q') := by
  intro ts
  unfold Parser.andThen
  rcases require_cases place ts with ⟨rest, rfl, hr⟩ | hr
  · rw [hr]
    exact ((h rest).after []).cons _
  · rw [hr]
    exact ⟨rfl, Nat.le_refl _⟩

theorem Deepens.onPunct {yes yes' no no' : Parser α} (q : Punct)
    (hyes : Deepens (need - 1) yes yes') (hno : Deepens need no no') :
    Deepens need (onPunct q yes no) (onPunct q yes' no') := by
  intro ts
  unfold Parser.onPunct
  split
  · next r rest =>
    split
    · exact (hyes rest).cons _
    · exact hno _
  · exact hno _

theorem Deepens.onKeyword {yes yes' no no' : Parser α} (k : Keyword)
    (hyes : Deepens (need - 1) yes yes') (hno : Deepens need no no') :
    Deepens need (onKeyword k yes no) (onKeyword k yes' no') := by
  intro ts
  unfold Parser.onKeyword
  split
  · next w rest =>
    split
    · exact (hyes rest).cons _
    · exact hno _
  · exact hno _

theorem Deepens.inRounds {q q' : Nat → Parser α}
    (h : ∀ rounds, Deepens need (q rounds) (q' rounds)) :
    Deepens need (inRounds q) (inRounds q') :=
  fun ts => h ts.length ts

theorem Deepens.manyWithin {item item' : Parser α} (stop : Lexeme → Bool)
    (h : Deepens need item item') (rounds : Nat) :
    Deepens need (manyWithin stop item rounds) (manyWithin stop item' rounds) := by
  induction rounds with
  | zero => exact deepens_value
  | succ rounds ih =>
    intro ts
    unfold Parser.manyWithin
    split
    · exact ⟨rfl, Nat.le_refl _⟩
    · split
      · exact ⟨rfl, Nat.le_refl _⟩
      · exact h.andThen (fun _ => ih.andThen fun _ => deepens_value) _

theorem Deepens.manyUntil {item item' : Parser α} (stop : Lexeme → Bool)
    (h : Deepens need item item') :
    Deepens need (manyUntil stop item) (manyUntil stop item') :=
  .inRounds (h.manyWithin stop)

theorem Deepens.moreWithin {item item' : Parser α} (h : Deepens need item item') (rounds : Nat) :
    Deepens need (moreWithin item rounds) (moreWithin item' rounds) := by
  induction rounds with
  | zero => exact deepens_value
  | succ rounds ih =>
    apply Deepens.onPunct
    · apply Deepens.mono (Nat.sub_le need 1)
      exact h.andThen fun _ => ih.andThen fun _ => deepens_value
    · exact deepens_value

theorem Deepens.separated {item item' : Parser α} (h : Deepens need item item') :
    Deepens need (separated item) (separated item') :=
  h.andThen fun _ => (Deepens.inRounds h.moreWithin).andThen fun _ => deepens_value

theorem Deepens.growWithin {step step' : α → Lexeme → Option (Parser α)}
    (h : ∀ a l, Option.Rel (Deepens (need - 1)) (step a l) (step' a l)) (rounds : Nat) (a : α) :
    Deepens need (growWithin step rounds a) (growWithin step' rounds a) := by
  induction rounds generalizing a with
  | zero => exact deepens_value
  | succ rounds ih =>
    intro ts
    unfold Parser.growWithin
    cases ts with
    | nil => exact ⟨rfl, Nat.le_refl _⟩
    | cons l rest =>
      have hl := h a l
      dsimp only
      generalize step a l = q, step' a l = q' at hl
      cases hl with
      | none => exact ⟨rfl, Nat.le_refl _⟩
      | some hq => exact (hq.andThen (fun b => (ih b).mono (Nat.sub_le need 1)) rest).cons l

theorem Deepens.grow {step step' : α → Lexeme → Option (Parser α)}
    (h : ∀ a l, Option.Rel (Deepens (need - 1)) (step a l) (step' a l)) (a : α) :
    Deepens need (grow step a) (grow step' a) :=
  .inRounds fun rounds => .growWithin h rounds a

theorem Deepens.recovering {resume : List Lexeme → List Lexeme → List Lexeme}
    (hr : Recovery.Resumes resume) (error : Skipped → α) (h : Deepens need p p') :
    Deepens need (recovering resume error p) (recovering resume error p') := by
  intro ts
  have hp := h ts
  unfold Parser.recovering
  cases ho : p ts with
  | done a rest found =>
    rw [ho] at hp
    rw [hp.1]
    exact ⟨rfl, hp.2⟩
  | failed problem rest found =>
    rw [ho] at hp
    rw [hp.1]
    refine ⟨rfl, Nat.le_trans ?_ hp.2⟩
    exact (hr.suffix _ rest).length_le
  | tooDeep rest found =>
    rw [ho] at hp
    exact hp

end Parser

end ShaderSyntax
