import ShaderSyntax.Grammar.Recovery
import ShaderSyntax.Proofs.Reading

/-!
# What a parser yields

A fact about the values of a parser, and about what stands after them: it holds whenever the parser
is done. One rule for each way of building a parser.
-/
namespace ShaderSyntax

variable {α β : Type}

/-- If the run is done, its value and what it left are in the relation. -/
def Outcome.Yields (o : Outcome α) (Q : α → List Lexeme → Prop) : Prop :=
  ∀ a rest found, o = .done a rest found → Q a rest

namespace Outcome

variable {Q R : α → List Lexeme → Prop} {o : Outcome α}

theorem yields_done {a : α} {rest : List Lexeme} {found : List Finding} (h : Q a rest) :
    (Outcome.done a rest found).Yields Q := by
  intro a' rest' found' he
  cases he
  exact h

theorem yields_failed {problem : Problem} {rest : List Lexeme} {found : List Finding} :
    (Outcome.failed problem rest found : Outcome α).Yields Q := by
  intro a rest' found' he
  cases he

theorem yields_tooDeep {rest : List Lexeme} {found : List Finding} :
    (Outcome.tooDeep rest found : Outcome α).Yields Q := by
  intro a rest' found' he
  cases he

theorem Yields.mono (h : o.Yields Q) (hqr : ∀ a rest, Q a rest → R a rest) : o.Yields R :=
  fun a rest found he => hqr a rest (h a rest found he)

theorem Yields.after (h : o.Yields Q) (first : List Finding) : (o.after first).Yields Q := by
  cases o with
  | done a rest found => exact yields_done (h a rest found rfl)
  | failed problem rest found => exact yields_failed
  | tooDeep rest found => exact yields_tooDeep

theorem Yields.bind {p : Parser α} {f : α → Parser β} {S : β → List Lexeme → Prop}
    {ts : List Lexeme} (h : (p ts).Yields Q) (hf : ∀ a mid, Q a mid → (f a mid).Yields S) :
    (p.andThen f ts).Yields S := by
  unfold Parser.andThen
  cases ho : p ts with
  | done a mid first => exact (hf a mid (h a mid first ho)).after first
  | failed problem rest found => exact yields_failed
  | tooDeep rest found => exact yields_tooDeep

end Outcome

open Outcome

/-- On every input the values of the parser are in the relation. -/
def Parser.Yields (p : Parser α) (Q : α → List Lexeme → Prop) : Prop :=
  ∀ ts, (p ts).Yields Q

namespace Parser

variable {p : Parser α} {Q R : α → List Lexeme → Prop} {P : α → Prop}

theorem Yields.mono (h : p.Yields Q) (hqr : ∀ a rest, Q a rest → R a rest) : p.Yields R :=
  fun ts => (h ts).mono hqr

/-- Nothing is known of the values, and nothing is needed. -/
theorem yields_any (p : Parser α) : p.Yields fun _ _ => True :=
  fun _ _ _ _ _ => trivial

theorem Yields.andThen {f : α → Parser β} {S : β → List Lexeme → Prop} (h : p.Yields Q)
    (hf : ∀ a mid, Q a mid → (f a mid).Yields S) : (p.andThen f).Yields S :=
  fun ts => (h ts).bind hf

/-- A parser whose value does not matter for what comes after it. -/
theorem yields_after (p : Parser α) {f : α → Parser β} {S : β → List Lexeme → Prop}
    (hf : ∀ a, (f a).Yields S) : (p.andThen f).Yields S :=
  (yields_any p).andThen fun a mid _ => hf a mid

theorem yields_value {a : α} (h : ∀ rest, Q a rest) : (value a).Yields Q :=
  fun ts => yields_done (h ts)

theorem yields_fail (problem : Option Lexeme → Problem) : (fail problem : Parser α).Yields Q :=
  fun _ => yields_failed

theorem yields_limit : (tooDeep : Parser α).Yields Q :=
  fun _ => yields_tooDeep

theorem Yields.onPunct {yes no : Parser α} (q : Punct) (hyes : yes.Yields Q) (hno : no.Yields Q) :
    (onPunct q yes no).Yields Q := by
  intro ts
  unfold Parser.onPunct
  split
  · split
    · exact hyes _
    · exact hno _
  · exact hno _

/-- What stands after a keyword that was looked for and not found is something else. -/
theorem yields_onKeyword {yes no : Parser α} {k : Keyword} {ts : List Lexeme}
    (hyes : ∀ rest, ts = .word k.spelling :: rest → (yes rest).Yields Q)
    (hno : ts.head? ≠ some (.word k.spelling) → (no ts).Yields Q) :
    (onKeyword k yes no ts).Yields Q := by
  unfold Parser.onKeyword
  split
  · next w rest =>
    split
    · next hw => exact hyes rest (by rw [hw])
    · next hw => exact hno (by simpa using hw)
  · next hts =>
    apply hno
    intro hh
    obtain ⟨rest, rfl⟩ := List.head?_eq_some_iff.mp hh
    exact hts k.spelling rest rfl

theorem Yields.onKeyword {yes no : Parser α} (k : Keyword) (hyes : yes.Yields Q)
    (hno : no.Yields Q) : (onKeyword k yes no).Yields Q :=
  fun ts => yields_onKeyword (fun rest _ => hyes rest) fun _ => hno ts

theorem Yields.manyWithin {item : Parser α} (stop : Lexeme → Bool)
    (h : item.Yields fun a _ => P a) (rounds : Nat) :
    (manyWithin stop item rounds).Yields fun as _ => ∀ a ∈ as, P a := by
  induction rounds with
  | zero => exact yields_value fun _ => by simp
  | succ rounds ih =>
    intro ts
    unfold Parser.manyWithin
    split
    · exact yields_done (by simp)
    · split
      · exact yields_done (by simp)
      · refine (h _).bind ?_
        intro a mid ha
        refine (ih mid).bind ?_
        intro as rest has
        exact yields_done (by simpa using ⟨ha, has⟩)

theorem Yields.manyUntil {item : Parser α} (stop : Lexeme → Bool)
    (h : item.Yields fun a _ => P a) :
    (manyUntil stop item).Yields fun as _ => ∀ a ∈ as, P a :=
  fun ts => h.manyWithin stop ts.length ts

/-- Where an item may start, there is one, or the input is at its end. -/
theorem manyUntil_ne_nil {stop : Lexeme → Bool} {item : Parser α} {ts rest : List Lexeme}
    {as : List α} {found : List Finding} (hstop : ∀ l ∈ ts.head?, stop l = false)
    (h : manyUntil stop item ts = .done as rest found) : as ≠ [] ∨ rest = [] := by
  cases ts with
  | nil =>
    cases h
    exact .inr rfl
  | cons l ts =>
    have hl : stop l = false := hstop l rfl
    change manyWithin stop item (ts.length + 1) (l :: ts) = _ at h
    simp only [Parser.manyWithin, hl, Bool.false_eq_true, if_false, bind_eq_andThen,
      andThen_eq_done_iff] at h
    obtain ⟨a, mid, first, last, -, ⟨bs, mid', first', last', -, hv, -⟩, -⟩ := h
    cases hv
    exact .inl (List.cons_ne_nil a bs)

theorem Yields.moreWithin {item : Parser α} (h : item.Yields fun a _ => P a) (rounds : Nat) :
    (moreWithin item rounds).Yields fun as _ => ∀ a ∈ as, P a := by
  induction rounds with
  | zero => exact yields_value fun _ => by simp
  | succ rounds ih =>
    apply Yields.onPunct
    · refine Yields.andThen h ?_
      intro a mid ha
      refine (ih mid).bind ?_
      intro as rest has
      exact yields_done (by simpa using ⟨ha, has⟩)
    · exact yields_value fun _ => by simp

theorem Yields.separated {item : Parser α} (h : item.Yields fun a _ => P a) :
    (separated item).Yields fun as _ => as ≠ [] ∧ ∀ a ∈ as, P a := by
  refine Yields.andThen h ?_
  intro a mid ha
  refine (h.moreWithin mid.length mid).bind ?_
  intro as rest has
  exact yields_done ⟨List.cons_ne_nil a as, by simpa using ⟨ha, has⟩⟩

theorem Yields.growWithin {step : α → Lexeme → Option (Parser α)}
    (h : ∀ a l q, P a → step a l = some q → q.Yields fun b _ => P b) (rounds : Nat) (a : α)
    (ha : P a) : (growWithin step rounds a).Yields fun b _ => P b := by
  induction rounds generalizing a with
  | zero => exact yields_value fun _ => ha
  | succ rounds ih =>
    intro ts
    unfold Parser.growWithin
    split
    · exact yields_done ha
    · next l rest =>
      split
      · exact yields_done ha
      · next q hq => exact (h a l q ha hq rest).bind fun b mid hb => ih b hb mid

theorem Yields.grow {step : α → Lexeme → Option (Parser α)}
    (h : ∀ a l q, P a → step a l = some q → q.Yields fun b _ => P b) (a : α) (ha : P a) :
    (grow step a).Yields fun b _ => P b :=
  fun ts => Yields.growWithin h ts.length a ha ts

/-- A value that has yet to grow once before the fact holds of it. -/
theorem yields_grow_first {step : α → Lexeme → Option (Parser α)}
    (h : ∀ a l q, P a → step a l = some q → q.Yields fun b _ => P b) {a : α} {l : Lexeme}
    {q : Parser α} (hs : step a l = some q) (hq : q.Yields fun b _ => P b) (rest : List Lexeme) :
    (grow step a (l :: rest)).Yields fun b _ => P b := by
  change (Parser.growWithin step (rest.length + 1) a (l :: rest)).Yields _
  simp only [Parser.growWithin, hs]
  exact (hq rest).bind fun b mid hb => Yields.growWithin h rest.length b hb mid

theorem Yields.recovering {resume : List Lexeme → List Lexeme → List Lexeme} {error : Skipped → α}
    (h : p.Yields fun a _ => P a) (herr : ∀ s, P (error s)) :
    (recovering resume error p).Yields fun a _ => P a := by
  intro ts
  have hp := h ts
  unfold Parser.recovering
  cases ho : p ts with
  | done a rest found =>
    rw [ho] at hp
    exact hp
  | failed problem rest found => exact yields_done (herr _)
  | tooDeep rest found => exact yields_tooDeep

end Parser

end ShaderSyntax
