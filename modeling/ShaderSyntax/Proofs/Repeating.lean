import ShaderSyntax.Grammar.Recovery
import ShaderSyntax.Proofs.Yielding

/-!
# Fewer levels

A run in which no production failed is repeated by a parser with fewer levels, if these are enough
for the syntax that the run gave. What is enough can only be told from all of that syntax, and it is
enough for all of its parts. So the contract between the two parsers, `Parser.Repeats`, carries along
what the parts so far must have met, and there is one rule for each way of building a parser.
-/
namespace ShaderSyntax

variable {α β : Type}

/-- None of the findings is an error node. -/
def Intact (found : List Finding) : Prop :=
  ∀ f ∈ found, f.node.kind ≠ .error

theorem intact_append {first last : List Finding} (h : Intact (first ++ last)) :
    Intact first ∧ Intact last :=
  ⟨fun f hf => h f (List.mem_append_left last hf), fun f hf => h f (List.mem_append_right first hf)⟩

/-- Where the freer run is done, has found no error node and its value fits, the other run is the
same, and the parts that came before did fit. -/
def Outcome.Repeats (start : Prop) (o free : Outcome α) (fits : α → Prop) : Prop :=
  ∀ a rest found, free = .done a rest found → Intact found → fits a → start ∧ o = .done a rest found

namespace Outcome

variable {start : Prop} {o free : Outcome α} {fits : α → Prop}

theorem repeats_same (h : ∀ a, fits a → start) : o.Repeats start o fits :=
  fun a _ _ ho _ ha => ⟨h a ha, ho⟩

theorem repeats_never (h : free.Yields fun a _ => ¬fits a) : o.Repeats start free fits :=
  fun a rest found ho _ ha => absurd ha (h a rest found ho)

end Outcome

open Outcome

/-- The parser repeats what the freer one does, on every input where the value fits. -/
def Parser.Repeats (start : Prop) (p free : Parser α) (fits : α → Prop) : Prop :=
  ∀ ts, (p ts).Repeats start (free ts) fits

namespace Parser

variable {start : Prop} {p free : Parser α} {fits : α → Prop}

/-- A parser that takes no level. -/
theorem repeats_same (h : ∀ a, fits a → start) : Repeats start p p fits :=
  fun _ => Outcome.repeats_same h

/-- The same in the midst of others, where its value does not matter. -/
theorem repeats_pass (p : Parser α) : Repeats start p p fun _ => start :=
  repeats_same fun _ => id

theorem repeats_never (h : free.Yields fun a _ => ¬fits a) : Repeats start p free fits :=
  fun ts => Outcome.repeats_never (h ts)

theorem repeats_value {a : α} (h : fits a → start) : Repeats start (value a) (value a) fits := by
  intro ts a' rest found ho _ ha
  cases ho
  exact ⟨h ha, rfl⟩

/-- What came before is kept in mind. -/
theorem Repeats.frame (h : Repeats True p free fits) (start : Prop) :
    Repeats start p free fun a => start ∧ fits a :=
  fun ts a rest found ho hfound ha => ⟨ha.1, (h ts a rest found ho hfound ha.2).2⟩

theorem Repeats.andThen {f f' : α → Parser β} {fits' : β → Prop} (h : Repeats start p free fits)
    (hf : ∀ a, Repeats (fits a) (f a) (f' a) fits') :
    Repeats start (p.andThen f) (free.andThen f') fits' := by
  intro ts b rest found ho hfound hb
  obtain ⟨a, mid, first, last, hp, hlast, rfl⟩ := andThen_eq_done_iff.mp ho
  obtain ⟨hi, hi'⟩ := intact_append hfound
  obtain ⟨ha, hq⟩ := hf a mid b rest last hlast hi' hb
  obtain ⟨hs, hp'⟩ := h ts a mid first hp hi ha
  exact ⟨hs, andThen_eq_done_iff.mpr ⟨a, mid, first, last, hp', hq, rfl⟩⟩

theorem Repeats.onPunct {yes yes' no no' : Parser α} (q : Punct)
    (hyes : Repeats start yes yes' fits) (hno : Repeats start no no' fits) :
    Repeats start (onPunct q yes no) (onPunct q yes' no') fits := by
  intro ts
  unfold Parser.onPunct
  split
  · split
    · exact hyes _
    · exact hno _
  · exact hno _

theorem Repeats.onKeyword {yes yes' no no' : Parser α} (k : Keyword)
    (hyes : Repeats start yes yes' fits) (hno : Repeats start no no' fits) :
    Repeats start (onKeyword k yes no) (onKeyword k yes' no') fits := by
  intro ts
  unfold Parser.onKeyword
  split
  · split
    · exact hyes _
    · exact hno _
  · exact hno _

theorem Repeats.inRounds {q q' : Nat → Parser α}
    (h : ∀ rounds, Repeats start (q rounds) (q' rounds) fits) :
    Repeats start (inRounds q) (inRounds q') fits :=
  fun ts => h ts.length ts

theorem Repeats.manyWithin {item item' : Parser α} (stop : Lexeme → Bool)
    (h : Repeats True item item' fits) (rounds : Nat) :
    Repeats True (manyWithin stop item rounds) (manyWithin stop item' rounds)
      fun as => ∀ a ∈ as, fits a := by
  induction rounds with
  | zero => exact repeats_value fun _ => trivial
  | succ rounds ih =>
    have hnext : Repeats True
        (item.andThen fun a => (Parser.manyWithin stop item rounds).andThen fun as =>
          value (a :: as))
        (item'.andThen fun a => (Parser.manyWithin stop item' rounds).andThen fun as =>
          value (a :: as)) fun as => ∀ a ∈ as, fits a :=
      h.andThen fun a => (ih.frame (fits a)).andThen fun as =>
        repeats_value List.forall_mem_cons.mp
    intro ts
    unfold Parser.manyWithin
    split
    · exact Outcome.repeats_same fun _ _ => trivial
    · split
      · exact Outcome.repeats_same fun _ _ => trivial
      · exact hnext _

theorem Repeats.manyUntil {item item' : Parser α} (stop : Lexeme → Bool)
    (h : Repeats True item item' fits) :
    Repeats True (manyUntil stop item) (manyUntil stop item') fun as => ∀ a ∈ as, fits a :=
  .inRounds (h.manyWithin stop)

theorem Repeats.moreWithin {item item' : Parser α} (h : Repeats True item item' fits)
    (rounds : Nat) :
    Repeats True (moreWithin item rounds) (moreWithin item' rounds)
      fun as => ∀ a ∈ as, fits a := by
  induction rounds with
  | zero => exact repeats_value fun _ => trivial
  | succ rounds ih =>
    apply Repeats.onPunct
    · exact h.andThen fun a => (ih.frame (fits a)).andThen fun as =>
        repeats_value List.forall_mem_cons.mp
    · exact repeats_value fun _ => trivial

theorem Repeats.separated {item item' : Parser α} (h : Repeats True item item' fits) :
    Repeats True (separated item) (separated item') fun as => ∀ a ∈ as, fits a :=
  h.andThen fun a => ((Repeats.inRounds h.moreWithin).frame (fits a)).andThen fun _ =>
    repeats_value List.forall_mem_cons.mp

theorem Repeats.growWithin {step step' : α → Lexeme → Option (Parser α)}
    (h : ∀ a l, Option.Rel (fun p p' => Repeats (fits a) p p' fits) (step a l) (step' a l))
    (rounds : Nat) (a : α) :
    Repeats (fits a) (growWithin step rounds a) (growWithin step' rounds a) fits := by
  induction rounds generalizing a with
  | zero => exact repeats_value id
  | succ rounds ih =>
    intro ts
    unfold Parser.growWithin
    cases ts with
    | nil => exact repeats_value id _
    | cons l rest =>
      have hl := h a l
      dsimp only
      generalize step a l = q, step' a l = q' at hl
      cases hl with
      | none => exact repeats_value id _
      | some hq => exact hq.andThen ih rest

theorem Repeats.grow {step step' : α → Lexeme → Option (Parser α)}
    (h : ∀ a l, Option.Rel (fun p p' => Repeats (fits a) p p' fits) (step a l) (step' a l))
    (a : α) : Repeats (fits a) (grow step a) (grow step' a) fits :=
  .inRounds fun rounds => .growWithin h rounds a

/-- A production that failed would have left an error node. -/
theorem Repeats.recovering {resume : List Lexeme → List Lexeme → List Lexeme}
    {error : Skipped → α} (h : Repeats start p free fits) :
    Repeats start (recovering resume error p) (recovering resume error free) fits := by
  intro ts a rest found ho hfound ha
  unfold Parser.recovering at ho ⊢
  cases hf : free ts with
  | done a' rest' found' =>
    rw [hf] at ho
    cases ho
    obtain ⟨hs, hp⟩ := h ts a rest found hf hfound ha
    exact ⟨hs, by rw [hp]⟩
  | failed problem rest' found' =>
    rw [hf] at ho
    cases ho
    exact absurd rfl (hfound _ (List.mem_singleton_self _))
  | tooDeep rest' found' =>
    rw [hf] at ho
    cases ho

end Parser

end ShaderSyntax
