import Mathlib.Data.List.Infix
import ShaderSyntax.Grammar.Recovery
import ShaderSyntax.Proofs.Reading

/-!
# Parsers that stay between braces

`outside` names the place where the braces around the input close: it starts with the first closing
brace that has no partner before it. A confined parser that is done leaves that place where it was,
and one that fails has not come past it. So recovery, which counts the braces of what was taken,
goes on at the right depth.
-/
namespace ShaderSyntax

namespace Recovery

def isBrace (l : Lexeme) : Bool :=
  isPunct .openBrace l || isPunct .closeBrace l

theorem isPunct_of_not_brace {l : Lexeme} (h : isBrace l = false) :
    isPunct .openBrace l = false ∧ isPunct .closeBrace l = false := by
  simpa [isBrace] using h

/-- The input from the brace that closes one more than the open braces and those opened on the
way. -/
def outside : Nat → List Lexeme → List Lexeme
  | _, [] => []
  | depth, l :: rest =>
    if isPunct .openBrace l then outside (depth + 1) rest
    else if isPunct .closeBrace l then
      if depth = 0 then l :: rest else outside (depth - 1) rest
    else outside depth rest

@[simp] theorem outside_nil (depth : Nat) : outside depth [] = [] := rfl

@[simp] theorem outside_openBrace (depth : Nat) (rest : List Lexeme) :
    outside depth (.punct .openBrace :: rest) = outside (depth + 1) rest := rfl

@[simp] theorem outside_zero_closeBrace (rest : List Lexeme) :
    outside 0 (.punct .closeBrace :: rest) = .punct .closeBrace :: rest := rfl

@[simp] theorem outside_succ_closeBrace (depth : Nat) (rest : List Lexeme) :
    outside (depth + 1) (.punct .closeBrace :: rest) = outside depth rest := rfl

theorem outside_cons {l : Lexeme} (h : isBrace l = false) (depth : Nat) (rest : List Lexeme) :
    outside depth (l :: rest) = outside depth rest := by
  have hl := isPunct_of_not_brace h
  simp [outside, hl.1, hl.2]

/-- A lexeme is one brace, or the other, or none. -/
theorem brace_cases (l : Lexeme) :
    l = .punct .openBrace ∨ l = .punct .closeBrace ∨ isBrace l = false := by
  by_cases ho : l = .punct .openBrace
  · exact .inl ho
  · by_cases hc : l = .punct .closeBrace
    · exact .inr (.inl hc)
    · exact .inr (.inr (by simp [isBrace, isPunct, ho, hc]))

theorem outside_suffix (depth : Nat) (ts : List Lexeme) : outside depth ts <:+ ts := by
  induction ts generalizing depth with
  | nil => exact List.suffix_refl []
  | cons l ts ih =>
    rcases brace_cases l with rfl | rfl | hl
    · exact (ih (depth + 1)).trans (List.suffix_cons _ _)
    · cases depth with
      | zero => exact List.suffix_refl _
      | succ depth => exact (ih depth).trans (List.suffix_cons _ _)
    · rw [outside_cons hl]
      exact (ih depth).trans (List.suffix_cons _ _)

/-- One level further out, the search goes on after the brace that was found. -/
theorem outside_succ (depth : Nat) (ts : List Lexeme) :
    outside (depth + 1) ts = outside 0 (outside depth ts).tail := by
  induction ts generalizing depth with
  | nil => rfl
  | cons l ts ih =>
    rcases brace_cases l with rfl | rfl | hl
    · exact ih (depth + 1)
    · cases depth with
      | zero => rfl
      | succ depth => exact ih depth
    · rw [outside_cons hl, outside_cons hl]
      exact ih depth

/-- Inputs with the same surroundings have the same further out. -/
theorem outside_congr {ts mid : List Lexeme} (h : outside 0 mid = outside 0 ts) (depth : Nat) :
    outside depth mid = outside depth ts := by
  induction depth with
  | zero => exact h
  | succ depth ih => rw [outside_succ, outside_succ, ih]

theorem outside_suffix_zero (depth : Nat) (ts : List Lexeme) :
    outside depth ts <:+ outside 0 ts := by
  induction depth with
  | zero => exact List.suffix_refl _
  | succ depth ih =>
    rw [outside_succ]
    exact ((outside_suffix 0 _).trans (List.tail_suffix _)).trans ih

/-- Counting the open braces of a part that does not come past the surroundings loses none. -/
theorem outside_openBraces {taken rest : List Lexeme} {depth : Nat}
    (h : outside depth (taken ++ rest) <:+ rest) :
    outside (openBraces depth taken) rest = outside depth (taken ++ rest) := by
  induction taken generalizing depth with
  | nil => rfl
  | cons l taken ih =>
    rcases brace_cases l with rfl | rfl | hl
    · exact ih h
    · cases depth with
      | zero =>
        have hlen := h.length_le
        simp only [List.cons_append, outside_zero_closeBrace, List.length_cons,
          List.length_append] at hlen
        omega
      | succ depth => exact ih h
    · have hb : openBraces depth (l :: taken) = openBraces depth taken := by
        have hp := isPunct_of_not_brace hl
        simp [openBraces, hp.1, hp.2]
      rw [List.cons_append, outside_cons hl] at h ⊢
      rw [hb]
      exact ih h

theorem outside_afterStatement (depth : Nat) (ts : List Lexeme) :
    outside 0 (afterStatement depth ts) = outside depth ts := by
  induction ts generalizing depth with
  | nil => rfl
  | cons l ts ih =>
    rcases brace_cases l with rfl | rfl | hl
    · exact ih (depth + 1)
    · match depth with
      | 0 => rfl
      | 1 => rfl
      | depth + 2 => exact ih (depth + 1)
    · have hp := isPunct_of_not_brace hl
      rw [outside_cons hl]
      simp only [afterStatement, hp.1, hp.2, Bool.false_eq_true, if_false]
      split
      · split
        · next hd => rw [hd]
        · exact ih depth
      · exact ih depth

theorem outside_afterClause (depth : Nat) (ts : List Lexeme) :
    outside 0 (afterClause depth ts) = outside depth ts := by
  induction ts generalizing depth with
  | nil => rfl
  | cons l ts ih =>
    rcases brace_cases l with rfl | rfl | hl
    · exact ih (depth + 1)
    · cases depth with
      | zero => rfl
      | succ depth => exact ih depth
    · have hp := isPunct_of_not_brace hl
      simp only [afterClause, hp.1, hp.2, Bool.false_eq_true, if_false]
      split
      · next hd => rw [hd.1]
      · rw [outside_cons hl]
        exact ih depth

/-- The braces close as many as they open, and no part from the front closes more than it opens. -/
structure Balanced (ts : List Lexeme) : Prop where
  closes : ts.count (.punct .closeBrace) = ts.count (.punct .openBrace)
  covered : ∀ front, front <+: ts →
    front.count (.punct .closeBrace) ≤ front.count (.punct .openBrace)

instance (ts : List Lexeme) : Decidable (Balanced ts) :=
  decidable_of_iff
    (ts.count (.punct .closeBrace) = ts.count (.punct .openBrace) ∧
      ∀ front ∈ ts.inits, front.count (.punct .closeBrace) ≤ front.count (.punct .openBrace))
    ⟨fun h => ⟨h.1, fun front hf => h.2 front ((List.mem_inits front ts).mpr hf)⟩,
      fun h => ⟨h.closes, fun front hf => h.covered front ((List.mem_inits front ts).mp hf)⟩⟩

theorem outside_append {ts : List Lexeme} {depth : Nat} (rest : List Lexeme)
    (h : ∀ front, front <+: ts →
      front.count (.punct .closeBrace) ≤ depth + front.count (.punct .openBrace)) :
    outside depth (ts ++ rest) =
      outside (depth + ts.count (.punct .openBrace) - ts.count (.punct .closeBrace)) rest := by
  induction ts generalizing depth with
  | nil => simp
  | cons l ts ih =>
    have hfront : ∀ front, front <+: ts → (l :: front).count (.punct .closeBrace) ≤
        depth + (l :: front).count (.punct .openBrace) :=
      fun front hf => h (l :: front) ((List.prefix_cons_inj l).mpr hf)
    rcases brace_cases l with rfl | rfl | hl
    · have hne : (Lexeme.punct .openBrace == .punct .closeBrace) = false := by decide
      simp only [List.count_cons, hne, beq_self_eq_true, Bool.false_eq_true, if_true, if_false,
        Nat.add_zero] at hfront ⊢
      rw [List.cons_append, outside_openBrace, ih fun front hf => by have := hfront front hf; omega]
      congr 1
      omega
    · have hne : (Lexeme.punct .closeBrace == .punct .openBrace) = false := by decide
      simp only [List.count_cons, hne, beq_self_eq_true, Bool.false_eq_true, if_true, if_false,
        Nat.add_zero] at hfront ⊢
      have hopen := hfront [] List.nil_prefix
      obtain ⟨inner, rfl⟩ : ∃ inner, depth = inner + 1 := ⟨depth - 1, by simp at hopen; omega⟩
      rw [List.cons_append, outside_succ_closeBrace,
        ih fun front hf => by have := hfront front hf; omega]
      congr 1
      omega
    · have hp : (l == .punct .openBrace) = false ∧ (l == .punct .closeBrace) = false := by
        simpa [isPunct] using isPunct_of_not_brace hl
      simp only [List.count_cons, hp, Bool.false_eq_true, if_false, Nat.add_zero] at hfront ⊢
      rw [List.cons_append, outside_cons hl, ih hfront]

/-- Between balanced braces the surroundings close at the next closing brace. -/
theorem Balanced.outside_eq {ts : List Lexeme} (h : Balanced ts) (rest : List Lexeme) :
    outside 0 (ts ++ .punct .closeBrace :: rest) = .punct .closeBrace :: rest := by
  have hf : ∀ front, front <+: ts →
      front.count (.punct .closeBrace) ≤ 0 + front.count (.punct .openBrace) := by
    intro front hp
    have := h.covered front hp
    omega
  rw [outside_append _ hf, h.closes, Nat.zero_add, Nat.sub_self]
  rfl

/-- Where recovery resumes, the surroundings are those of the production that failed. -/
structure Confines (resume : List Lexeme → List Lexeme → List Lexeme) : Prop where
  outside_eq : ∀ taken rest, outside 0 (taken ++ rest) <:+ rest →
    (taken ++ rest).head? ≠ some (.punct .closeBrace) →
    outside 0 (resume taken rest) = outside 0 (taken ++ rest)

theorem confines_resume {ends : Lexeme → Bool} {skip : Nat → List Lexeme → List Lexeme}
    (hskip : ∀ depth ts, outside 0 (skip depth ts) = outside depth ts)
    (hends : ∀ l, ends l = true → l ≠ .punct .closeBrace → isBrace l = false) :
    Confines (resume ends skip) := by
  constructor
  intro taken rest hout hhead
  match taken, rest with
  | [], [] => exact hskip 0 []
  | [], l :: rest =>
    have hl : l ≠ .punct .closeBrace := by simpa using hhead
    change outside 0 (if ends l then rest else skip (openBraces 0 [l]) rest) = outside 0 (l :: rest)
    by_cases he : ends l = true
    · rw [if_pos he, outside_cons (hends l he hl)]
    · rw [if_neg he, hskip]
      rcases brace_cases l with rfl | rfl | hb
      · rfl
      · exact absurd rfl hl
      · have hp := isPunct_of_not_brace hb
        simp [openBraces, hp.1, hp.2, outside_cons hb]
  | l :: taken, rest =>
    change outside 0 (skip (openBraces 0 (l :: taken)) rest) = outside 0 (l :: taken ++ rest)
    rw [hskip, outside_openBraces hout]

theorem confines_statement : Confines resumeStatement := by
  apply confines_resume outside_afterStatement
  intro l he hl
  have hs : l = .punct .semicolon := by simpa [endsStatement, isPunct, hl] using he
  rw [hs]
  rfl

theorem confines_clause : Confines resumeClause :=
  confines_resume outside_afterClause fun _ he => by simp at he

end Recovery

open Recovery

variable {α β : Type}

/-- The outcome of a run on `ts`, with so many braces around it to be closed by the run. -/
structure Outcome.Confined (o : Outcome α) (depth : Nat) (ts : List Lexeme) : Prop where
  suffix : o.rest <:+ ts
  done : ∀ a rest found, o = .done a rest found → outside 0 rest = outside depth ts
  failed : ∀ problem rest found, o = .failed problem rest found → outside depth ts <:+ rest

namespace Outcome

variable {o : Outcome α} {depth : Nat} {ts : List Lexeme}

theorem confined_done {a : α} {rest : List Lexeme} {found : List Finding} (hs : rest <:+ ts)
    (h : outside 0 rest = outside depth ts) : (Outcome.done a rest found).Confined depth ts := by
  constructor
  · exact hs
  · intro a' rest' found' he
    cases he
    exact h
  · intro problem rest' found' he
    cases he

theorem confined_failed {problem : Problem} {rest : List Lexeme} {found : List Finding}
    (hs : rest <:+ ts) (h : outside depth ts <:+ rest) :
    (Outcome.failed problem rest found : Outcome α).Confined depth ts := by
  constructor
  · exact hs
  · intro a rest' found' he
    cases he
  · intro problem' rest' found' he
    cases he
    exact h

theorem confined_tooDeep {rest : List Lexeme} {found : List Finding} (hs : rest <:+ ts) :
    (Outcome.tooDeep rest found : Outcome α).Confined depth ts := by
  constructor
  · exact hs
  · intro a rest' found' he
    cases he
  · intro problem rest' found' he
    cases he

/-- A run that takes nothing leaves the surroundings where they are. -/
theorem confined_stay {a : α} {found : List Finding} (ts : List Lexeme) :
    (Outcome.done a ts found).Confined 0 ts :=
  confined_done (List.suffix_refl ts) rfl

theorem confined_stuck {problem : Problem} {found : List Finding} (ts : List Lexeme) :
    (Outcome.failed problem ts found : Outcome α).Confined depth ts :=
  confined_failed (List.suffix_refl ts) (outside_suffix depth ts)

/-- A run from an inner place on, with the same surroundings at its own depth. -/
theorem Confined.of_mid {inner : Nat} {mid : List Lexeme} (h : o.Confined inner mid)
    (hs : mid <:+ ts) (heq : outside inner mid = outside depth ts) (first : List Finding) :
    (o.after first).Confined depth ts := by
  cases o with
  | done a rest found =>
    exact confined_done (h.suffix.trans hs) ((h.done a rest found rfl).trans heq)
  | failed problem rest found =>
    exact confined_failed (h.suffix.trans hs) (heq ▸ h.failed problem rest found rfl)
  | tooDeep rest found => exact confined_tooDeep (h.suffix.trans hs)

theorem Confined.cons {l : Lexeme} (hl : isBrace l = false) (h : o.Confined depth ts) :
    o.Confined depth (l :: ts) := by
  have hm := h.of_mid (List.suffix_cons l ts) (outside_cons hl depth ts).symm []
  rwa [after_nil] at hm

theorem Confined.cons_openBrace (h : o.Confined (depth + 1) ts) :
    o.Confined depth (.punct .openBrace :: ts) := by
  have hm := h.of_mid (List.suffix_cons (.punct .openBrace) ts)
    (outside_openBrace depth ts).symm []
  rwa [after_nil] at hm

theorem Confined.bind {p : Parser α} {f : α → Parser β} (h : (p ts).Confined 0 ts)
    (hf : ∀ a mid, (f a mid).Confined depth mid) : (p.andThen f ts).Confined depth ts := by
  unfold Parser.andThen
  cases hp : p ts with
  | done a mid first =>
    rw [hp] at h
    exact (hf a mid).of_mid h.suffix (outside_congr (h.done a mid first rfl) depth) first
  | failed problem rest found =>
    rw [hp] at h
    have hr := h.failed problem rest found rfl
    exact confined_failed h.suffix ((outside_suffix_zero depth ts).trans hr)
  | tooDeep rest found =>
    rw [hp] at h
    exact confined_tooDeep h.suffix

end Outcome

open Outcome

/-- On every input the parser closes so many of the braces around it and no more. -/
def Parser.Confined (p : Parser α) (depth : Nat) : Prop :=
  ∀ ts, (p ts).Confined depth ts

namespace Parser

variable {p : Parser α} {depth : Nat}

theorem Confined.andThen {f : α → Parser β} (h : p.Confined 0) (hf : ∀ a, (f a).Confined depth) :
    (p.andThen f).Confined depth :=
  fun ts => (h ts).bind fun a mid => hf a mid

/-- What is made of the value does not matter. -/
theorem Confined.map (h : p.Confined depth) (g : α → β) :
    (p.andThen fun a => value (g a)).Confined depth := by
  intro ts
  have hp := h ts
  unfold Parser.andThen
  cases ho : p ts with
  | done a rest found =>
    rw [ho] at hp
    exact confined_done hp.suffix (hp.done a rest found rfl)
  | failed problem rest found =>
    rw [ho] at hp
    exact confined_failed hp.suffix (hp.failed problem rest found rfl)
  | tooDeep rest found =>
    rw [ho] at hp
    exact confined_tooDeep hp.suffix

theorem confined_value (a : α) : (value a).Confined 0 :=
  fun ts => confined_stay ts

theorem confined_fail (problem : Option Lexeme → Problem) :
    (fail problem : Parser α).Confined depth :=
  fun ts => confined_stuck ts

theorem confined_limit : (tooDeep : Parser α).Confined depth :=
  fun ts => confined_tooDeep (List.suffix_refl ts)

theorem confined_require (place : Place) (hp : isBrace (.punct place.punct) = false) :
    (require place).Confined 0 := by
  intro ts
  rcases require_cases place ts with ⟨rest, rfl, h⟩ | h
  · rw [h]
    exact (confined_stay rest).cons hp
  · rw [h]
    exact confined_stuck ts

/-- A closing brace closes one of the braces around it. -/
theorem confined_close (place : Place) (hp : place.punct = .closeBrace) :
    (require place).Confined 1 := by
  intro ts
  rcases require_cases place ts with ⟨rest, rfl, h⟩ | h
  · rw [h, hp]
    exact confined_done (List.suffix_cons _ rest) rfl
  · rw [h]
    exact confined_stuck ts

/-- After an opening brace there is one more to be closed. -/
theorem confined_open (place : Place) (hp : place.punct = .openBrace) {f : Unit → Parser α}
    (hf : (f ()).Confined (depth + 1)) : ((require place).andThen f).Confined depth := by
  intro ts
  unfold Parser.andThen
  rcases require_cases place ts with ⟨rest, rfl, h⟩ | h
  · rw [h, hp]
    simpa using (hf rest).cons_openBrace
  · rw [h]
    exact confined_stuck ts

theorem Confined.onPunct {yes no : Parser α} (q : Punct) (hq : isBrace (.punct q) = false)
    (hyes : yes.Confined depth) (hno : no.Confined depth) :
    (onPunct q yes no).Confined depth := by
  intro ts
  unfold Parser.onPunct
  split
  · next r rest =>
    split
    · next hr =>
      subst hr
      exact (hyes rest).cons hq
    · exact hno _
  · exact hno _

theorem Confined.onKeyword {yes no : Parser α} (k : Keyword) (hyes : yes.Confined depth)
    (hno : no.Confined depth) : (onKeyword k yes no).Confined depth := by
  intro ts
  unfold Parser.onKeyword
  split
  · next w rest =>
    split
    · exact (hyes rest).cons rfl
    · exact hno _
  · exact hno _

theorem confined_qualifier (cls : WordClass) : (qualifier cls).Confined 0 := by
  intro ts
  unfold qualifier
  split
  · next w rest =>
    split
    · exact (confined_stay rest).cons rfl
    · exact confined_stay _
  · exact confined_stay _

theorem Confined.inRounds {q : Nat → Parser α} (h : ∀ rounds, (q rounds).Confined depth) :
    (inRounds q).Confined depth :=
  fun ts => h ts.length ts

/-- What stops at a closing brace has not stopped at one. -/
theorem head?_ne_closeBrace {stop : Lexeme → Bool} (hstop : stop (.punct .closeBrace) = true)
    {l : Lexeme} {rest : List Lexeme} (hl : ¬stop l = true) :
    (l :: rest).head? ≠ some (.punct .closeBrace) := by
  intro he
  cases he
  exact hl hstop

theorem confined_manyWithin {item : Parser α} {stop : Lexeme → Bool}
    (hstop : stop (.punct .closeBrace) = true)
    (h : ∀ ts, ts.head? ≠ some (.punct .closeBrace) → (item ts).Confined 0 ts) (rounds : Nat) :
    (manyWithin stop item rounds).Confined 0 := by
  induction rounds with
  | zero => exact confined_value []
  | succ rounds ih =>
    intro ts
    unfold manyWithin
    split
    · exact confined_stay _
    · next l rest =>
      split
      · exact confined_stay _
      · next hl =>
        apply (h (l :: rest) (head?_ne_closeBrace hstop hl)).bind
        intro a mid
        exact (ih.map fun as => a :: as) mid

/-- Items that are not tried at a closing brace. -/
theorem confined_manyUntil {item : Parser α} {stop : Lexeme → Bool}
    (hstop : stop (.punct .closeBrace) = true)
    (h : ∀ ts, ts.head? ≠ some (.punct .closeBrace) → (item ts).Confined 0 ts) :
    (manyUntil stop item).Confined 0 :=
  Confined.inRounds (confined_manyWithin hstop h)

/-- Items that a mark starts, one a round. -/
structure MarkedLoop (q : Punct) (item : Parser α) (loop : Nat → Parser (List α)) : Prop where
  zero : loop 0 = value []
  succ : ∀ rounds, loop (rounds + 1) = onPunct q
    (item.andThen fun a => (loop rounds).andThen fun as => value (a :: as)) (value [])

theorem markedLoop_moreWithin (item : Parser α) : MarkedLoop .comma item (moreWithin item) :=
  ⟨rfl, fun _ => rfl⟩

theorem MarkedLoop.confined {q : Punct} {item : Parser α} {loop : Nat → Parser (List α)}
    (h : MarkedLoop q item loop) (hq : isBrace (.punct q) = false) (hi : item.Confined 0)
    (rounds : Nat) : (loop rounds).Confined 0 := by
  induction rounds with
  | zero =>
    rw [h.zero]
    exact confined_value []
  | succ rounds ih =>
    rw [h.succ]
    apply Confined.onPunct q hq
    · exact hi.andThen fun a => ih.map fun as => a :: as
    · exact confined_value []

theorem Confined.separated {item : Parser α} (h : item.Confined 0) :
    (separated item).Confined 0 :=
  h.andThen fun a =>
    (Confined.inRounds ((markedLoop_moreWithin item).confined rfl h)).map fun as => a :: as

theorem Confined.grow {step : α → Lexeme → Option (Parser α)}
    (h : ∀ a l q, step a l = some q → isBrace l = false ∧ q.Confined 0) (a : α) :
    (grow step a).Confined 0 := by
  apply Confined.inRounds
  intro rounds
  induction rounds generalizing a with
  | zero => exact confined_value a
  | succ rounds ih =>
    intro ts
    unfold growWithin
    split
    · exact confined_stay _
    · next l rest =>
      split
      · exact confined_stay _
      · next q hq =>
        obtain ⟨hl, hc⟩ := h a l q hq
        exact ((hc rest).bind fun b mid => ih b mid).cons hl

/-- A recovered production stays between the braces around it, wherever it fails. -/
theorem Confined.recovering (h : p.Confined 0) {resume : List Lexeme → List Lexeme → List Lexeme}
    (hres : Resumes resume) (hcon : Confines resume) (error : Skipped → α) (ts : List Lexeme)
    (hts : ts.head? ≠ some (.punct .closeBrace)) :
    (recovering resume error p ts).Confined 0 ts := by
  have hp := h ts
  unfold Parser.recovering
  cases ho : p ts with
  | done a rest found =>
    rw [ho] at hp
    exact hp
  | tooDeep rest found =>
    rw [ho] at hp
    exact hp
  | failed problem rest found =>
    rw [ho] at hp
    obtain ⟨taken, rfl⟩ : rest <:+ ts := hp.suffix
    have hout := hp.failed problem rest found rfl
    dsimp only
    rw [take_of_rest]
    apply confined_done
    · exact (hres.suffix taken rest).trans (List.suffix_append taken rest)
    · exact hcon.outside_eq taken rest hout hts

end Parser

end ShaderSyntax
