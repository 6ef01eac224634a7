import ShaderSyntax.Proofs.Bracing

/-!
# Sealed findings

A finding is sealed if the braces of its node are balanced. A production that recovers an item inside
braces seals it only if the braces around it close: at the end of an unfinished input there is no
place where recovery could stop. So there are two contracts. What `Parser.SealsInside` is bound to
seal, it seals if the braces around what it leaves are closed later; `Parser.Seals` asks for nothing.
The brace that closes a body leads from the first to the second.
-/
namespace ShaderSyntax

open Recovery

/-- The lexemes of all nodes found are balanced. -/
def Sealed (found : List Finding) : Prop :=
  ∀ f ∈ found, Balanced f.node.lexemes

theorem sealed_nil : Sealed [] :=
  fun _ hf => absurd hf List.not_mem_nil

theorem Sealed.append {first last : List Finding} (hx : Sealed first) (hy : Sealed last) :
    Sealed (first ++ last) :=
  List.forall_mem_append.mpr ⟨hx, hy⟩

theorem sealed_singleton {f : Finding} (h : Balanced f.node.lexemes) : Sealed [f] :=
  List.forall_mem_singleton.mpr h

variable {α β : Type}

/-- If the run is done, its findings are sealed. -/
def Outcome.Seals (o : Outcome α) : Prop :=
  ∀ a rest found, o = .done a rest found → Sealed found

/-- If the run is done and the braces around it close, its findings are sealed. -/
def Outcome.SealsInside (o : Outcome α) : Prop :=
  ∀ a rest found, o = .done a rest found → outside 0 rest ≠ [] → Sealed found

namespace Outcome

variable {o : Outcome α} {p : Parser α} {f : α → Parser β} {ts : List Lexeme}

theorem seals_done {a : α} {rest : List Lexeme} {found : List Finding} (h : Sealed found) :
    (Outcome.done a rest found).Seals := by
  intro a' rest' found' he
  cases he
  exact h

theorem seals_failed {problem : Problem} {rest : List Lexeme} {found : List Finding} :
    (Outcome.failed problem rest found : Outcome α).Seals := by
  intro a rest' found' he
  cases he

theorem seals_tooDeep {rest : List Lexeme} {found : List Finding} :
    (Outcome.tooDeep rest found : Outcome α).Seals := by
  intro a rest' found' he
  cases he

theorem Seals.inside (h : o.Seals) : o.SealsInside :=
  fun a rest found he _ => h a rest found he

theorem Seals.bind (h : (p ts).Seals) (hf : ∀ a mid, (f a mid).Seals) :
    (p.andThen f ts).Seals := by
  intro b rest found he
  obtain ⟨a, mid, first, last, hp, hb, rfl⟩ := Parser.andThen_eq_done_iff.mp he
  exact (h a mid first hp).append (hf a mid b rest last hb)

/-- The braces around the first run close where those around the second do. -/
theorem SealsInside.bind (h : (p ts).SealsInside) (hf : ∀ a mid, (f a mid).SealsInside)
    (hc : ∀ a mid, (f a mid).Confined 0 mid) : (p.andThen f ts).SealsInside := by
  intro b rest found he hout
  obtain ⟨a, mid, first, last, hp, hb, rfl⟩ := Parser.andThen_eq_done_iff.mp he
  have hmid : outside 0 mid ≠ [] := (hc a mid).done b rest last hb ▸ hout
  exact (h a mid first hp hmid).append (hf a mid b rest last hb hout)

end Outcome

open Outcome

/-- On every input, what the parser finds is sealed. -/
def Parser.Seals (p : Parser α) : Prop :=
  ∀ ts, (p ts).Seals

/-- On every input, what the parser finds is sealed if the braces around it close. -/
def Parser.SealsInside (p : Parser α) : Prop :=
  ∀ ts, (p ts).SealsInside

namespace Parser

variable {p : Parser α} {f : α → Parser β}

section Anywhere

theorem seals_value {a : α} : (value a).Seals :=
  fun _ => seals_done sealed_nil

theorem seals_fail {problem : Option Lexeme → Problem} : (fail problem : Parser α).Seals :=
  fun _ => seals_failed

theorem seals_limit : (tooDeep : Parser α).Seals :=
  fun _ => seals_tooDeep

theorem seals_skip : skip.Seals :=
  fun _ => seals_done sealed_nil

theorem seals_require (place : Place) : (require place).Seals := by
  intro ts
  rcases require_cases place ts with ⟨rest, -, h⟩ | h
  · rw [h]
    exact seals_done sealed_nil
  · rw [h]
    exact seals_failed

theorem seals_qualifier (cls : WordClass) : (qualifier cls).Seals := by
  intro ts
  unfold qualifier
  split
  · split
    · exact seals_done sealed_nil
    · exact seals_done sealed_nil
  · exact seals_done sealed_nil

theorem Seals.andThen (h : p.Seals) (hf : ∀ a, (f a).Seals) : (p.andThen f).Seals :=
  fun ts => (h ts).bind fun a mid => hf a mid

theorem Seals.onPunct {yes no : Parser α} (q : Punct) (hyes : yes.Seals) (hno : no.Seals) :
    (onPunct q yes no).Seals := by
  intro ts
  unfold Parser.onPunct
  split
  · split
    · exact hyes _
    · exact hno _
  · exact hno _

theorem Seals.onKeyword {yes no : Parser α} (k : Keyword) (hyes : yes.Seals) (hno : no.Seals) :
    (onKeyword k yes no).Seals := by
  intro ts
  unfold Parser.onKeyword
  split
  · split
    · exact hyes _
    · exact hno _
  · exact hno _

theorem Seals.inRounds {q : Nat → Parser α} (h : ∀ rounds, (q rounds).Seals) :
    (inRounds q).Seals :=
  fun ts => h ts.length ts

theorem MarkedLoop.seals {q : Punct} {item : Parser α} {loop : Nat → Parser (List α)}
    (h : MarkedLoop q item loop) (hi : item.Seals) (rounds : Nat) : (loop rounds).Seals := by
  induction rounds with
  | zero =>
    rw [h.zero]
    exact seals_value
  | succ rounds ih =>
    rw [h.succ]
    apply Seals.onPunct
    · exact hi.andThen fun _ => ih.andThen fun _ => seals_value
    · exact seals_value

theorem Seals.separated {item : Parser α} (h : item.Seals) : (separated item).Seals :=
  h.andThen fun _ => (Seals.inRounds ((markedLoop_moreWithin item).seals h)).andThen fun _ =>
    seals_value

theorem Seals.grow {step : α → Lexeme → Option (Parser α)}
    (h : ∀ a l q, step a l = some q → q.Seals) (a : α) : (grow step a).Seals := by
  apply Seals.inRounds
  intro rounds
  induction rounds generalizing a with
  | zero => exact seals_value
  | succ rounds ih =>
    intro ts
    unfold growWithin
    split
    · exact seals_done sealed_nil
    · next l rest =>
      split
      · exact seals_done sealed_nil
      · next q hq => exact (h a l q hq rest).bind ih

end Anywhere

section Inside

theorem Seals.inside (h : p.Seals) : p.SealsInside :=
  fun ts => (h ts).inside

theorem SealsInside.andThen (h : p.SealsInside) (hf : ∀ a, (f a).SealsInside)
    (hc : ∀ a, (f a).Confined 0) : (p.andThen f).SealsInside :=
  fun ts => (h ts).bind (fun a mid => hf a mid) fun a mid => hc a mid

theorem SealsInside.onKeyword {yes no : Parser α} (k : Keyword) (hyes : yes.SealsInside)
    (hno : no.SealsInside) : (onKeyword k yes no).SealsInside := by
  intro ts
  unfold Parser.onKeyword
  split
  · split
    · exact hyes _
    · exact hno _
  · exact hno _

/-- The brace that closes what surrounds a run is there, so the run has sealed what it found. -/
theorem SealsInside.closed (h : p.SealsInside) {place : Place} (hp : place.punct = .closeBrace)
    (hf : ∀ a, (f a).Seals) :
    (p.andThen fun a => (require place).andThen fun _ => f a).Seals := by
  intro ts b rest found he
  obtain ⟨a, mid, first, last, hdone, hb, rfl⟩ := andThen_eq_done_iff.mp he
  have hlast : Sealed last := ((seals_require place).andThen fun _ => hf a) mid b rest last hb
  obtain ⟨u, after, close, more, hclose, -, -⟩ := andThen_eq_done_iff.mp hb
  rcases require_cases place mid with ⟨behind, hmid, -⟩ | hfail
  · have hout : outside 0 mid ≠ [] := by
      rw [hmid, hp, outside_zero_closeBrace]
      exact List.cons_ne_nil _ _
    exact (h ts a mid first hdone hout).append hlast
  · rw [hfail] at hclose
    cases hclose

/-- A production that fails becomes an error node over lexemes left behind without a change to the
surroundings. -/
theorem SealsInside.recovering (h : p.SealsInside) (hc : p.Confined 0)
    {resume : List Lexeme → List Lexeme → List Lexeme} (hres : Resumes resume)
    (hcon : Confines resume) (error : Skipped → α) (ts : List Lexeme)
    (hts : ts.head? ≠ some (.punct .closeBrace)) :
    (recovering resume error p ts).SealsInside := by
  intro a rest found he hout
  have hrun := hc.recovering hres hcon error ts hts
  have hconfined := hrun.done a rest found he
  obtain ⟨taken, rfl⟩ : rest <:+ ts := by
    have hs := hrun.suffix
    rwa [he] at hs
  unfold Parser.recovering at he
  cases ho : p (taken ++ rest) with
  | done b left first =>
    rw [ho] at he
    cases he
    exact h _ a rest found ho hout
  | tooDeep left first =>
    rw [ho] at he
    cases he
  | failed problem left first =>
    rw [ho] at he
    dsimp only at he
    obtain ⟨-, hrest, hfound⟩ := Outcome.done.inj he
    rw [hrest] at hfound
    rw [← hfound]
    apply sealed_singleton
    rw [Node.lexemes, take_of_rest]
    exact balanced_of_outside hconfined hout

theorem sealsInside_manyWithin {item : Parser α} {stop : Lexeme → Bool}
    (hstop : stop (.punct .closeBrace) = true)
    (hc : ∀ ts, ts.head? ≠ some (.punct .closeBrace) → (item ts).Confined 0 ts)
    (h : ∀ ts, ts.head? ≠ some (.punct .closeBrace) → (item ts).SealsInside) (rounds : Nat) :
    (manyWithin stop item rounds).SealsInside := by
  induction rounds with
  | zero => exact seals_value.inside
  | succ rounds ih =>
    intro ts
    unfold manyWithin
    split
    · exact (seals_done sealed_nil).inside
    · next l rest =>
      split
      · exact (seals_done sealed_nil).inside
      · next hl =>
        -- The items behind close none of the braces around this one.
        have hloop := confined_manyWithin hstop hc rounds
        apply (h (l :: rest) (head?_ne_closeBrace hstop hl)).bind
        · intro a mid
          exact ih.andThen (fun _ => seals_value.inside) (fun _ => confined_value _) mid
        · intro a mid
          exact (hloop.map fun as => a :: as) mid

/-- Items that are not tried at a closing brace. -/
theorem sealsInside_manyUntil {item : Parser α} {stop : Lexeme → Bool}
    (hstop : stop (.punct .closeBrace) = true)
    (hc : ∀ ts, ts.head? ≠ some (.punct .closeBrace) → (item ts).Confined 0 ts)
    (h : ∀ ts, ts.head? ≠ some (.punct .closeBrace) → (item ts).SealsInside) :
    (manyUntil stop item).SealsInside :=
  fun ts => sealsInside_manyWithin hstop hc h ts.length ts

end Inside

end Parser

end ShaderSyntax
