import ShaderSyntax.Grammar.Statement
import ShaderSyntax.Proofs.Judging.Expression
import ShaderSyntax.Proofs.Reading.Statement

/-!
# Statements are judged

A statement uses no more levels than it has, and its words are judged. Where a statement may start a
brace is taken by a block, so no action starts with one. An `else` after a statement that would take
it is taken by the innermost `if`, so no statement before an `else` ends with an open one.
-/
namespace ShaderSyntax

open ShaderSyntax.Parser ShaderSyntax.Outcome

theorem Expr.depth?_le_iff (v : Option Expr) (levels : Nat) :
    Expr.depth? v ≤ levels ↔ ∀ e ∈ v, e.depth < levels := by
  cases v with
  | none => simp [Expr.depth?]
  | some e =>
    simp only [Expr.depth?, Option.mem_some_iff, forall_eq']
    exact Nat.succ_le_iff

structure Variable.Within (levels : Nat) (v : Variable) : Prop where
  judged : v.Judged
  depth : v.depth ≤ levels

structure Action.Within (levels : Nat) (a : Action) : Prop where
  judged : a.Judged
  depth : a.depth ≤ levels

structure Stmt.Within (levels : Nat) (s : Stmt) : Prop where
  judged : s.Judged
  depth : s.depth ≤ levels

structure Clause.Within (levels : Nat) (c : Clause) : Prop where
  judged : c.Judged
  depth : c.depth ≤ levels

variable {levels : Nat}

theorem Stmt.judgeds_of_within {body : List Stmt} (h : ∀ s ∈ body, s.Within levels) :
    Stmt.Judgeds body ∧ Stmt.depths body ≤ levels :=
  ⟨(Stmt.judgeds_iff body).mpr fun s hs => (h s hs).judged,
    (Stmt.depths_le_iff body levels).mpr fun s hs => (h s hs).depth⟩

namespace Grammar

variable {expr : Parser Expr} {stmt : Parser Stmt}

theorem initializer_judged (h : expr.Yields fun e _ => e.Inside levels) :
    (initializer expr).Yields fun v _ => ∀ e ∈ v, e.Inside levels := by
  apply Yields.onPunct
  · refine Yields.andThen h ?_
    intro e mid he
    exact yields_done (by simpa using he)
  · exact yields_value fun _ => by simp

theorem variableThrough_judged (h : expr.Yields fun e _ => e.Inside levels) (place : Place) :
    (variableThrough place expr).Yields fun v _ => v.Within levels := by
  refine Yields.andThen specifier_judged ?_
  intro s mid hs
  refine (initializer_judged h mid).bind ?_
  intro v mid hv
  refine yields_after _ (fun _ => yields_value fun _ => ⟨⟨hs, ?_⟩, ?_⟩) mid
  · exact fun e he => (hv e he).judged
  · exact (Expr.depth?_le_iff v levels).mpr fun e he => (hv e he).depth

theorem constant_judged (h : expr.Yields fun e _ => e.Inside levels) :
    (constant expr).Yields fun c _ =>
      canonicalQualifier .precision c.1 = true ∧ c.2.Within levels := by
  refine Yields.andThen (yields_qualifier .precision) ?_
  intro p mid hp
  refine (variableThrough_judged h _ mid).bind ?_
  intro v mid hv
  exact yields_done ⟨hp, hv⟩

theorem adjusted_judged (h : expr.Yields fun e _ => e.Inside levels) (op : AdjustOp) :
    (adjusted expr op).Yields fun a _ => a.Within levels := by
  refine Yields.andThen (suffixed_judged h) ?_
  intro t mid ht
  split
  · exact yields_done ⟨ht.judged, ht.depth⟩
  · exact yields_failed

theorem actionOn_judged (h : expr.Yields fun e _ => e.Inside levels) {t : Expr}
    (ht : t.Inside levels) : (actionOn expr t).Yields fun a _ => a.Within levels := by
  have hevaluate : (Action.evaluate t).Within levels := ⟨ht.judged, ht.depth⟩
  intro ts
  unfold actionOn
  split
  · split
    · split
      · refine (h _).bind ?_
        intro v mid hv
        exact yields_done ⟨⟨ht.judged, hv.judged⟩, Nat.max_le.mpr ⟨ht.depth, hv.depth⟩⟩
      · exact yields_failed
    · split
      · exact yields_done ⟨ht.judged, ht.depth⟩
      · exact yields_failed
    · exact yields_done hevaluate
  · exact yields_done hevaluate

theorem action_judged (h : expr.Yields fun e _ => e.Inside levels) :
    (action expr).Yields fun a _ => a.Within levels := by
  have hplain : (plainAction expr).Yields fun a _ => a.Within levels :=
    h.andThen fun e mid he => actionOn_judged h he mid
  intro ts
  unfold action
  split
  · split
    · exact adjusted_judged h _ _
    · exact hplain _
  · exact hplain _

/-- A statement within the levels, and an `else` after it only where it would not take it. -/
structure Leaves (levels : Nat) (s : Stmt) (rest : List Lexeme) : Prop where
  within : s.Within levels
  next : s.endsOpen = true → rest.head? ≠ some (.word Keyword.otherwise.spelling)

theorem leaves_of_closed {s : Stmt} {rest : List Lexeme} (hs : s.endsOpen = false)
    (hj : s.Judged) (hd : s.depth ≤ levels) : Leaves levels s rest :=
  ⟨⟨hj, hd⟩, fun ho => absurd ho (by simp [hs])⟩

/-- An action starts with the lexeme that stood there. -/
theorem action_startsBlock (hr : expr.ReadsNode Expr.node) {ts rest : List Lexeme} {a : Action}
    {found : List Finding} (hts : ts.head? ≠ some (.punct .openBrace))
    (h : action expr ts = .done a rest found) : a.startsBlock = false := by
  obtain ⟨items, rfl, ha⟩ := (action_reads hr ts).done a rest found h
  have hlex := ha.lexemes
  unfold Action.startsBlock
  cases hitems : Item.lexemes a.items with
  | nil => rfl
  | cons l more =>
    rw [hlex, hitems] at hts
    simpa using hts

theorem perform_judged (hr : expr.ReadsNode Expr.node)
    (h : expr.Yields fun e _ => e.Inside levels) {ts : List Lexeme}
    (hts : ts.head? ≠ some (.punct .openBrace)) :
    (perform expr ts).Yields (Leaves (levels + 1)) := by
  have haction : (action expr ts).Yields fun a _ => a.Within levels ∧ a.startsBlock = false :=
    fun a rest found ha => ⟨action_judged h ts a rest found ha, action_startsBlock hr hts ha⟩
  refine haction.bind ?_
  rintro a mid ⟨ha, hstart⟩
  refine yields_after _ (fun _ => yields_value fun _ => leaves_of_closed rfl ?_ ?_) mid
  · simp only [Stmt.Judged]
    exact ⟨ha.judged, hstart⟩
  · simpa only [Stmt.depth] using Nat.succ_le_succ ha.depth

/-- The statements of the parser are within the levels. It fails only where there is one: without a
level nothing is read. -/
structure Keeps (levels : Nat) (stmt : Parser Stmt) : Prop where
  yields : stmt.Yields (Leaves levels)
  fails : ∀ ts problem rest found, stmt ts = .failed problem rest found → 0 < levels

theorem recoveredStmt_judged (h : Keeps levels stmt) :
    (recoveredStmt stmt).Yields fun s _ => s.Within levels := by
  intro ts
  have hs := h.yields ts
  unfold recoveredStmt recovering
  cases ho : stmt ts with
  | done s rest found => exact yields_done (hs s rest found ho).within
  | failed problem rest found =>
    have hone : 1 ≤ levels := h.fails ts problem rest found ho
    exact yields_done ⟨by simp only [Stmt.Judged], by simpa only [Stmt.depth] using hone⟩
  | tooDeep rest found => exact yields_tooDeep

theorem block_judged (h : Keeps levels stmt) :
    (block stmt).Yields fun body _ => Stmt.Judgeds body ∧ Stmt.depths body ≤ levels := by
  apply yields_after
  intro _
  refine Yields.andThen ((recoveredStmt_judged h).manyUntil _) ?_
  intro body mid hbody
  exact yields_after _ (fun _ => yields_value fun _ => Stmt.judgeds_of_within hbody) mid

/-- The one place where an `else` is taken, and it decides who owns it. -/
theorem branching_judged (he : expr.Yields fun e _ => e.Inside levels)
    (h : Keeps levels stmt) : (branching expr stmt).Yields (Leaves (levels + 1)) := by
  refine Yields.andThen (parenthesized_judged he) ?_
  intro c mid hc
  refine (h.yields mid).bind ?_
  intro t mid ht
  apply yields_onKeyword
  · intro rest hrest
    have hclosed : t.endsOpen = false := by
      cases ho : t.endsOpen with
      | false => rfl
      | true => exact absurd (by rw [hrest]; rfl) (ht.next ho)
    refine (h.yields rest).bind ?_
    intro e last he
    refine yields_done ⟨⟨?_, ?_⟩, he.next⟩
    · simp only [Stmt.Judged]
      exact ⟨hc.judged, ht.within.judged, hclosed, he.within.judged⟩
    · simp only [Stmt.depth, Nat.succ_le_succ_iff, Nat.max_le]
      exact ⟨hc.depth, ht.within.depth, he.within.depth⟩
  · intro hnext
    refine yields_done ⟨⟨?_, ?_⟩, fun _ => hnext⟩
    · simp only [Stmt.Judged]
      exact ⟨hc.judged, ht.within.judged⟩
    · simp only [Stmt.depth, Nat.succ_le_succ_iff, Nat.max_le]
      exact ⟨hc.depth, ht.within.depth⟩

theorem whileLoop_judged (he : expr.Yields fun e _ => e.Inside levels)
    (h : Keeps levels stmt) : (whileLoop expr stmt).Yields (Leaves (levels + 1)) := by
  refine Yields.andThen (parenthesized_judged he) ?_
  intro c mid hc
  refine (h.yields mid).bind ?_
  intro t last ht
  refine yields_done ⟨⟨?_, ?_⟩, ht.next⟩
  · simp only [Stmt.Judged]
    exact ⟨hc.judged, ht.within.judged⟩
  · simp only [Stmt.depth, Nat.succ_le_succ_iff, Nat.max_le]
    exact ⟨hc.depth, ht.within.depth⟩

theorem forLoop_judged (he : expr.Yields fun e _ => e.Inside levels)
    (h : Keeps levels stmt) : (forLoop expr stmt).Yields (Leaves (levels + 1)) := by
  apply yields_after
  intro _
  refine Yields.andThen (variableThrough_judged he _) ?_
  intro v mid hv
  refine (he mid).bind ?_
  intro c mid hc
  refine yields_after (require .afterLoopCondition) (fun _ => ?_) mid
  refine Yields.andThen (action_judged he) ?_
  intro u mid hu
  refine yields_after (require .afterLoopUpdate) (fun _ => ?_) mid
  refine Yields.andThen h.yields ?_
  intro t last ht
  refine yields_done ⟨⟨?_, ?_⟩, ht.next⟩
  · simp only [Stmt.Judged]
    exact ⟨hv.judged, hc.judged, hu.judged, ht.within.judged⟩
  · simp only [Stmt.depth, Nat.succ_le_succ_iff, Nat.max_le]
    exact ⟨⟨hv.depth, hc.depth⟩, hu.depth, ht.within.depth⟩

theorem clauseBody_judged (h : Keeps levels stmt) :
    (clauseBody stmt).Yields fun body _ => Stmt.Judgeds body ∧ Stmt.depths body ≤ levels :=
  yields_after _ fun _ => ((recoveredStmt_judged h).manyUntil _).mono
    fun _ _ hbody => Stmt.judgeds_of_within hbody

theorem clause_judged (he : expr.Yields fun e _ => e.Inside levels)
    (h : Keeps levels stmt) :
    (clause expr stmt).Yields fun c _ => c.Within levels := by
  apply Yields.onKeyword
  · refine Yields.andThen he ?_
    intro e mid he
    refine (clauseBody_judged h mid).bind ?_
    intro body last hbody
    refine yields_done ⟨?_, ?_⟩
    · simp only [Clause.Judged]
      exact ⟨he.judged, hbody.1⟩
    · simp only [Clause.depth, Nat.max_le]
      exact ⟨he.depth, hbody.2⟩
  · apply Yields.onKeyword
    · refine Yields.andThen (clauseBody_judged h) ?_
      intro body last hbody
      refine yields_done ⟨?_, ?_⟩
      · simpa only [Clause.Judged] using hbody.1
      · simpa only [Clause.depth] using hbody.2
    · exact yields_fail _

theorem switchOn_judged (he : expr.Yields fun e _ => e.Inside levels)
    (h : Keeps levels stmt) : (switchOn expr stmt).Yields (Leaves (levels + 1)) := by
  apply yields_after
  intro _
  refine Yields.andThen he ?_
  intro e mid he'
  refine yields_after (require .afterSwitchValue) (fun _ => ?_) mid
  refine yields_after (require .openSwitch) (fun _ => ?_)
  have hclause : (recovering Recovery.resumeClause .error (clause expr stmt)).Yields
      fun c _ => c.Within levels :=
    (clause_judged he h).recovering fun _ =>
      ⟨by simp only [Clause.Judged], by simp [Clause.depth]⟩
  refine Yields.andThen (hclause.manyUntil _) ?_
  intro cs mid hcs
  refine yields_after _ (fun _ => yields_value fun _ => leaves_of_closed rfl ?_ ?_) mid
  · simp only [Stmt.Judged, Clause.judgeds_iff]
    exact ⟨he'.judged, fun c hc => (hcs c hc).judged⟩
  · simp only [Stmt.depth, Nat.succ_le_succ_iff, Nat.max_le, Clause.depths_le_iff]
    exact ⟨he'.depth, fun c hc => (hcs c hc).depth⟩

theorem returnValue_judged (h : expr.Yields fun e _ => e.Inside levels) :
    (returnValue expr).Yields (Leaves (levels + 1)) := by
  have hreturn : ∀ v : Option Expr, (∀ e ∈ v, e.Inside levels) → ∀ rest,
      Leaves (levels + 1) (.returnValue v) rest := by
    intro v hv rest
    refine leaves_of_closed rfl ?_ ?_
    · simpa only [Stmt.Judged] using fun e he => (hv e he).judged
    · simpa only [Stmt.depth, Nat.succ_le_succ_iff, Expr.depth?_le_iff] using
        fun e he => (hv e he).depth
  apply Yields.onPunct
  · exact yields_value (hreturn none (by simp))
  · refine Yields.andThen h ?_
    intro e mid he
    exact yields_after _ (fun _ => yields_value (hreturn (some e) (by simpa using he))) mid

theorem plainStmt_judged (hr : expr.ReadsNode Expr.node)
    (h : expr.Yields fun e _ => e.Inside levels) {ts : List Lexeme}
    (hts : ts.head? ≠ some (.punct .openBrace)) :
    (plainStmt expr ts).Yields (Leaves (levels + 1)) := by
  unfold plainStmt
  split
  · refine (variableThrough_judged h _ ts).bind ?_
    intro v mid hv
    refine yields_done (leaves_of_closed rfl ?_ ?_)
    · simpa only [Stmt.Judged] using hv.judged
    · simpa only [Stmt.depth] using Nat.succ_le_succ hv.depth
  · exact perform_judged hr h hts

theorem keywordStmt_judged (he : expr.Yields fun e _ => e.Inside levels)
    (h : Keeps levels stmt) {k : Keyword} {p : Parser Stmt}
    (hp : keywordStmt expr stmt k = some p) : p.Yields (Leaves (levels + 1)) := by
  have hword : ∀ s : Stmt, s = .breakOut ∨ s = .continueLoop → ∀ rest,
      Leaves (levels + 1) s rest := by
    rintro s (rfl | rfl) rest <;>
      exact leaves_of_closed rfl (by simp only [Stmt.Judged]) (by simp [Stmt.depth])
  unfold keywordStmt at hp
  split at hp
  · cases hp
    exact branching_judged he h
  · cases hp
    exact whileLoop_judged he h
  · cases hp
    exact forLoop_judged he h
  · cases hp
    exact switchOn_judged he h
  · cases hp
    exact returnValue_judged he
  · cases hp
    exact yields_after _ fun _ => yields_value (hword _ (.inl rfl))
  · cases hp
    exact yields_after _ fun _ => yields_value (hword _ (.inr rfl))
  · cases hp
    refine Yields.andThen (constant_judged he) ?_
    rintro c mid ⟨hq, hv⟩
    refine yields_done (leaves_of_closed rfl ?_ ?_)
    · simp only [Stmt.Judged]
      exact ⟨hq, hv.judged⟩
    · simpa only [Stmt.depth] using Nat.succ_le_succ hv.depth
  · cases hp

theorem statementOf_judged (hr : expr.ReadsNode Expr.node)
    (he : expr.Yields fun e _ => e.Inside levels) (h : Keeps levels stmt) :
    (statementOf expr stmt).Yields (Leaves (levels + 1)) := by
  intro ts
  unfold statementOf
  split
  · refine (block_judged h _).bind ?_
    intro body mid hbody
    refine yields_done (leaves_of_closed rfl ?_ ?_)
    · simpa only [Stmt.Judged] using hbody.1
    · simpa only [Stmt.depth] using Nat.succ_le_succ hbody.2
  · split
    · next p hp =>
      obtain ⟨k, -, hk⟩ := Option.bind_eq_some_iff.mp hp
      exact keywordStmt_judged he h hk _
    · exact plainStmt_judged hr he (by simp)
  · next hbrace _ =>
    apply plainStmt_judged hr he
    intro hhead
    obtain ⟨rest, rfl⟩ := List.head?_eq_some_iff.mp hhead
    exact hbrace rest rfl

/-- Whatever levels are left, statements are judged and use no more of them. -/
theorem statement_judged (levels : Nat) : Keeps levels (statement levels) := by
  induction levels with
  | zero => exact ⟨yields_limit, fun ts problem rest found h => by cases h⟩
  | succ levels ih =>
    exact ⟨statementOf_judged (expression_reads levels) (expression_judged levels) ih,
      fun _ _ _ _ _ => Nat.succ_pos levels⟩

end Grammar

end ShaderSyntax
