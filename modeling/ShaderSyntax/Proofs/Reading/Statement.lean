import ShaderSyntax.Grammar.Statement
import ShaderSyntax.Proofs.Reading.Expression

/-!
# Statements are read

Statements that a keyword starts are read from the lexeme after it, so their contract names the
items after the keyword. The statements of a block, the statements of a clause and the clauses are
read through recovery: what fails among them is read as an error node.
-/
namespace ShaderSyntax

open ShaderSyntax.Parser

namespace Grammar

variable {expr : Parser Expr} {stmt : Parser Stmt}

theorem initializer_reads (h : expr.ReadsNode Expr.node) :
    (initializer expr).Reads fun v items =>
      items = Item.marked? .assign .value (v.map Expr.node) := by
  refine Reads.onPunct .assign ?_ (reads_value rfl)
  refine Reads.andThen (h.child .value) ?_
  rintro e _ rfl
  exact reads_value rfl

theorem variableThrough_reads (h : expr.ReadsNode Expr.node) {place : Place}
    (hp : place.punct = .semicolon) :
    (variableThrough place expr).Reads fun v items => items = v.items := by
  refine Reads.andThen (specifier_readsNode.child .specifier) ?_
  rintro s _ rfl
  refine Reads.andThen (initializer_reads h) ?_
  rintro v _ rfl
  refine Reads.andThen (reads_require place) ?_
  rintro _ _ rfl
  exact reads_value (by simp [Variable.items, hp])

theorem constant_reads (h : expr.ReadsNode Expr.node) :
    (constant expr).Reads fun c items =>
      items =
        Item.child? .precision (c.1.map (qualifierNode .precisionQualifier)) ++ c.2.items := by
  refine Reads.andThen (reads_qualifier .precision .precision (k := .precisionQualifier) rfl) ?_
  rintro p _ rfl
  refine Reads.andThen (variableThrough_reads h rfl) ?_
  rintro v _ rfl
  exact reads_value (by simp)

theorem adjusted_reads (h : expr.ReadsNode Expr.node) (op : AdjustOp) :
    (adjusted expr op).Reads fun a items =>
      .attribute .operation (.punct op.punct) :: items = a.items := by
  refine Reads.andThen ((suffixed_reads h).child .argument) ?_
  rintro t _ rfl
  split
  · exact reads_value rfl
  · exact reads_fail _

theorem actionOn_reads (h : expr.ReadsNode Expr.node) (t : Expr) :
    (actionOn expr t).Reads fun a items => ∃ label, Item.child label t.node :: items = a.items := by
  intro ts
  unfold actionOn
  split
  · next p rest =>
    split
    · next op hop =>
      have hp := AssignOp.punct_of_ofPunct? hop
      subst hp
      split
      · have ha : Item.Account [.attribute .operation (.punct op.punct)]
            (.punct op.punct :: rest) rest [] := ⟨rfl, rfl, trivial⟩
        refine Outcome.Reads.following ha (Reads.andThen (h.child .value) ?_ rest)
        rintro v _ rfl
        exact reads_value ⟨.argument, rfl⟩
      · exact .of_failed _ [] (List.suffix_refl _)
    · next op _ hop =>
      have hp := AdjustOp.punct_of_ofPunct? hop
      subst hp
      split
      · have ha : Item.Account [.attribute .operation (.punct op.punct)]
            (.punct op.punct :: rest) rest [] := ⟨rfl, rfl, trivial⟩
        exact .of_account ⟨.argument, rfl⟩ ha
      · exact .of_failed _ [] (List.suffix_refl _)
    · exact .of_account ⟨.value, rfl⟩ (.nil _)
  · exact .of_account ⟨.value, rfl⟩ (.nil _)

theorem plainAction_reads (h : expr.ReadsNode Expr.node) :
    (plainAction expr).Reads fun a items => items = a.items := by
  -- The label of the first child is known only once the action is, and no account depends on it.
  have hp : (plainAction expr).Reads fun a items =>
      ∃ label t more,
        items = .child .argument t :: more ∧ Item.child label t :: more = a.items := by
    refine Reads.andThen (h.child .argument) ?_
    rintro e _ rfl
    refine (actionOn_reads h e).mono ?_
    rintro a more ⟨label, ha⟩
    exact ⟨label, e.node, more, rfl, ha⟩
  refine fun ts => (hp ts).convert ?_
  rintro a _ ⟨label, t, more, rfl, ha⟩
  refine ⟨a.items, rfl, ?_⟩
  intro rest found hc
  rw [← ha]
  exact ⟨hc.lexemes, hc.findings, hc.solid⟩

theorem action_reads (h : expr.ReadsNode Expr.node) :
    (action expr).Reads fun a items => items = a.items := by
  intro ts
  unfold action
  split
  · next p rest =>
    split
    · next op hop =>
      have hp := AdjustOp.punct_of_ofPunct? hop
      subst hp
      have ha : Item.Account [.attribute .operation (.punct op.punct)] (.punct op.punct :: rest)
          rest [] := ⟨rfl, rfl, trivial⟩
      exact Outcome.Reads.following ha (adjusted_reads h op rest)
    · exact plainAction_reads h _
  · exact plainAction_reads h _

theorem Action.kind_valid (a : Action) : a.kind.isInvalid = false := by
  cases a <;> rfl

theorem action_readsUpdate (h : expr.ReadsNode Expr.node) :
    (action expr).ReadsNode Action.updateNode := by
  refine (action_reads h).mono ?_
  rintro a _ rfl
  cases a with
  | evaluate e => exact Node.spells_child .value e.node
  | assign t op v => exact Node.spells_branch rfl (List.cons_ne_nil _ _)
  | adjustAfter t op => exact Node.spells_branch rfl (List.cons_ne_nil _ _)
  | adjustBefore op t => exact Node.spells_branch rfl (List.cons_ne_nil _ _)

theorem perform_reads (h : expr.ReadsNode Expr.node) : (perform expr).ReadsNode Stmt.node := by
  refine Reads.andThen (action_reads h) ?_
  rintro a _ rfl
  refine Reads.andThen (reads_require .afterStatement) ?_
  rintro _ _ rfl
  apply reads_value
  rw [Stmt.node, List.append_nil]
  exact Node.spells_branch (Action.kind_valid a) (by simp)

theorem recoveredStmt_reads (h : stmt.ReadsNode Stmt.node) (ts : List Lexeme) (hts : ts ≠ []) :
    (recoveredStmt stmt ts).Reads ts fun s items => s.node.Spells items :=
  h.recovering Recovery.resumes_statement (fun s => by rw [Stmt.node]) ts hts

theorem block_reads (h : stmt.ReadsNode Stmt.node) :
    (block stmt).ReadsNode fun body => (Stmt.block body).node := by
  refine Reads.andThen (reads_require .openBlock) ?_
  rintro _ _ rfl
  refine Reads.andThen (reads_manyUntil _ .statement (recoveredStmt_reads h)) ?_
  rintro body _ rfl
  refine Reads.andThen (reads_require .closeBlock) ?_
  rintro _ _ rfl
  apply reads_value
  change (Stmt.block body).node.Spells _
  rw [Stmt.node, Stmt.nodes_eq_map, List.append_nil]
  exact Node.spells_branch rfl (List.cons_ne_nil _ _)

theorem branching_reads (he : expr.ReadsNode Expr.node) (hs : stmt.ReadsNode Stmt.node) :
    (branching expr stmt).Reads fun s items => s.node.Spells (.keyword .ifThen :: items) := by
  refine Reads.andThen ((parenthesized_reads he).child .condition) ?_
  rintro c _ rfl
  refine Reads.andThen (hs.child .action) ?_
  rintro t _ rfl
  refine Reads.onKeyword .otherwise ?_ (reads_value ?_)
  · refine Reads.andThen (hs.child .alternate) ?_
    rintro e _ rfl
    apply reads_value
    rw [Stmt.node]
    exact Node.spells_branch rfl (List.cons_ne_nil _ _)
  · rw [Stmt.node]
    exact Node.spells_branch rfl (List.cons_ne_nil _ _)

theorem whileLoop_reads (he : expr.ReadsNode Expr.node) (hs : stmt.ReadsNode Stmt.node) :
    (whileLoop expr stmt).Reads fun s items => s.node.Spells (.keyword .whileLoop :: items) := by
  refine Reads.andThen ((parenthesized_reads he).child .condition) ?_
  rintro c _ rfl
  refine Reads.andThen (hs.child .action) ?_
  rintro b _ rfl
  apply reads_value
  rw [Stmt.node]
  exact Node.spells_branch rfl (List.cons_ne_nil _ _)

theorem variableThrough_readsNode (h : expr.ReadsNode Expr.node) :
    (variableThrough .afterVariable expr).ReadsNode Variable.node := by
  refine (variableThrough_reads h rfl).mono ?_
  rintro v _ rfl
  exact Node.spells_branch rfl (List.cons_ne_nil _ _)

theorem forLoop_reads (he : expr.ReadsNode Expr.node) (hs : stmt.ReadsNode Stmt.node) :
    (forLoop expr stmt).Reads fun s items => s.node.Spells (.keyword .forLoop :: items) := by
  refine Reads.andThen (reads_require .afterFor) ?_
  rintro _ _ rfl
  refine Reads.andThen ((variableThrough_readsNode he).child .initializer) ?_
  rintro v _ rfl
  refine Reads.andThen (he.child .value) ?_
  rintro c _ rfl
  refine Reads.andThen (reads_require .afterLoopCondition) ?_
  rintro _ _ rfl
  refine Reads.andThen ((action_readsUpdate he).child .update) ?_
  rintro u _ rfl
  refine Reads.andThen (reads_require .afterLoopUpdate) ?_
  rintro _ _ rfl
  refine Reads.andThen (hs.child .action) ?_
  rintro b _ rfl
  apply reads_value
  -- The condition and its semicolon are one child, read as two items.
  have hc : (Action.evaluate c).statementNode.Spells [.child .value c.node, .mark .semicolon] :=
    Node.spells_branch rfl (List.cons_ne_nil _ _)
  have hn : (Stmt.forLoop v c u b).node.Spells
      ([Item.keyword .forLoop, .mark .openParen, .child .initializer v.node] ++
        Item.child .condition (Action.evaluate c).statementNode ::
          [.child .update u.updateNode, .mark .closeParen, .child .action b.node]) := by
    rw [Stmt.node]
    exact Node.spells_branch rfl (List.cons_ne_nil _ _)
  exact hn.open_child _ hc

theorem clauseBody_reads (h : stmt.ReadsNode Stmt.node) :
    (clauseBody stmt).Reads fun body items =>
      items = .mark .colon :: Item.children .statement (Stmt.nodes body) := by
  refine Reads.andThen (reads_require .afterCaseLabel) ?_
  rintro _ _ rfl
  refine (reads_manyUntil _ .statement (recoveredStmt_reads h)).mono ?_
  rintro body _ rfl
  rw [Stmt.nodes_eq_map]
  rfl

theorem clause_reads (he : expr.ReadsNode Expr.node) (hs : stmt.ReadsNode Stmt.node) :
    (clause expr stmt).ReadsNode Clause.node := by
  refine Reads.onKeyword .caseLabel ?_ (Reads.onKeyword .defaultLabel ?_ (reads_fail _))
  · refine Reads.andThen (he.child .argument) ?_
    rintro e _ rfl
    refine Reads.andThen (clauseBody_reads hs) ?_
    rintro body _ rfl
    apply reads_value
    rw [Clause.node, List.append_nil]
    exact Node.spells_branch rfl (List.cons_ne_nil _ _)
  · refine Reads.andThen (clauseBody_reads hs) ?_
    rintro body _ rfl
    apply reads_value
    rw [Clause.node, List.append_nil]
    exact ⟨rfl, fun _ => rfl, fun h => ⟨rfl, List.cons_ne_nil _ _, h⟩⟩

theorem switchOn_reads (he : expr.ReadsNode Expr.node) (hs : stmt.ReadsNode Stmt.node) :
    (switchOn expr stmt).Reads fun s items => s.node.Spells (.keyword .switchOn :: items) := by
  have hc : ∀ ts, ts ≠ [] → (recovering Recovery.resumeClause .error (clause expr stmt) ts).Reads ts
      fun c items => (Clause.node c).Spells items :=
    (clause_reads he hs).recovering Recovery.resumes_clause (fun s => by rw [Clause.node])
  refine Reads.andThen (reads_require .afterSwitch) ?_
  rintro _ _ rfl
  refine Reads.andThen (he.child .condition) ?_
  rintro e _ rfl
  refine Reads.andThen (reads_require .afterSwitchValue) ?_
  rintro _ _ rfl
  refine Reads.andThen (reads_require .openSwitch) ?_
  rintro _ _ rfl
  refine Reads.andThen (reads_manyUntil _ .clause hc) ?_
  rintro cs _ rfl
  refine Reads.andThen (reads_require .closeSwitch) ?_
  rintro _ _ rfl
  apply reads_value
  rw [Stmt.node, Clause.nodes_eq_map, List.append_nil]
  exact Node.spells_branch rfl (List.cons_ne_nil _ _)

theorem returnValue_reads (h : expr.ReadsNode Expr.node) :
    (returnValue expr).Reads fun s items => s.node.Spells (.keyword .returnValue :: items) := by
  refine Reads.onPunct .semicolon (reads_value ?_) ?_
  · rw [Stmt.node]
    exact Node.spells_branch rfl (List.cons_ne_nil _ _)
  · refine Reads.andThen (h.child .value) ?_
    rintro e _ rfl
    refine Reads.andThen (reads_require .afterReturn) ?_
    rintro _ _ rfl
    apply reads_value
    rw [Stmt.node]
    exact Node.spells_branch rfl (List.cons_ne_nil _ _)

theorem plainStmt_reads (h : expr.ReadsNode Expr.node) : (plainStmt expr).ReadsNode Stmt.node := by
  intro ts
  unfold plainStmt
  split
  · refine Outcome.Reads.bind (variableThrough_readsNode h ts) ?_
    intro v items hv
    apply reads_value
    rw [Stmt.node, List.append_nil]
    exact hv
  · exact perform_reads h ts

theorem keywordStmt_reads (he : expr.ReadsNode Expr.node) (hs : stmt.ReadsNode Stmt.node)
    (k : Keyword) (q : Parser Stmt) (hq : keywordStmt expr stmt k = some q) :
    q.Reads fun s items => s.node.Spells (.keyword k :: items) := by
  unfold keywordStmt at hq
  split at hq <;> cases hq
  · exact branching_reads he hs
  · exact whileLoop_reads he hs
  · exact forLoop_reads he hs
  · exact switchOn_reads he hs
  · exact returnValue_reads he
  · refine Reads.andThen (reads_require .afterBreak) ?_
    rintro _ _ rfl
    apply reads_value
    rw [Stmt.node]
    exact Node.spells_branch rfl (List.cons_ne_nil _ _)
  · refine Reads.andThen (reads_require .afterContinue) ?_
    rintro _ _ rfl
    apply reads_value
    rw [Stmt.node]
    exact Node.spells_branch rfl (List.cons_ne_nil _ _)
  · refine Reads.andThen (constant_reads he) ?_
    rintro ⟨p, v⟩ _ rfl
    apply reads_value
    rw [Stmt.node, List.append_nil]
    exact Node.spells_branch rfl (List.cons_ne_nil _ _)

theorem statementOf_reads (he : expr.ReadsNode Expr.node) (hs : stmt.ReadsNode Stmt.node) :
    (statementOf expr stmt).ReadsNode Stmt.node := by
  intro ts
  unfold statementOf
  split
  · refine Outcome.Reads.bind (block_reads hs _) ?_
    intro body items hb
    apply reads_value
    rw [List.append_nil]
    exact hb
  · next w rest =>
    split
    · next q hq =>
      obtain ⟨k, hk, hkq⟩ := Option.bind_eq_some_iff.mp hq
      have hw := Keyword.spelling_of_ofText? hk
      subst hw
      exact Outcome.Reads.following (.token _ rest) (keywordStmt_reads he hs k q hkq rest)
    · exact plainStmt_reads he _
  · exact plainStmt_reads he ts

/-- Whatever levels are left, statements read their nodes. -/
theorem statement_reads (levels : Nat) : Parser.ReadsNode (statement levels) Stmt.node := by
  induction levels with
  | zero => exact reads_tooDeep
  | succ levels ih => exact statementOf_reads (expression_reads levels) ih

end Grammar

end ShaderSyntax
