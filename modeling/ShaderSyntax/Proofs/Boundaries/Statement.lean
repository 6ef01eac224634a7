import ShaderSyntax.Proofs.Boundaries.Expression
import ShaderSyntax.Proofs.Reading.Statement

/-!
# Errors among statements

A statement is never an error: it fails instead, and the block or the clause around it makes the
error. So errors stand only in the rows of a block, of a clause and of a switch, and there the row
tells what follows each. An error that ends a clause as no statement ends comes before the brace of
the switch.
-/
namespace ShaderSyntax

open ShaderSyntax.Parser ShaderSyntax.Outcome

theorem TypeRef.firm_node (t : TypeRef) : t.node.Firm := by
  induction t with
  | builtin w => exact Node.firm_leaf (by decide) _
  | named w => exact Node.firm_leaf (by decide) _
  | invalid cls w => exact Node.firm_leaf (by decide) _
  | array base size ih =>
    rw [node]
    exact Item.Mild.firm (by simpa [sizeItems] using ⟨ih _, Number.firm_node _ _⟩) (by decide)

theorem held_qualifierNode {k : Kind} (hk : k ≠ .error) (q : Option Text) {label : Label} :
    ∀ n ∈ q.map (qualifierNode k), n.Held label := by
  intro n hn
  obtain ⟨w, -, rfl⟩ := Option.map_eq_some_iff.mp hn
  exact Node.firm_leaf hk _ label

namespace Specifier

theorem mild_sizes (sizes : List Text) : Item.Mild (sizes.flatMap sizeItems) := by
  induction sizes with
  | nil => simp
  | cons size sizes ih =>
    rw [List.flatMap_cons, Item.mild_append]
    exact ⟨by simpa [sizeItems] using Number.firm_node _ _, ih⟩

theorem firm_sizesNode? (sizes : List Text) : ∀ n ∈ sizesNode? sizes, n.Firm := by
  intro n hn
  cases sizes with
  | nil => cases hn
  | cons size sizes =>
    cases hn
    exact (mild_sizes _).firm (by decide)

theorem mild_items (s : Specifier) : Item.Mild s.items := by
  have hsizes : ∀ n ∈ sizesNode? s.sizes, n.Held .sizes := fun n hn => firm_sizesNode? _ n hn _
  simpa [items] using ⟨s.type.firm_node _, s.name.firm_node _, hsizes⟩

theorem firm_node (s : Specifier) : s.node.Firm :=
  s.mild_items.firm (by decide)

end Specifier

namespace Variable

theorem mild_items {v : Variable} (h : ∀ e ∈ v.value, e.node.Mild) : Item.Mild v.items := by
  simp only [items, List.cons_append, Item.mild_child, Item.mild_append, Item.mild_marked?,
    Item.mild_mark, Item.mild_nil, and_true]
  exact ⟨v.specifier.firm_node _, Expr.held_value? h⟩

theorem firm_node {v : Variable} (h : ∀ e ∈ v.value, e.node.Mild) : v.node.Firm :=
  (mild_items h).firm (by decide)

theorem firm_constantNode {v : Variable} {k : Kind} (hk : k ∉ [Kind.error, .switchCase])
    (h : ∀ e ∈ v.value, e.node.Mild) (p : Option Text) : (v.constantNode k p).Firm := by
  apply Item.Mild.firm _ hk
  simp only [List.cons_append, Item.mild_keyword, Item.mild_append, Item.mild_child?]
  exact ⟨held_qualifierNode (by decide) p, mild_items h⟩

end Variable

/-- As a statement the action may stand anywhere, and as an update where expressions may. -/
def Action.Mild (a : Action) : Prop :=
  a.statementNode.Firm ∧ a.updateNode.Mild

namespace Action

variable {t v e : Expr}

theorem kind_plain (a : Action) : a.kind ∉ [Kind.error, .switchCase] := by
  cases a <;> simp [kind]

theorem firm_statementNode {a : Action} (h : Item.Mild a.items) : a.statementNode.Firm :=
  Item.Mild.firm (by simpa using h) a.kind_plain

theorem mild_evaluate (h : e.node.Mild) : (evaluate e).Mild :=
  ⟨firm_statementNode (by simpa [items] using h _ rfl), h⟩

theorem mild_assign (ht : t.node.Mild) (op : AssignOp) (hv : v.node.Mild) :
    (assign t op v).Mild := by
  have hi : Item.Mild (assign t op v).items := by simpa [items] using ⟨ht _ rfl, hv _ rfl⟩
  exact ⟨firm_statementNode hi, (hi.firm (kind_plain _)).mild⟩

theorem mild_adjustAfter (ht : t.node.Mild) (op : AdjustOp) : (adjustAfter t op).Mild := by
  have hi : Item.Mild (adjustAfter t op).items := by simpa [items] using ht _ rfl
  exact ⟨firm_statementNode hi, (hi.firm (kind_plain _)).mild⟩

theorem mild_adjustBefore (op : AdjustOp) (ht : t.node.Mild) : (adjustBefore op t).Mild := by
  have hi : Item.Mild (adjustBefore op t).items := by simpa [items] using ht _ rfl
  exact ⟨firm_statementNode hi, (hi.firm (kind_plain _)).mild⟩

end Action

namespace Stmt

variable {c : Expr} {t e : Stmt}

theorem firm_ifThen (hc : c.node.Mild) (ht : t.node.Firm) : (ifThen c t).node.Firm := by
  rw [node]
  have hp : c.parenNode.Firm := Expr.firm_paren hc
  exact Item.Mild.firm (by simpa using ⟨hp _, ht _⟩) (by decide)

theorem firm_ifElse (hc : c.node.Mild) (ht : t.node.Firm) (he : e.node.Firm) :
    (ifElse c t e).node.Firm := by
  rw [node]
  have hp : c.parenNode.Firm := Expr.firm_paren hc
  exact Item.Mild.firm (by simpa using ⟨hp _, ht _, he _⟩) (by decide)

theorem firm_whileLoop (hc : c.node.Mild) (ht : t.node.Firm) : (whileLoop c t).node.Firm := by
  rw [node]
  have hp : c.parenNode.Firm := Expr.firm_paren hc
  exact Item.Mild.firm (by simpa using ⟨hp _, ht _⟩) (by decide)

theorem firm_forLoop {v : Variable} {u : Action} (hv : ∀ e ∈ v.value, e.node.Mild)
    (hc : c.node.Mild) (hu : u.Mild) (ht : t.node.Firm) : (forLoop v c u t).node.Firm := by
  rw [node]
  have hcond : (Action.evaluate c).statementNode.Firm := (Action.mild_evaluate hc).1
  have hitems : v.node.Held .initializer ∧
      (Action.evaluate c).statementNode.Held .condition ∧ u.updateNode.Held .update ∧
        t.node.Held .action := ⟨Variable.firm_node hv _, hcond _, hu.2 _ rfl, ht _⟩
  exact Item.Mild.firm (by simpa using hitems) (by decide)

theorem firm_returnValue {v : Option Expr} (h : ∀ e ∈ v, e.node.Mild) :
    (returnValue v).node.Firm := by
  rw [node]
  have hv := Expr.held_value? h
  exact Item.Mild.firm (by simpa using hv) (by decide)

/-- A block whose statements are in order up to its closing brace. -/
theorem firm_block {body : List Stmt}
    (h : Item.Fenced .block (Item.children .statement (body.map node) ++ [.mark .closeBrace])) :
    (block body).node.Firm := by
  rw [node, nodes_eq_map]
  exact Node.firm_branch (by decide) h

theorem firm_switchOn {cs : List Clause} (hc : c.node.Mild)
    (h : Item.Fenced .switchStatement
      (Item.children .clause (cs.map Clause.node) ++ [.mark .closeBrace])) :
    (switchOn c cs).node.Firm := by
  rw [node, Clause.nodes_eq_map, List.append_assoc]
  apply Node.firm_branch (by decide)
  have hhead : Item.Mild [.keyword .switchOn, .mark .openParen, .child .condition c.node,
      .mark .closeParen, .mark .openBrace] := by simpa using hc _ rfl
  exact hhead.fenced_append h

end Stmt

/-- A clause is in order before what follows it in its switch. -/
def Clause.Stands (c : Clause) (after : List Lexeme) : Prop :=
  ∀ rest, Follows (Recovery.isPunct .closeBrace) [.mark .closeBrace] after rest →
    c.node.Stands .switchStatement .clause rest ∧ c.node.Fenced

namespace Grammar

variable {expr : Parser Expr} {stmt : Parser Stmt}

theorem initializer_mild (h : expr.Yields fun e _ => e.node.Mild) :
    (initializer expr).Yields fun v _ => ∀ e ∈ v, e.node.Mild := by
  apply Yields.onPunct
  · refine Yields.andThen h ?_
    intro e mid he
    exact yields_done (by simpa using he)
  · exact yields_value fun _ => by simp

theorem variableThrough_mild (h : expr.Yields fun e _ => e.node.Mild) (place : Place) :
    (variableThrough place expr).Yields fun v _ => ∀ e ∈ v.value, e.node.Mild := by
  apply yields_after
  intro s
  refine Yields.andThen (initializer_mild h) ?_
  intro v mid hv
  exact yields_after _ (fun _ => yields_value fun _ => hv) mid

theorem constant_mild (h : expr.Yields fun e _ => e.node.Mild) :
    (constant expr).Yields fun c _ => ∀ e ∈ c.2.value, e.node.Mild := by
  apply yields_after
  intro p
  exact (variableThrough_mild h _).andThen fun v mid hv => yields_done hv

theorem adjusted_mild (h : expr.Yields fun e _ => e.node.Mild) (op : AdjustOp) :
    (adjusted expr op).Yields fun a _ => a.Mild := by
  refine Yields.andThen (suffixed_mild h) ?_
  intro t mid ht
  split
  · exact yields_done (Action.mild_adjustBefore op ht)
  · exact yields_failed

theorem actionOn_mild (h : expr.Yields fun e _ => e.node.Mild) {t : Expr} (ht : t.node.Mild) :
    (actionOn expr t).Yields fun a _ => a.Mild := by
  intro ts
  unfold actionOn
  split
  · split
    · split
      · exact (h _).bind fun v mid hv => yields_done (Action.mild_assign ht _ hv)
      · exact yields_failed
    · split
      · exact yields_done (Action.mild_adjustAfter ht _)
      · exact yields_failed
    · exact yields_done (Action.mild_evaluate ht)
  · exact yields_done (Action.mild_evaluate ht)

theorem action_mild (h : expr.Yields fun e _ => e.node.Mild) :
    (action expr).Yields fun a _ => a.Mild := by
  have hplain : (plainAction expr).Yields fun a _ => a.Mild :=
    h.andThen fun e mid he => actionOn_mild h he mid
  intro ts
  unfold action
  split
  · split
    · exact adjusted_mild h _ _
    · exact hplain _
  · exact hplain _

theorem perform_firm (h : expr.Yields fun e _ => e.node.Mild) :
    (perform expr).Yields fun s _ => s.node.Firm := by
  refine Yields.andThen (action_mild h) ?_
  intro a mid ha
  exact yields_after _ (fun _ => yields_value fun _ => ha.1) mid

/-- A statement that fails ends at a boundary, and one that does not is no error. -/
theorem recoveredStmt_recovered (hr : stmt.ReadsNode Stmt.node)
    (h : stmt.Yields fun s _ => s.node.Firm) :
    (recoveredStmt stmt).Yields fun s after => s.node.Recovered after := by
  refine yields_recovering_reaches (h.mono fun _ _ hs => .inl hs) (fun ts => (hr ts).suffix)
    Recovery.reaches_statement ?_
  intro s after ht
  rw [Stmt.node]
  exact .inr ⟨s, rfl, ht⟩

theorem block_firm (hr : stmt.ReadsNode Stmt.node) (h : stmt.Yields fun s _ => s.node.Firm) :
    (block stmt).Yields fun body _ => (Stmt.block body).node.Firm := by
  apply yields_after
  intro _
  refine Yields.andThen (yields_manyUntil_fenced .block .statement (recoveredStmt_reads hr)
    rfl (.inl rfl) rfl trivial (recoveredStmt_recovered hr h)) ?_
  intro body mid hbody
  exact yields_after _ (fun _ => yields_value fun _ => Stmt.firm_block hbody) mid

theorem branching_firm (he : expr.Yields fun e _ => e.node.Mild)
    (h : stmt.Yields fun s _ => s.node.Firm) :
    (branching expr stmt).Yields fun s _ => s.node.Firm := by
  refine Yields.andThen (parenthesized_mild he) ?_
  intro c mid hc
  refine (h mid).bind ?_
  intro t mid ht
  refine Yields.onKeyword .otherwise ?_ (yields_value fun _ => Stmt.firm_ifThen hc ht) mid
  exact h.andThen fun e mid he => yields_done (Stmt.firm_ifElse hc ht he)

theorem whileLoop_firm (he : expr.Yields fun e _ => e.node.Mild)
    (h : stmt.Yields fun s _ => s.node.Firm) :
    (whileLoop expr stmt).Yields fun s _ => s.node.Firm := by
  refine Yields.andThen (parenthesized_mild he) ?_
  intro c mid hc
  exact (h mid).bind fun t last ht => yields_done (Stmt.firm_whileLoop hc ht)

theorem forLoop_firm (he : expr.Yields fun e _ => e.node.Mild)
    (h : stmt.Yields fun s _ => s.node.Firm) :
    (forLoop expr stmt).Yields fun s _ => s.node.Firm := by
  apply yields_after
  intro _
  refine Yields.andThen (variableThrough_mild he _) ?_
  intro v mid hv
  refine (he mid).bind ?_
  intro c mid hc
  refine yields_after (require .afterLoopCondition) (fun _ => ?_) mid
  refine Yields.andThen (action_mild he) ?_
  intro u mid hu
  refine yields_after (require .afterLoopUpdate) (fun _ => ?_) mid
  exact h.andThen fun t last ht => yields_done (Stmt.firm_forLoop hv hc hu ht)

/-- The statements of a clause are in order, and what its last one leaves is left by the clause. -/
theorem clauseBody_fenced (hr : stmt.ReadsNode Stmt.node)
    (h : stmt.Yields fun s _ => s.node.Firm) :
    (clauseBody stmt).Yields fun body after =>
      Item.Fenced .switchCase (Item.children .statement (body.map Stmt.node)) ∧
        ∀ s ∈ body.getLast?, s.node.Recovered after := by
  apply yields_after
  intro _ ts body after found hd
  have hrec := recoveredStmt_recovered hr h
  have hfenced := yields_manyUntil_fenced .switchCase .statement (recoveredStmt_reads hr) rfl
    (.inl rfl) rfl trivial hrec ts body after found hd
  simp only [List.append_nil] at hfenced
  exact ⟨hfenced, yields_manyUntil_last (recoveredStmt_reads hr) hrec ts body after found hd⟩

/-- A clause that ends with an error as no statement ends is the last one. -/
theorem stands_switchCase {head : List Item} {body : List Stmt} {after : List Lexeme}
    {rest : List Item} (hhead : head.getLast? = some (.mark .colon))
    (hlast : ∀ s ∈ body.getLast?, s.node.Recovered after)
    (hf : Follows (Recovery.isPunct .closeBrace) [.mark .closeBrace] after rest) :
    (Node.branch .switchCase (head ++ Item.children .statement (body.map Stmt.node))).Stands
      .switchStatement .clause rest := by
  refine ⟨by decide, fun _ hopen => ⟨rfl, ?_⟩⟩
  obtain ⟨label, s, hs, hends⟩ := hopen
  rw [List.getLast?_append, hhead, Item.children, List.map_map, List.getLast?_map] at hs
  cases hb : body.getLast? with
  | none => simp [hb, Item.mark] at hs
  | some b =>
    have hnode : .statement = label ∧ b.node = .error s := by simpa [hb] using hs
    have hrec := hlast b hb
    rw [hnode.2] at hrec
    exact Node.Recovered.eq_closing rfl hf (hrec.head_of_error hends)

theorem clause_stands (he : expr.Yields fun e _ => e.node.Mild) (hr : stmt.ReadsNode Stmt.node)
    (h : stmt.Yields fun s _ => s.node.Firm) : (clause expr stmt).Yields Clause.Stands := by
  apply Yields.onKeyword
  · refine Yields.andThen he ?_
    intro e mid he
    refine (clauseBody_fenced hr h mid).bind ?_
    rintro body last ⟨hbody, hlast⟩
    refine yields_done fun rest hf => ?_
    rw [Clause.node, Stmt.nodes_eq_map]
    have hhead : Item.Mild [.keyword .caseLabel, .child .argument e.node, .mark .colon] := by
      simpa using he _ rfl
    exact ⟨stands_switchCase rfl hlast hf, hhead.fenced_append hbody⟩
  · apply Yields.onKeyword
    · refine Yields.andThen (clauseBody_fenced hr h) ?_
      rintro body last ⟨hbody, hlast⟩
      refine yields_done fun rest hf => ?_
      rw [Clause.node, Stmt.nodes_eq_map]
      exact ⟨stands_switchCase rfl hlast hf, hbody⟩
    · exact yields_fail _

theorem recoveredClause_stands (hre : expr.ReadsNode Expr.node)
    (he : expr.Yields fun e _ => e.node.Mild) (hr : stmt.ReadsNode Stmt.node)
    (h : stmt.Yields fun s _ => s.node.Firm) :
    (recovering Recovery.resumeClause .error (clause expr stmt)).Yields Clause.Stands := by
  refine yields_recovering_reaches (clause_stands he hr h)
    (fun ts => (clause_reads hre hr ts).suffix) Recovery.reaches_clause ?_
  intro s after hnext rest hf
  rw [Clause.node]
  refine ⟨?_, trivial⟩
  rcases hf with rfl | ⟨l, hl, hclose, hrest⟩
  · exact .inl rfl
  · have hstarts : Recovery.startsClause l = true := by
      simpa [Recovery.endsClause, hclose] using hnext l hl
    exact .inr ⟨l, hrest, hstarts⟩

theorem switchOn_firm (hre : expr.ReadsNode Expr.node) (he : expr.Yields fun e _ => e.node.Mild)
    (hr : stmt.ReadsNode Stmt.node) (h : stmt.Yields fun s _ => s.node.Firm) :
    (switchOn expr stmt).Yields fun s _ => s.node.Firm := by
  have hreads : ∀ ts, ts ≠ [] →
      (recovering Recovery.resumeClause .error (clause expr stmt) ts).Reads ts
        fun c items => (Clause.node c).Spells items :=
    (clause_reads hre hr).recovering Recovery.resumes_clause (fun s => by rw [Clause.node])
  apply yields_after
  intro _
  refine Yields.andThen he ?_
  intro e mid he'
  refine yields_after (require .afterSwitchValue) (fun _ => ?_) mid
  refine yields_after (require .openSwitch) (fun _ => ?_)
  refine Yields.andThen
    (yields_manyUntil_each .clause hreads (recoveredClause_stands hre he hr h)) ?_
  intro cs mid hcs
  refine yields_after _ (fun _ => yields_value fun _ => ?_) mid
  exact Stmt.firm_switchOn he' (Item.fenced_children trivial hcs)

theorem returnValue_firm (h : expr.Yields fun e _ => e.node.Mild) :
    (returnValue expr).Yields fun s _ => s.node.Firm := by
  apply Yields.onPunct
  · exact yields_value fun _ => Stmt.firm_returnValue (by simp)
  · refine Yields.andThen h ?_
    intro e mid he
    have hs : (Stmt.returnValue (some e)).node.Firm := Stmt.firm_returnValue (by simpa using he)
    exact yields_after _ (fun _ => yields_value fun _ => hs) mid

theorem plainStmt_firm (h : expr.Yields fun e _ => e.node.Mild) :
    (plainStmt expr).Yields fun s _ => s.node.Firm := by
  intro ts
  unfold plainStmt
  split
  · refine (variableThrough_mild h _ ts).bind ?_
    intro v mid hv
    refine yields_done ?_
    rw [Stmt.node]
    exact Variable.firm_node hv
  · exact perform_firm h ts

theorem keywordStmt_firm (hre : expr.ReadsNode Expr.node)
    (he : expr.Yields fun e _ => e.node.Mild) (hr : stmt.ReadsNode Stmt.node)
    (h : stmt.Yields fun s _ => s.node.Firm) {k : Keyword} {p : Parser Stmt}
    (hp : keywordStmt expr stmt k = some p) : p.Yields fun s _ => s.node.Firm := by
  unfold keywordStmt at hp
  split at hp <;> cases hp
  · exact branching_firm he h
  · exact whileLoop_firm he h
  · exact forLoop_firm he h
  · exact switchOn_firm hre he hr h
  · exact returnValue_firm he
  · have hs : Stmt.breakOut.node.Firm := Node.firm_branch (by decide) trivial
    exact yields_after _ fun _ => yields_value fun _ => hs
  · have hs : Stmt.continueLoop.node.Firm := Node.firm_branch (by decide) trivial
    exact yields_after _ fun _ => yields_value fun _ => hs
  · refine Yields.andThen (constant_mild he) ?_
    intro c mid hc
    refine yields_done ?_
    rw [Stmt.node]
    exact Variable.firm_constantNode (by decide) hc c.1

theorem statementOf_firm (hre : expr.ReadsNode Expr.node)
    (he : expr.Yields fun e _ => e.node.Mild) (hr : stmt.ReadsNode Stmt.node)
    (h : stmt.Yields fun s _ => s.node.Firm) :
    (statementOf expr stmt).Yields fun s _ => s.node.Firm := by
  intro ts
  unfold statementOf
  split
  · exact (block_firm hr h _).bind fun body mid hbody => yields_done hbody
  · split
    · next p hp =>
      obtain ⟨k, -, hk⟩ := Option.bind_eq_some_iff.mp hp
      exact keywordStmt_firm hre he hr h hk _
    · exact plainStmt_firm he _
  · exact plainStmt_firm he _

/-- Whatever levels are left, the errors in a statement end at boundaries. -/
theorem statement_firm (levels : Nat) :
    Parser.Yields (statement levels) fun s _ => s.node.Firm := by
  induction levels with
  | zero => exact yields_limit
  | succ levels ih =>
    exact statementOf_firm (expression_reads levels) (ranked_mild levels).1
      (statement_reads levels) ih

end Grammar

end ShaderSyntax
