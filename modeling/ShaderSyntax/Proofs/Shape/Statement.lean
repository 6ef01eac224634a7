import ShaderSyntax.Grammar.Statement
import ShaderSyntax.Proofs.Shape.Expression

/-!
# Statements are in shape

What an assignment or an adjustment changes is checked before it becomes a target. A statement that
ends with an open `if` is never followed by an `else`: the innermost `if` would have taken it. So
the statement between an `if` and its `else` does not end so.
-/
namespace ShaderSyntax

open ShaderSyntax.Parser ShaderSyntax.Outcome

/-- A type may name a type, and no argument is one. -/
theorem TypeRef.shaped_node (t : TypeRef) :
    t.node.kind ≠ .qualifiedArgument ∧ t.node.Shaped := by
  induction t with
  | builtin w => exact ⟨nofun, rfl⟩
  | named w => exact ⟨nofun, rfl⟩
  | invalid cls w => exact ⟨nofun, rfl⟩
  | array base size ih =>
    refine ⟨nofun, Node.shaped_branch rfl ?_⟩
    have hb : Kind.admits .arrayType .baseType base.node.kind = true := bne_iff_ne.mpr ih.1
    exact ⟨⟨hb, ih.2⟩, ⟨rfl, rfl⟩, trivial⟩

namespace Specifier

/-- Written sizes hold a size. -/
theorem shaped_sizesNode (sizes : List Text) :
    ∀ n ∈ sizesNode? sizes, n.kind.looseness ≤ 3 ∧ n.Shaped := by
  intro n hn
  cases sizes with
  | nil => cases hn
  | cons size sizes =>
    cases hn
    refine ⟨Nat.zero_le 3, ?_, ?_⟩
    · constructor
      · intro label hl
        obtain rfl := List.mem_singleton.mp hl
        exact ⟨(Number.int size).node, by simp [sizeItems]⟩
      · exact fun hk => absurd hk (by decide)
      · exact fun hk => absurd hk (by decide)
    · induction size :: sizes with
      | nil => trivial
      | cons size sizes ih => exact ⟨⟨rfl, rfl⟩, ih⟩

/-- The parts of a specifier are in shape in every owner that treats types as types. -/
theorem shaped_items (s : Specifier) {k : Kind}
    (ht : ∀ child, k.admits .ofType child = (child != .qualifiedArgument))
    (hn : ∀ child : Kind, k.admits .named child = decide (child.looseness ≤ 3))
    (hs : ∀ child : Kind, k.admits .sizes child = decide (child.looseness ≤ 3)) :
    Item.Shaped k s.items := by
  have htype : k.admits .ofType s.type.node.kind = true := by
    rw [ht]
    exact bne_iff_ne.mpr s.type.shaped_node.1
  have hname : s.name.node.kind.looseness ≤ 3 := by rw [s.name.shaped_node.1]; omega
  have hsizes : ∀ n ∈ sizesNode? s.sizes, k.admits .sizes n.kind = true ∧ n.Shaped :=
    fun n h => Node.admitted (shaped_sizesNode s.sizes n h).1 (shaped_sizesNode s.sizes n h).2 hs
  have hhead : Item.Shaped k [.child .ofType s.type.node, .child .named s.name.node] :=
    ⟨⟨htype, s.type.shaped_node.2⟩, Node.admitted hname s.name.shaped_node.2 hn, trivial⟩
  exact (Item.shaped_append _ _).mpr ⟨hhead, (Item.shaped_child? _).mpr hsizes⟩

theorem shaped_node (s : Specifier) : s.node.Shaped :=
  Node.shaped_branch rfl (s.shaped_items (fun _ => rfl) (fun _ => rfl) fun _ => rfl)

end Specifier

/-- A qualifier, if there is one, is a leaf that its place admits. -/
theorem shaped_qualifier {k child : Kind} {label : Label} (h : k.admits label child = true)
    (hc : child.required = []) (q : Option Text) :
    Item.Shaped k (Item.child? label (q.map (qualifierNode child))) := by
  cases q with
  | none => trivial
  | some w => exact ⟨⟨h, hc⟩, trivial⟩

/-- The value of a variable is an expression in shape. -/
def Variable.Valued (v : Variable) : Prop :=
  ∀ e ∈ v.value, e.Binds 3

namespace Variable

variable {v : Variable}

theorem Valued.items (h : v.Valued) {k : Kind}
    (hs : ∀ child : Kind, k.admits .specifier child = decide (child.looseness ≤ 3))
    (hv : ∀ child : Kind, k.admits .value child = decide (child.looseness ≤ 3)) :
    Item.Shaped k v.items := by
  have hspec : k.admits .specifier v.specifier.node.kind = true ∧ v.specifier.node.Shaped :=
    Node.admitted (Nat.zero_le 3) v.specifier.shaped_node hs
  have hval : ∀ n ∈ v.value.map Expr.node, k.admits .value n.kind = true ∧ n.Shaped := by
    intro n hn
    obtain ⟨e, he, rfl⟩ := Option.map_eq_some_iff.mp hn
    exact (h e he).admitted hv
  simpa [Variable.items] using ⟨hspec, by simpa using hval⟩

theorem Valued.node (h : v.Valued) : v.node.Shaped :=
  Node.shaped_branch rfl (h.items (fun _ => rfl) fun _ => rfl)

/-- Constants have one form in functions and outside. -/
theorem Valued.constantNode (h : v.Valued) {k : Kind} (hk : k.isPlain = true)
    (hs : ∀ child : Kind, k.admits .specifier child = decide (child.looseness ≤ 3))
    (hv : ∀ child : Kind, k.admits .value child = decide (child.looseness ≤ 3))
    (hp : k.admits .precision .precisionQualifier = true) (p : Option Text) :
    (v.constantNode k p).Shaped := by
  apply Node.shaped_branch hk
  simp only [List.cons_append, Item.shaped_keyword, Item.shaped_append]
  exact ⟨shaped_qualifier hp rfl p, h.items hs hv⟩

end Variable

/-- The parts of an action are in shape, as a statement and as the update of a loop. -/
structure Action.Shaped (a : Action) : Prop where
  items : Item.Shaped a.kind a.items
  update : a.updateNode.kind.looseness ≤ 3 ∧ a.updateNode.Shaped

namespace Action

theorem isPlain_kind (a : Action) : a.kind.isPlain = true := by
  cases a <;> rfl

theorem Shaped.statementNode {a : Action} (h : a.Shaped) : a.statementNode.Shaped :=
  Node.shaped_branch a.isPlain_kind ((Item.shaped_append _ _).mpr ⟨h.items, trivial⟩)

theorem shaped_evaluate {e : Expr} (h : e.Binds 3) : (evaluate e).Shaped where
  items := ⟨h.admitted fun _ => rfl, trivial⟩
  update := h

variable {t v : Expr}

/-- What an assignment may change is of a kind that its place admits. -/
theorem isTarget_of_isAssignable (h : t.isAssignable = true) : t.node.kind.isTarget = true := by
  cases t with
  | name n =>
    rw [Expr.node]
    cases n with
    | valid cls w => cases cls <;> rfl
    | invalid cls w => rfl
  | subscript e i => rw [Expr.node]; rfl
  | member e n => rw [Expr.node]; rfl
  | _ => cases h

theorem shaped_assign (ht : t.isAssignable = true) (h : t.node.Shaped) (op : AssignOp)
    (hv : v.Binds 3) : (assign t op v).Shaped := by
  have hi : Item.Shaped .assignmentStatement (assign t op v).items :=
    ⟨⟨isTarget_of_isAssignable ht, h⟩, hv.admitted fun _ => rfl, trivial⟩
  exact ⟨hi, Nat.zero_le 3, Node.shaped_branch rfl hi⟩

theorem shaped_adjustAfter (ht : t.isAssignable = true) (h : t.node.Shaped) (op : AdjustOp) :
    (adjustAfter t op).Shaped := by
  have hi : Item.Shaped .adjustmentStatement (adjustAfter t op).items :=
    ⟨⟨isTarget_of_isAssignable ht, h⟩, trivial⟩
  exact ⟨hi, Nat.zero_le 3, Node.shaped_branch rfl hi⟩

theorem shaped_adjustBefore (ht : t.isAssignable = true) (h : t.node.Shaped) (op : AdjustOp) :
    (adjustBefore op t).Shaped := by
  have hi : Item.Shaped .adjustmentStatement (adjustBefore op t).items :=
    ⟨⟨isTarget_of_isAssignable ht, h⟩, trivial⟩
  exact ⟨hi, Nat.zero_le 3, Node.shaped_branch rfl hi⟩

end Action

/-- No statement is an operation. -/
theorem Stmt.looseness_node (s : Stmt) : s.node.kind.looseness = 0 := by
  cases s with
  | perform a => cases a <;> rfl
  | _ => rfl

theorem Clause.looseness_node (c : Clause) : c.node.kind.looseness = 0 := by
  cases c <;> rfl

namespace Stmt

variable {s t e : Stmt} {c : Expr} {body : List Stmt}

theorem admitted {k : Kind} {label : Label} (h : s.node.Shaped)
    (hk : ∀ child : Kind, k.admits label child = decide (child.looseness ≤ 3)) :
    k.admits label s.node.kind = true ∧ s.node.Shaped :=
  Node.admitted (by rw [s.looseness_node]; omega) h hk

theorem shaped_children (h : ∀ s ∈ body, s.node.Shaped) {k : Kind}
    (hk : ∀ child : Kind, k.admits .statement child = decide (child.looseness ≤ 3)) :
    Item.Shaped k (Item.children .statement (nodes body)) := by
  rw [Item.shaped_children, nodes_eq_map]
  intro n hn
  obtain ⟨s, hs, rfl⟩ := List.mem_map.mp hn
  exact admitted (h s hs) hk

theorem shaped_block (h : ∀ s ∈ body, s.node.Shaped) : (block body).node.Shaped := by
  rw [node]
  apply Node.shaped_branch rfl
  simpa [blockNode] using shaped_children h (k := .block) fun _ => rfl

/-- The parts of an `if`, without its `else`. -/
theorem shaped_branch (hc : c.Binds 3) (ht : t.node.Shaped) :
    Item.Shaped .ifStatement
      [.keyword .ifThen, .child .condition c.parenNode, .child .action t.node] := by
  have hp : Kind.admits .ifStatement .condition c.parenNode.kind = true ∧ c.parenNode.Shaped :=
    (hc.paren.mono (Nat.zero_le 3)).admitted fun _ => rfl
  exact ⟨hp, admitted ht fun _ => rfl, trivial⟩

theorem shaped_ifThen (hc : c.Binds 3) (ht : t.node.Shaped) : (ifThen c t).node.Shaped := by
  rw [node]
  refine ⟨?_, shaped_branch hc ht⟩
  constructor
  · simp [Kind.required]
  · exact fun hk => absurd hk (by decide)
  · intro _ e he
    simp [Item.keyword] at he

/-- An `else` is right where the statement before it does not end with an open `if`. -/
theorem shaped_ifElse (hc : c.Binds 3) (ht : t.node.Shaped) (hopen : t.endsOpen = false)
    (he : e.node.Shaped) : (ifElse c t e).node.Shaped := by
  rw [node]
  constructor
  · constructor
    · simp [Kind.required]
    · exact fun hk => absurd hk (by decide)
    · intro _ e' _ n hn
      have hn : n = t.node := by simpa [Item.keyword] using hn
      exact ⟨t, hn, hopen⟩
  · have hrest : Item.Shaped .ifStatement [.keyword .otherwise, .child .alternate e.node] :=
      ⟨admitted he fun _ => rfl, trivial⟩
    exact (Item.shaped_append _ _).mpr ⟨shaped_branch hc ht, hrest⟩

theorem shaped_whileLoop (hc : c.Binds 3) (ht : t.node.Shaped) :
    (whileLoop c t).node.Shaped := by
  rw [node]
  have hp : Kind.admits .whileStatement .condition c.parenNode.kind = true ∧ c.parenNode.Shaped :=
    (hc.paren.mono (Nat.zero_le 3)).admitted fun _ => rfl
  exact Node.shaped_branch rfl ⟨hp, admitted ht fun _ => rfl, trivial⟩

theorem shaped_forLoop {v : Variable} {u : Action} (hv : v.Valued) (hc : c.Binds 3)
    (hu : u.Shaped) (ht : t.node.Shaped) : (forLoop v c u t).node.Shaped := by
  rw [node]
  have hcond : (Action.evaluate c).statementNode.Shaped := (Action.shaped_evaluate hc).statementNode
  exact Node.shaped_branch rfl
    ⟨Node.admitted (Nat.zero_le 3) hv.node fun _ => rfl,
      Node.admitted (Nat.zero_le 3) hcond fun _ => rfl,
      Node.admitted hu.update.1 hu.update.2 fun _ => rfl, admitted ht fun _ => rfl, trivial⟩

theorem shaped_switchOn {cs : List Clause} (hc : c.Binds 3) (hcs : ∀ c ∈ cs, c.node.Shaped) :
    (switchOn c cs).node.Shaped := by
  rw [node]
  apply Node.shaped_branch rfl
  have hcond : Kind.admits .switchStatement .condition c.node.kind = true ∧ c.node.Shaped :=
    hc.admitted fun _ => rfl
  have hclauses : ∀ n ∈ Clause.nodes cs,
      Kind.admits .switchStatement .clause n.kind = true ∧ n.Shaped := by
    rw [Clause.nodes_eq_map]
    intro n hn
    obtain ⟨c, hc, rfl⟩ := List.mem_map.mp hn
    exact Node.admitted (by rw [c.looseness_node]; omega) (hcs c hc) fun _ => rfl
  simpa using ⟨hcond, hclauses⟩

theorem shaped_returnValue {v : Option Expr} (h : ∀ e ∈ v, e.Binds 3) :
    (returnValue v).node.Shaped := by
  rw [node]
  apply Node.shaped_branch rfl
  have hv : ∀ n ∈ v.map Expr.node,
      Kind.admits .returnStatement .value n.kind = true ∧ n.Shaped := by
    intro n hn
    obtain ⟨e, he, rfl⟩ := Option.map_eq_some_iff.mp hn
    exact (h e he).admitted fun _ => rfl
  simpa using hv

end Stmt

namespace Clause

variable {body : List Stmt}

theorem shaped_onValue {e : Expr} (he : e.Binds 3) (h : ∀ s ∈ body, s.node.Shaped) :
    (onValue e body).node.Shaped := by
  rw [node]
  apply Node.shaped_branch rfl
  exact (Item.shaped_append _ _).mpr
    ⟨⟨he.admitted fun _ => rfl, trivial⟩, Stmt.shaped_children h fun _ => rfl⟩

theorem shaped_otherwise (h : ∀ s ∈ body, s.node.Shaped) : (otherwise body).node.Shaped := by
  rw [node]
  apply Node.shaped_branch rfl
  exact (Item.shaped_append _ _).mpr ⟨trivial, Stmt.shaped_children h fun _ => rfl⟩

end Clause

namespace Grammar

variable {expr : Parser Expr} {stmt : Parser Stmt}

theorem initializer_yields (h : expr.Yields fun e _ => e.Binds 3) :
    (initializer expr).Yields fun v _ => ∀ e ∈ v, e.Binds 3 := by
  apply Yields.onPunct
  · refine Yields.andThen h ?_
    intro e mid he
    exact yields_done (by simpa using he)
  · exact yields_value fun _ => by simp

theorem variableThrough_yields (h : expr.Yields fun e _ => e.Binds 3) (place : Place) :
    (variableThrough place expr).Yields fun v _ => v.Valued := by
  apply yields_after
  intro s
  refine Yields.andThen (initializer_yields h) ?_
  intro v mid hv
  exact yields_after _ (fun _ => yields_value fun _ => hv) mid

theorem constant_yields (h : expr.Yields fun e _ => e.Binds 3) :
    (constant expr).Yields fun c _ => c.2.Valued := by
  apply yields_after
  intro p
  exact (variableThrough_yields h _).andThen fun v mid hv => yields_done hv

theorem adjusted_yields (h : expr.Yields fun e _ => e.Binds 3) (op : AdjustOp) :
    (adjusted expr op).Yields fun a _ => a.Shaped := by
  refine Yields.andThen (suffixed_yields h) ?_
  intro t mid ht
  split
  · next ha => exact yields_done (Action.shaped_adjustBefore ha ht.2 op)
  · exact yields_failed

theorem actionOn_yields (h : expr.Yields fun e _ => e.Binds 3) {t : Expr} (ht : t.Binds 3) :
    (actionOn expr t).Yields fun a _ => a.Shaped := by
  intro ts
  unfold actionOn
  split
  · split
    · split
      · next ha => exact (h _).bind fun v mid hv => yields_done (Action.shaped_assign ha ht.2 _ hv)
      · exact yields_failed
    · split
      · next ha => exact yields_done (Action.shaped_adjustAfter ha ht.2 _)
      · exact yields_failed
    · exact yields_done (Action.shaped_evaluate ht)
  · exact yields_done (Action.shaped_evaluate ht)

theorem action_yields (h : expr.Yields fun e _ => e.Binds 3) :
    (action expr).Yields fun a _ => a.Shaped := by
  have hplain : (plainAction expr).Yields fun a _ => a.Shaped :=
    h.andThen fun e mid he => actionOn_yields h he mid
  intro ts
  unfold action
  split
  · split
    · exact adjusted_yields h _ _
    · exact hplain _
  · exact hplain _

/-- A statement in shape, and an `else` after it only where it would not take it. -/
def Settled (s : Stmt) (rest : List Lexeme) : Prop :=
  s.node.Shaped ∧ (s.endsOpen = true → rest.head? ≠ some (.word Keyword.otherwise.spelling))

theorem settled_of_closed {s : Stmt} {rest : List Lexeme} (h : s.node.Shaped)
    (hs : s.endsOpen = false) : Settled s rest :=
  ⟨h, fun ho => absurd ho (by simp [hs])⟩

theorem perform_yields (h : expr.Yields fun e _ => e.Binds 3) :
    (perform expr).Yields Settled := by
  refine Yields.andThen (action_yields h) ?_
  intro a mid ha
  have hs : (Stmt.perform a).node.Shaped := ha.statementNode
  exact yields_after _ (fun _ => yields_value fun _ => settled_of_closed hs rfl) mid

theorem recoveredStmt_yields (h : stmt.Yields Settled) :
    (recoveredStmt stmt).Yields fun s _ => s.node.Shaped :=
  (h.mono fun _ _ hs => hs.1).recovering fun _ => trivial

theorem block_yields (h : stmt.Yields Settled) :
    (block stmt).Yields fun body _ => (Stmt.block body).node.Shaped := by
  apply yields_after
  intro _
  refine Yields.andThen ((recoveredStmt_yields h).manyUntil _) ?_
  intro body mid hbody
  exact yields_after _ (fun _ => yields_value fun _ => Stmt.shaped_block hbody) mid

/-- The one place where an `else` is taken, and it decides who owns it. -/
theorem branching_yields (he : expr.Yields fun e _ => e.Binds 3) (h : stmt.Yields Settled) :
    (branching expr stmt).Yields Settled := by
  refine Yields.andThen (parenthesized_yields he) ?_
  intro c mid hc
  refine (h mid).bind ?_
  intro t mid ht
  apply yields_onKeyword
  · intro rest hrest
    have hclosed : t.endsOpen = false := by
      cases ho : t.endsOpen with
      | false => rfl
      | true => exact absurd (by rw [hrest]; rfl) (ht.2 ho)
    refine (h rest).bind ?_
    intro e last he
    exact yields_done ⟨Stmt.shaped_ifElse hc ht.1 hclosed he.1, he.2⟩
  · intro hnext
    exact yields_done ⟨Stmt.shaped_ifThen hc ht.1, fun _ => hnext⟩

theorem whileLoop_yields (he : expr.Yields fun e _ => e.Binds 3) (h : stmt.Yields Settled) :
    (whileLoop expr stmt).Yields Settled := by
  refine Yields.andThen (parenthesized_yields he) ?_
  intro c mid hc
  refine (h mid).bind ?_
  intro t last ht
  exact yields_done ⟨Stmt.shaped_whileLoop hc ht.1, ht.2⟩

theorem forLoop_yields (he : expr.Yields fun e _ => e.Binds 3) (h : stmt.Yields Settled) :
    (forLoop expr stmt).Yields Settled := by
  apply yields_after
  intro _
  refine Yields.andThen (variableThrough_yields he _) ?_
  intro v mid hv
  refine (he mid).bind ?_
  intro c mid hc
  refine yields_after (require .afterLoopCondition) (fun _ => ?_) mid
  refine Yields.andThen (action_yields he) ?_
  intro u mid hu
  refine yields_after (require .afterLoopUpdate) (fun _ => ?_) mid
  refine Yields.andThen h ?_
  intro t last ht
  exact yields_done ⟨Stmt.shaped_forLoop hv hc hu ht.1, ht.2⟩

theorem clauseBody_yields (h : stmt.Yields Settled) :
    (clauseBody stmt).Yields fun body _ => ∀ s ∈ body, s.node.Shaped :=
  yields_after _ fun _ => (recoveredStmt_yields h).manyUntil _

theorem clause_yields (he : expr.Yields fun e _ => e.Binds 3) (h : stmt.Yields Settled) :
    (clause expr stmt).Yields fun c _ => c.node.Shaped := by
  apply Yields.onKeyword
  · refine Yields.andThen he ?_
    intro e mid he
    refine (clauseBody_yields h mid).bind ?_
    intro body last hbody
    exact yields_done (Clause.shaped_onValue he hbody)
  · apply Yields.onKeyword
    · refine Yields.andThen (clauseBody_yields h) ?_
      intro body last hbody
      exact yields_done (Clause.shaped_otherwise hbody)
    · exact yields_fail _

theorem switchOn_yields (he : expr.Yields fun e _ => e.Binds 3) (h : stmt.Yields Settled) :
    (switchOn expr stmt).Yields Settled := by
  apply yields_after
  intro _
  refine Yields.andThen he ?_
  intro e mid he'
  refine yields_after (require .afterSwitchValue) (fun _ => ?_) mid
  refine yields_after (require .openSwitch) (fun _ => ?_)
  have hclause : (recovering Recovery.resumeClause .error (clause expr stmt)).Yields
      fun c _ => c.node.Shaped := (clause_yields he h).recovering fun _ => trivial
  refine Yields.andThen (hclause.manyUntil _) ?_
  intro cs mid hcs
  exact yields_after _
    (fun _ => yields_value fun _ => settled_of_closed (Stmt.shaped_switchOn he' hcs) rfl) mid

theorem returnValue_yields (h : expr.Yields fun e _ => e.Binds 3) :
    (returnValue expr).Yields Settled := by
  apply Yields.onPunct
  · exact yields_value fun _ => settled_of_closed (Stmt.shaped_returnValue (by simp)) rfl
  · refine Yields.andThen h ?_
    intro e mid he
    have hs : (Stmt.returnValue (some e)).node.Shaped := Stmt.shaped_returnValue (by simpa using he)
    exact yields_after _ (fun _ => yields_value fun _ => settled_of_closed hs rfl) mid

theorem plainStmt_yields (h : expr.Yields fun e _ => e.Binds 3) :
    (plainStmt expr).Yields Settled := by
  intro ts
  unfold plainStmt
  split
  · refine (variableThrough_yields h _ ts).bind ?_
    intro v mid hv
    exact yields_done (settled_of_closed (s := .declare v) hv.node rfl)
  · exact perform_yields h ts

theorem keywordStmt_yields (he : expr.Yields fun e _ => e.Binds 3) (h : stmt.Yields Settled)
    {k : Keyword} {p : Parser Stmt} (hp : keywordStmt expr stmt k = some p) :
    p.Yields Settled := by
  unfold keywordStmt at hp
  split at hp
  · cases hp
    exact branching_yields he h
  · cases hp
    exact whileLoop_yields he h
  · cases hp
    exact forLoop_yields he h
  · cases hp
    exact switchOn_yields he h
  · cases hp
    exact returnValue_yields he
  · cases hp
    have hs : Stmt.breakOut.node.Shaped := Node.shaped_branch rfl trivial
    exact yields_after _ fun _ => yields_value fun _ => settled_of_closed hs rfl
  · cases hp
    have hs : Stmt.continueLoop.node.Shaped := Node.shaped_branch rfl trivial
    exact yields_after _ fun _ => yields_value fun _ => settled_of_closed hs rfl
  · cases hp
    refine Yields.andThen (constant_yields he) ?_
    intro c mid hc
    have hs : (Stmt.constant c.1 c.2).node.Shaped :=
      hc.constantNode rfl (fun _ => rfl) (fun _ => rfl) rfl c.1
    exact yields_done (settled_of_closed hs rfl)
  · cases hp

theorem statementOf_yields (he : expr.Yields fun e _ => e.Binds 3) (h : stmt.Yields Settled) :
    (statementOf expr stmt).Yields Settled := by
  intro ts
  unfold statementOf
  split
  · refine (block_yields h _).bind ?_
    intro body mid hbody
    exact yields_done (settled_of_closed hbody rfl)
  · split
    · next p hp =>
      obtain ⟨k, -, hk⟩ := Option.bind_eq_some_iff.mp hp
      exact keywordStmt_yields he h hk _
    · exact plainStmt_yields he _
  · exact plainStmt_yields he _

/-- Whatever levels are left, statements are in shape. -/
theorem statement_yields (levels : Nat) : Parser.Yields (statement levels) Settled := by
  induction levels with
  | zero => exact yields_limit
  | succ levels ih => exact statementOf_yields (expression_yields levels) ih

end Grammar

end ShaderSyntax
