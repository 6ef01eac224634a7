import ShaderSyntax.Grammar.Expression
import ShaderSyntax.Proofs.Shape
import ShaderSyntax.Proofs.Yielding

/-!
# Expressions are in shape

Each production of expressions yields what binds as tightly as its place in the grammar asks for. A
type is an expression for a moment only: it is yielded where a parenthesis follows, and then grows
into a call.
-/
namespace ShaderSyntax

open ShaderSyntax.Parser ShaderSyntax.Outcome

/-- An expression in shape that binds no more loosely than the limit. -/
def Expr.Binds (limit : Nat) (e : Expr) : Prop :=
  e.node.kind.looseness ≤ limit ∧ e.node.Shaped

namespace Expr.Binds

variable {limit : Nat} {e l r f c t i : Expr} {es : List Expr}

theorem mono {more : Nat} (hm : limit ≤ more) (h : e.Binds limit) : e.Binds more :=
  ⟨Nat.le_trans h.1 hm, h.2⟩

theorem admitted {k : Kind} {label : Label} (h : e.Binds 3)
    (hk : ∀ child : Kind, k.admits label child = decide (child.looseness ≤ 3)) :
    k.admits label e.node.kind = true ∧ e.node.Shaped :=
  Node.admitted h.1 h.2 hk

theorem error (s : Skipped) : (Expr.error s).Binds 0 := by
  rw [Binds, node]
  exact ⟨Nat.le_refl 0, trivial⟩

theorem name (n : Name) : (Expr.name n).Binds 0 := by
  rw [Binds, node]
  exact ⟨Nat.le_of_eq n.shaped_node.1, n.shaped_node.2⟩

theorem number (n : Number) : (Expr.number n).Binds 0 := by
  rw [Binds, node]
  exact ⟨Nat.le_of_eq n.shaped_node.1, n.shaped_node.2⟩

theorem bool (b : Bool) : (Expr.bool b).Binds 0 := by
  rw [Binds, node]
  exact ⟨Nat.le_refl 0, rfl⟩

theorem paren (h : e.Binds 3) : (Expr.paren e).Binds 0 := by
  rw [Binds, node]
  refine ⟨Nat.le_refl 0, Node.shaped_branch rfl ?_⟩
  simpa using h.admitted fun _ => rfl

theorem array (hne : es ≠ []) (h : ∀ e ∈ es, e.Binds 3) : (Expr.array es).Binds 0 := by
  rw [Binds, node]
  refine ⟨Nat.le_refl 0, ?_, ?_⟩
  · obtain ⟨e, es, rfl⟩ := List.exists_cons_of_ne_nil hne
    constructor
    · intro label hl
      obtain rfl := List.mem_singleton.mp hl
      refine ⟨e.node, ?_⟩
      have he : Item.child .value e.node ∈ Item.separated .value (nodes (e :: es)) :=
        Item.child_mem_separated (by simp [nodes])
      simp [he]
    · exact fun hk => absurd hk (by decide)
    · exact fun hk => absurd hk (by decide)
  · have hall : ∀ e ∈ es, Kind.admits .arrayLiteralExpr .value e.node.kind = true ∧ e.node.Shaped :=
      fun e he => (h e he).admitted fun _ => rfl
    simpa [nodes_eq_map] using hall

theorem qualified (q : Text) (h : e.Binds 3) :
    (Expr.qualified q e).node.kind = .qualifiedArgument ∧ (Expr.qualified q e).node.Shaped := by
  rw [node]
  refine ⟨rfl, Node.shaped_branch rfl ?_⟩
  have hq : Kind.admits .qualifiedArgument .paramQualifier .paramQualifier = true ∧
      (Node.leaf .paramQualifier (.word q)).Shaped := ⟨rfl, rfl⟩
  simpa using ⟨hq, h.admitted fun _ => rfl⟩

end Expr.Binds

/-- What may stand between the parentheses of a call. -/
def Expr.Argument (e : Expr) : Prop :=
  Kind.admits .callExpr .argument e.node.kind = true ∧ e.node.Shaped

/-- What may stand before the parentheses of a call. -/
def Expr.Callee (e : Expr) : Prop :=
  Kind.admits .callExpr .function e.node.kind = true ∧ e.node.Shaped

namespace Expr.Binds

variable {limit : Nat} {e l r f c t i : Expr} {es : List Expr}

theorem argument (h : e.Binds 3) : e.Argument := by
  refine ⟨?_, h.2⟩
  simp [Kind.admits, h.1]

theorem callee (h : e.Binds 0) : e.Callee :=
  ⟨Kind.admits_of_looseness (Nat.le_zero.mp h.1) nofun nofun, h.2⟩

theorem call (hf : f.Callee) (h : ∀ e ∈ es, e.Argument) : (Expr.call f es).Binds 0 := by
  rw [Binds, node]
  refine ⟨Nat.le_refl 0, Node.shaped_branch rfl ?_⟩
  simpa [nodes_eq_map] using ⟨hf, h⟩

theorem subscript (h : e.Binds 0) (hi : i.Binds 3) : (Expr.subscript e i).Binds 0 := by
  rw [Binds, node]
  refine ⟨Nat.le_refl 0, Node.shaped_branch rfl ?_⟩
  have he : Kind.admits .subscriptExpr .argument e.node.kind = true :=
    Kind.admits_of_looseness (Nat.le_zero.mp h.1) (by decide) (by decide)
  simpa using ⟨⟨he, h.2⟩, hi.admitted fun _ => rfl⟩

theorem member (h : e.Binds 0) (n : Name) : (Expr.member e n).Binds 0 := by
  rw [Binds, node]
  refine ⟨Nat.le_refl 0, Node.shaped_branch rfl ?_⟩
  have he : Kind.admits .memberExpr .argument e.node.kind = true :=
    Kind.admits_of_looseness (Nat.le_zero.mp h.1) (by decide) (by decide)
  have hn : Kind.admits .memberExpr .member n.node.kind = true :=
    Kind.admits_of_looseness n.shaped_node.1 (by decide) (by decide)
  simpa using ⟨⟨he, h.2⟩, hn, n.shaped_node.2⟩

theorem unary (op : UnaryOp) (h : e.Binds 1) : (Expr.unary op e).Binds 1 := by
  rw [Binds, node]
  refine ⟨Nat.le_refl 1, Node.shaped_branch rfl ?_⟩
  have he : Kind.admits .unaryExpr .argument e.node.kind = true := decide_eq_true h.1
  simpa using ⟨he, h.2⟩

theorem binary (op : BinaryOp) (hl : l.Binds 2) (hr : r.Binds 1) :
    (Expr.binary op l r).Binds 2 := by
  rw [Binds, node]
  refine ⟨Nat.le_refl 2, Node.shaped_branch rfl ?_⟩
  have h₁ : Kind.admits .binaryExpr .left l.node.kind = true := decide_eq_true hl.1
  have h₂ : Kind.admits .binaryExpr .right r.node.kind = true := decide_eq_true hr.1
  simpa using ⟨⟨h₁, hl.2⟩, h₂, hr.2⟩

theorem conditional (hc : c.Binds 2) (ht : t.Binds 3) (he : e.Binds 3) :
    (Expr.conditional c t e).Binds 3 := by
  rw [Binds, node]
  refine ⟨Nat.le_refl 3, Node.shaped_branch rfl ?_⟩
  have h₁ : Kind.admits .conditionalExpr .condition c.node.kind = true := decide_eq_true hc.1
  simpa using ⟨⟨h₁, hc.2⟩, ht.admitted fun _ => rfl, he.admitted fun _ => rfl⟩

end Expr.Binds

theorem Expr.callee_typeName (w : Text) : (Expr.typeName w).Callee := by
  rw [Callee, node]
  exact ⟨rfl, rfl⟩

namespace Grammar

variable {expr operand : Parser Expr}

theorem argument_yields (h : expr.Yields fun e _ => e.Binds 3) :
    (argument expr).Yields fun e _ => e.Argument := by
  apply yields_after
  intro q
  refine Yields.andThen h ?_
  intro e mid he
  cases q with
  | none => exact yields_done he.argument
  | some w =>
    obtain ⟨hk, hs⟩ := Expr.Binds.qualified w he
    refine yields_done ⟨?_, hs⟩
    rw [hk]
    rfl

theorem arguments_yields (h : expr.Yields fun e _ => e.Binds 3) :
    (arguments expr).Yields fun es _ => ∀ e ∈ es, e.Argument := by
  apply Yields.onPunct
  · exact yields_value fun _ => by simp
  · refine Yields.andThen (argument_yields h).separated ?_
    intro es mid hes
    exact yields_after _ (fun _ => yields_value fun _ => hes.2) mid

theorem parenthesized_yields (h : expr.Yields fun e _ => e.Binds 3) :
    (parenthesized expr).Yields fun e _ => e.Binds 3 := by
  apply yields_after
  intro _
  refine Yields.andThen h ?_
  intro e mid he
  exact yields_after _ (fun _ => yields_value fun _ => he) mid

theorem elements_yields (h : expr.Yields fun e _ => e.Binds 3) :
    (elements expr).Yields fun es _ => es ≠ [] ∧ ∀ e ∈ es, e.Binds 3 := by
  refine Yields.andThen h.separated ?_
  intro es mid hes
  exact yields_after _ (fun _ => yields_value fun _ => hes) mid

/-- A primary expression binds tightest, or it is a type before its parenthesis. -/
def Opens (e : Expr) (rest : List Lexeme) : Prop :=
  e.Binds 0 ∨ e.Callee ∧ ∃ more, rest = .punct .openParen :: more

theorem wordExpr_yields (w : Text) : (wordExpr w).Yields Opens := by
  intro ts
  unfold wordExpr
  split
  · exact yields_done (.inl (.bool _))
  · split
    · next hw =>
      obtain ⟨-, hnext⟩ := hw
      refine yields_done (.inr ⟨Expr.callee_typeName w, ?_⟩)
      cases ts with
      | nil => cases hnext
      | cons l ts =>
        cases ts with
        | nil => cases hnext
        | cons l' ts =>
          cases hnext
          exact ⟨ts, rfl⟩
    · exact yields_after name (fun n => yields_value fun _ => .inl (.name n)) ts

theorem strayExpr_yields (l : Lexeme) : (strayExpr l).Yields Opens :=
  fun _ => yields_done (.inl (.error _))

theorem primary_yields (h : expr.Yields fun e _ => e.Binds 3) :
    (primary expr).Yields Opens := by
  intro ts
  unfold primary
  split
  · exact yields_failed
  · exact yields_done (.inl (.number _))
  · exact yields_done (.inl (.number _))
  · exact wordExpr_yields _ _
  · exact (parenthesized_yields h _).bind fun e mid he => yields_done (.inl he.paren)
  · exact (elements_yields h _).bind fun es mid hes => yields_done (.inl (.array hes.1 hes.2))
  · split
    · exact yields_failed
    · exact strayExpr_yields _ _
  · exact strayExpr_yields _ _

/-- What grows by a suffix is a base again, and a call needs no more than a callee. -/
theorem suffix_yields (h : expr.Yields fun e _ => e.Binds 3) (e : Expr) (l : Lexeme)
    (q : Parser Expr) (he : e.Binds 0 ∨ e.Callee ∧ l = .punct .openParen)
    (hq : suffix expr e l = some q) : q.Yields fun e _ => e.Binds 0 := by
  unfold suffix at hq
  split at hq
  · cases hq
    have hf : e.Callee := by
      rcases he with he | he
      · exact he.callee
      · exact he.1
    exact (arguments_yields h).andThen fun es mid hes => yields_done (.call hf hes)
  · cases hq
    rcases he with he | ⟨-, he⟩
    · refine Yields.andThen h ?_
      intro i mid hi
      exact yields_after _ (fun _ => yields_value fun _ => .subscript he hi) mid
    · cases he
  · cases hq
    rcases he with he | ⟨-, he⟩
    · exact yields_after name fun n => yields_value fun _ => .member he n
    · cases he
  · cases hq

theorem suffixed_yields (h : expr.Yields fun e _ => e.Binds 3) :
    (suffixed expr).Yields fun e _ => e.Binds 0 := by
  have hstep : ∀ e l q, e.Binds 0 → suffix expr e l = some q → q.Yields fun e _ => e.Binds 0 :=
    fun e l q he hq => suffix_yields h e l q (.inl he) hq
  refine Yields.andThen (primary_yields h) ?_
  rintro e mid (he | ⟨he, more, rfl⟩)
  · exact Yields.grow hstep e he mid
  · exact yields_grow_first hstep rfl (suffix_yields h e _ _ (.inr ⟨he, rfl⟩) rfl) more

theorem operation_yields (h : operand.Yields fun e _ => e.Binds 1) (e : Expr) (l : Lexeme)
    (q : Parser Expr) (he : e.Binds 2) (hq : operation operand e l = some q) :
    q.Yields fun e _ => e.Binds 2 := by
  unfold operation at hq
  split at hq
  · obtain ⟨op, -, rfl⟩ := Option.map_eq_some_iff.mp hq
    exact h.andThen fun r mid hr => yields_done (.binary op he hr)
  · cases hq

theorem chain_yields (h : operand.Yields fun e _ => e.Binds 1) :
    (chain operand).Yields fun e _ => e.Binds 2 :=
  h.andThen fun e mid he => Yields.grow (operation_yields h) e (he.mono (by omega)) mid

theorem conditional_yields (ho : operand.Yields fun e _ => e.Binds 1)
    (h : expr.Yields fun e _ => e.Binds 3) :
    (conditional operand expr).Yields fun e _ => e.Binds 3 := by
  refine Yields.andThen (chain_yields ho) ?_
  intro c mid hc
  refine Yields.onPunct .question ?_ ?_ mid
  · refine Yields.andThen h ?_
    intro t mid ht
    refine yields_after _ (fun _ => ?_) mid
    exact h.andThen fun e mid he => yields_done (.conditional hc ht he)
  · exact yields_value fun _ => hc.mono (by omega)

theorem signed_yields (h : operand.Yields fun e _ => e.Binds 1) (op : UnaryOp) :
    (signed operand op).Yields fun e _ => e.Binds 1 := by
  have hop : (operand.andThen fun e => value (Expr.unary op e)).Yields fun e _ => e.Binds 1 :=
    h.andThen fun e mid he => yields_done (.unary op he)
  intro ts
  exact (yields_any skip ts).bind fun _ mid _ => hop mid

theorem unsignedOr_yields {sign : UnaryOp → Parser Expr}
    (hs : ∀ op, (sign op).Yields fun e _ => e.Binds 1) (h : expr.Yields fun e _ => e.Binds 3) :
    (unsignedOr sign expr).Yields fun e _ => e.Binds 1 := by
  have hsuffixed : (suffixed expr).Yields fun e _ => e.Binds 1 :=
    (suffixed_yields h).mono fun e _ he => he.mono (by omega)
  intro ts
  unfold unsignedOr
  split
  · split
    · exact hs _ _
    · exact hsuffixed _
  · exact hsuffixed _

/-- Whatever levels are left, expressions and operands are in shape. -/
theorem ranked_yields (levels : Nat) :
    ((expression levels).Yields fun e _ => e.Binds 3) ∧
      (Grammar.operand levels).Yields fun e _ => e.Binds 1 := by
  induction levels with
  | zero => exact ⟨yields_limit, unsignedOr_yields (fun _ => yields_limit) yields_limit⟩
  | succ levels ih =>
    have he : (expression (levels + 1)).Yields fun e _ => e.Binds 3 := conditional_yields ih.2 ih.1
    exact ⟨he, unsignedOr_yields (signed_yields ih.2) he⟩

theorem expression_yields (levels : Nat) : (expression levels).Yields fun e _ => e.Binds 3 :=
  (ranked_yields levels).1

end Grammar

end ShaderSyntax
