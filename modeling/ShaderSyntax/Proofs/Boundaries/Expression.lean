import ShaderSyntax.Grammar.Expression
import ShaderSyntax.Proofs.Boundaries

/-!
# Errors in expressions

A lexeme that no expression can hold stands as an error by itself, and it is none of the marks that
end what surrounds an expression: before those a production fails. Everything else in an expression
may stand anywhere.
-/
namespace ShaderSyntax

open ShaderSyntax.Parser ShaderSyntax.Outcome

theorem Name.firm_node (n : Name) : n.node.Firm := by
  apply Node.firm_leaf
  rcases n with ⟨cls, w⟩ | ⟨cls, w⟩
  · cases cls <;> nofun
  · nofun

theorem Number.firm_node (n : Number) : n.node.Firm := by
  cases n <;> exact Node.firm_leaf (by decide) _

namespace Expr

variable {l r f c t e i : Expr} {es : List Expr}

theorem mild_nodes (h : ∀ e ∈ es, e.node.Mild) : ∀ n ∈ nodes es, n.Mild := by
  rw [nodes_eq_map]
  intro n hn
  obtain ⟨e, he, rfl⟩ := List.mem_map.mp hn
  exact h e he

theorem held_value? {v : Option Expr} (h : ∀ e ∈ v, e.node.Mild) :
    ∀ n ∈ v.map node, n.Held .value := by
  intro n hn
  obtain ⟨e, he, rfl⟩ := Option.map_eq_some_iff.mp hn
  exact h e he _ rfl

theorem firm_paren (h : e.node.Mild) : (paren e).node.Firm := by
  rw [node]
  exact Item.Mild.firm (by simpa using h _ rfl) (by decide)

theorem firm_array (h : ∀ e ∈ es, e.node.Mild) : (array es).node.Firm := by
  rw [node]
  have hes : ∀ n ∈ nodes es, n.Held .value := fun n hn => mild_nodes h n hn _ rfl
  exact Item.Mild.firm (by simpa using hes) (by decide)

theorem firm_call (hf : f.node.Mild) (h : ∀ e ∈ es, e.node.Mild) : (call f es).node.Firm := by
  rw [node]
  have hes : ∀ n ∈ nodes es, n.Held .argument := fun n hn => mild_nodes h n hn _ rfl
  exact Item.Mild.firm (by simpa using ⟨hf _ rfl, hes⟩) (by decide)

theorem firm_qualified (q : Text) (h : e.node.Mild) : (qualified q e).node.Firm := by
  rw [node]
  have hq : (Node.leaf .paramQualifier (.word q)).Firm := Node.firm_leaf (by decide) _
  exact Item.Mild.firm (by simpa using ⟨hq _, h _ rfl⟩) (by decide)

theorem firm_subscript (h : e.node.Mild) (hi : i.node.Mild) : (subscript e i).node.Firm := by
  rw [node]
  exact Item.Mild.firm (by simpa using ⟨h _ rfl, hi _ rfl⟩) (by decide)

theorem firm_member (h : e.node.Mild) (n : Name) : (member e n).node.Firm := by
  rw [node]
  exact Item.Mild.firm (by simpa using ⟨h _ rfl, n.firm_node _⟩) (by decide)

theorem firm_unary (op : UnaryOp) (h : e.node.Mild) : (unary op e).node.Firm := by
  rw [node]
  exact Item.Mild.firm (by simpa using h _ rfl) (by decide)

theorem firm_binary (op : BinaryOp) (hl : l.node.Mild) (hr : r.node.Mild) :
    (binary op l r).node.Firm := by
  rw [node]
  exact Item.Mild.firm (by simpa using ⟨hl _ rfl, hr _ rfl⟩) (by decide)

theorem firm_conditional (hc : c.node.Mild) (ht : t.node.Mild) (he : e.node.Mild) :
    (conditional c t e).node.Firm := by
  rw [node]
  exact Item.Mild.firm (by simpa using ⟨hc _ rfl, ht _ rfl, he _ rfl⟩) (by decide)

end Expr

namespace Grammar

variable {expr operand : Parser Expr}

theorem argument_mild (h : expr.Yields fun e _ => e.node.Mild) :
    (argument expr).Yields fun e _ => e.node.Mild := by
  apply yields_after
  intro q
  refine Yields.andThen h ?_
  intro e mid he
  cases q with
  | none => exact yields_done he
  | some w => exact yields_done (Expr.firm_qualified w he).mild

theorem arguments_mild (h : expr.Yields fun e _ => e.node.Mild) :
    (arguments expr).Yields fun es _ => ∀ e ∈ es, e.node.Mild := by
  apply Yields.onPunct
  · exact yields_value fun _ => by simp
  · refine Yields.andThen (argument_mild h).separated ?_
    intro es mid hes
    exact yields_after _ (fun _ => yields_value fun _ => hes.2) mid

theorem parenthesized_mild (h : expr.Yields fun e _ => e.node.Mild) :
    (parenthesized expr).Yields fun e _ => e.node.Mild := by
  apply yields_after
  intro _
  refine Yields.andThen h ?_
  intro e mid he
  exact yields_after _ (fun _ => yields_value fun _ => he) mid

theorem elements_mild (h : expr.Yields fun e _ => e.node.Mild) :
    (elements expr).Yields fun es _ => ∀ e ∈ es, e.node.Mild := by
  refine Yields.andThen h.separated ?_
  intro es mid hes
  exact yields_after _ (fun _ => yields_value fun _ => hes.2) mid

theorem wordExpr_mild (w : Text) : (wordExpr w).Yields fun e _ => e.node.Mild := by
  intro ts
  unfold wordExpr
  split
  · refine yields_done ?_
    rw [Expr.node]
    exact (Node.firm_leaf (by decide) _).mild
  · split
    · refine yields_done ?_
      rw [Expr.node]
      exact (Node.firm_leaf (by decide) _).mild
    · refine yields_after name (fun n => yields_value fun _ => ?_) ts
      rw [Expr.node]
      exact n.firm_node.mild

theorem strayExpr_mild {l : Lexeme} (h : ∀ p, l = .punct p → endsExpression p = false) :
    (strayExpr l).Yields fun e _ => e.node.Mild := by
  intro ts
  refine yields_done ?_
  rw [Expr.node]
  exact Node.mild_error ⟨l, rfl, h⟩

theorem primary_mild (h : expr.Yields fun e _ => e.node.Mild) :
    (primary expr).Yields fun e _ => e.node.Mild := by
  have hnumber : ∀ n, (Expr.number n).node.Mild := by
    intro n
    rw [Expr.node]
    exact n.firm_node.mild
  intro ts
  unfold primary
  split
  · exact yields_failed
  · exact yields_done (hnumber _)
  · exact yields_done (hnumber _)
  · exact wordExpr_mild _ _
  · exact (parenthesized_mild h _).bind fun e mid he => yields_done (Expr.firm_paren he).mild
  · exact (elements_mild h _).bind fun es mid hes => yields_done (Expr.firm_array hes).mild
  · next p rest _ _ =>
    split
    · exact yields_failed
    · next hp =>
      refine strayExpr_mild ?_ _
      intro q hq
      cases hq
      simpa using hp
  · next l rest _ _ _ _ _ hpunct =>
    exact strayExpr_mild (fun p hl => absurd hl (hpunct p)) _

theorem suffix_mild (h : expr.Yields fun e _ => e.node.Mild) (e : Expr) (l : Lexeme)
    (q : Parser Expr) (he : e.node.Mild) (hq : suffix expr e l = some q) :
    q.Yields fun e _ => e.node.Mild := by
  unfold suffix at hq
  split at hq <;> cases hq
  · exact (arguments_mild h).andThen fun es mid hes => yields_done (Expr.firm_call he hes).mild
  · refine Yields.andThen h ?_
    intro i mid hi
    exact yields_after _ (fun _ => yields_value fun _ => (Expr.firm_subscript he hi).mild) mid
  · exact yields_after name fun n => yields_value fun _ => (Expr.firm_member he n).mild

theorem suffixed_mild (h : expr.Yields fun e _ => e.node.Mild) :
    (suffixed expr).Yields fun e _ => e.node.Mild :=
  (primary_mild h).andThen fun e mid he => Yields.grow (suffix_mild h) e he mid

theorem operation_mild (h : operand.Yields fun e _ => e.node.Mild) (e : Expr) (l : Lexeme)
    (q : Parser Expr) (he : e.node.Mild) (hq : operation operand e l = some q) :
    q.Yields fun e _ => e.node.Mild := by
  unfold operation at hq
  split at hq
  · obtain ⟨op, -, rfl⟩ := Option.map_eq_some_iff.mp hq
    exact h.andThen fun r mid hr => yields_done (Expr.firm_binary op he hr).mild
  · cases hq

theorem chain_mild (h : operand.Yields fun e _ => e.node.Mild) :
    (chain operand).Yields fun e _ => e.node.Mild :=
  h.andThen fun e mid he => Yields.grow (operation_mild h) e he mid

theorem conditional_mild (ho : operand.Yields fun e _ => e.node.Mild)
    (h : expr.Yields fun e _ => e.node.Mild) :
    (conditional operand expr).Yields fun e _ => e.node.Mild := by
  refine Yields.andThen (chain_mild ho) ?_
  intro c mid hc
  refine Yields.onPunct .question ?_ (yields_value fun _ => hc) mid
  refine Yields.andThen h ?_
  intro t mid ht
  refine yields_after _ (fun _ => ?_) mid
  exact h.andThen fun e mid he => yields_done (Expr.firm_conditional hc ht he).mild

theorem signed_mild (h : operand.Yields fun e _ => e.node.Mild) (op : UnaryOp) :
    (signed operand op).Yields fun e _ => e.node.Mild := by
  have hop : (operand.andThen fun e => value (Expr.unary op e)).Yields fun e _ => e.node.Mild :=
    h.andThen fun e mid he => yields_done (Expr.firm_unary op he).mild
  intro ts
  exact (yields_any skip ts).bind fun _ mid _ => hop mid

theorem unsignedOr_mild {sign : UnaryOp → Parser Expr}
    (hs : ∀ op, (sign op).Yields fun e _ => e.node.Mild)
    (h : expr.Yields fun e _ => e.node.Mild) :
    (unsignedOr sign expr).Yields fun e _ => e.node.Mild := by
  intro ts
  unfold unsignedOr
  split
  · split
    · exact hs _ _
    · exact suffixed_mild h _
  · exact suffixed_mild h _

/-- Whatever levels are left, every error in an expression is one lexeme. -/
theorem ranked_mild (levels : Nat) :
    ((expression levels).Yields fun e _ => e.node.Mild) ∧
      (Grammar.operand levels).Yields fun e _ => e.node.Mild := by
  induction levels with
  | zero => exact ⟨yields_limit, unsignedOr_mild (fun _ => yields_limit) yields_limit⟩
  | succ levels ih =>
    have he : (expression (levels + 1)).Yields fun e _ => e.node.Mild :=
      conditional_mild ih.2 ih.1
    exact ⟨he, unsignedOr_mild (signed_mild ih.2) he⟩

end Grammar

end ShaderSyntax
