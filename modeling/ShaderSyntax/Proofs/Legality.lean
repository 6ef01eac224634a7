import ShaderSyntax.Proofs.Appending
import ShaderSyntax.Proofs.Soundness

/-!
# Legal lexemes

Only error nodes hold lexemes that are illegal: every other node is written with words, literals and
marks. So the lexemes of a clean node are legal.
-/
namespace ShaderSyntax

@[simp] theorem Lexeme.isLegal_word (w : Text) : (word w).isLegal = true := rfl

@[simp] theorem Lexeme.isLegal_string (t : Text) : (string t).isLegal = true := rfl

@[simp] theorem Lexeme.isLegal_punct (p : Punct) : (punct p).isLegal = true := rfl

/-- Outside error nodes every lexeme is legal. -/
def Condition.legal : Condition :=
  ⟨fun _ l => l.isLegal = true, True, fun l => l.isLegal = true⟩

@[simp] theorem Condition.leaf_legal (k : Kind) (l : Lexeme) :
    Condition.legal.leaf k l ↔ l.isLegal = true := Iff.rfl

@[simp] theorem Condition.lexeme_legal (l : Lexeme) :
    Condition.legal.lexeme l ↔ l.isLegal = true := Iff.rfl

abbrev Node.Legal (n : Node) : Prop :=
  n.Every .legal

abbrev Item.Legal (items : List Item) : Prop :=
  Item.Every .legal items

mutual

theorem Node.isLegal_of_clean : ∀ n : Node, n.Legal → n.Clean → ∀ l ∈ n.lexemes, l.isLegal = true
  | .leaf k l, h, _, l', hl => by
    rw [List.mem_singleton.mp hl]
    exact h
  | .error s, _, hc, _, _ => hc.elim
  | .branch k items, h, hc, l, hl => Item.isLegal_of_clean items h hc l hl

theorem Item.isLegal_of_clean : ∀ items : List Item, Item.Legal items → Item.Clean items →
    ∀ l ∈ Item.lexemes items, l.isLegal = true
  | [], _, _, _, hl => absurd hl List.not_mem_nil
  | .token l :: rest, h, hc, l', hl => by
    rcases List.mem_cons.mp hl with rfl | hl
    · exact h.1
    · exact Item.isLegal_of_clean rest h.2 hc.2 l' hl
  | .attribute label l :: rest, h, hc, l', hl => by
    rcases List.mem_cons.mp hl with rfl | hl
    · exact h.1
    · exact Item.isLegal_of_clean rest h.2 hc.2 l' hl
  | .child label n :: rest, h, hc, l, hl => by
    rcases List.mem_append.mp hl with hl | hl
    · exact Node.isLegal_of_clean n h.1 hc.1 l hl
    · exact Item.isLegal_of_clean rest h.2 hc.2 l hl

end

theorem Name.legal_node (n : Name) : n.node.Legal := rfl

theorem Term.legal_node (t : Term) (good bad : Kind) : (t.node good bad).Legal := by
  cases t <;> rfl

theorem Number.legal_node (n : Number) : n.node.Legal := by
  cases n <;> rfl

theorem legal_qualifierNode (k : Kind) (w : Text) : (qualifierNode k w).Legal := rfl

theorem legal_sizeItems (digits : Text) : Item.Legal (sizeItems digits) := by
  simp [sizeItems, Number.legal_node]

theorem TypeRef.legal_node (t : TypeRef) : t.node.Legal := by
  induction t with
  | array base size ih => exact ⟨ih, legal_sizeItems size⟩
  | _ => rfl

theorem Specifier.legal_items (s : Specifier) : Item.Legal s.items := by
  have hsizes : ∀ sizes : List Text, Item.Legal (sizes.flatMap sizeItems) := by
    intro sizes
    induction sizes with
    | nil => trivial
    | cons size sizes ih => exact (Item.every_append _ _).mpr ⟨legal_sizeItems size, ih⟩
  refine (Item.every_append _ _).mpr ⟨⟨s.type.legal_node, s.name.legal_node, trivial⟩, ?_⟩
  rw [Item.every_child?]
  intro n hn
  cases hsz : s.sizes with
  | nil => rw [hsz] at hn; cases hn
  | cons size sizes =>
    rw [hsz] at hn
    cases hn
    exact hsizes _

namespace Expr

mutual

theorem legal_node : ∀ e : Expr, e.node.Legal
  | name n => by rw [node]; exact n.legal_node
  | number n => by rw [node]; exact n.legal_node
  | bool _ => by rw [node]; rfl
  | typeName _ => by rw [node]; rfl
  | error _ => by rw [node]; trivial
  | paren e => by simp [node, legal_node e]
  | array es => by simpa [node, nodes_eq_map] using legal_nodes es
  | call f es => by
    simpa [node, nodes_eq_map, legal_node f] using legal_nodes es
  | qualified q e => by simp [node, legal_node e]
  | subscript e i => by simp [node, legal_node e, legal_node i]
  | member e n => by simp [node, legal_node e, n.legal_node]
  | unary op e => by simp [node, legal_node e]
  | binary op l r => by
    simp [node, legal_node l, legal_node r]
  | conditional c t e => by
    simp [node, legal_node c, legal_node t, legal_node e]

theorem legal_nodes : ∀ es : List Expr, ∀ e ∈ es, e.node.Legal
  | [], _, he => absurd he List.not_mem_nil
  | e :: es, x, hx => by
    rcases List.mem_cons.mp hx with hx | hx
    · rw [hx]
      exact legal_node e
    · exact legal_nodes es x hx

end

end Expr

theorem Action.legal_items (a : Action) : Item.Legal a.items := by
  cases a <;> simp [items, Expr.legal_node]

theorem Action.legal_updateNode (a : Action) : a.updateNode.Legal := by
  cases a with
  | evaluate e => exact e.legal_node
  | assign t op v => exact legal_items (.assign t op v)
  | adjustAfter t op => exact legal_items (.adjustAfter t op)
  | adjustBefore op t => exact legal_items (.adjustBefore op t)

theorem Action.legal_statementNode (a : Action) : a.statementNode.Legal := by
  simp [statementNode, legal_items]

theorem Variable.legal_items (v : Variable) : Item.Legal v.items := by
  simp [items, Specifier.node, Specifier.legal_items, Expr.legal_node]

theorem Variable.legal_constantNode (k : Kind) (p : Option Text) (v : Variable) :
    (v.constantNode k p).Legal := by
  simp [constantNode, legal_items, legal_qualifierNode]

mutual

theorem Stmt.legal_node : ∀ s : Stmt, s.node.Legal
  | .block body => by
    simpa [Stmt.node, blockNode, Stmt.nodes_eq_map] using
      Stmt.legal_nodes body
  | .declare v => by rw [Stmt.node]; exact v.legal_items
  | .constant p v => by rw [Stmt.node]; exact v.legal_constantNode _ p
  | .perform a => by rw [Stmt.node]; exact a.legal_statementNode
  | .ifThen c t => by
    simp [Stmt.node, Expr.parenNode, Expr.legal_node, Stmt.legal_node t]
  | .ifElse c t e => by
    simp [Stmt.node, Expr.parenNode, Expr.legal_node, Stmt.legal_node t, Stmt.legal_node e]
  | .whileLoop c b => by
    simp [Stmt.node, Expr.parenNode, Expr.legal_node, Stmt.legal_node b]
  | .forLoop v c u b => by
    have hv : v.node.Legal := v.legal_items
    simp [Stmt.node, hv, Action.legal_statementNode, Action.legal_updateNode, Stmt.legal_node b]
  | .switchOn e cs => by
    simpa [Stmt.node, Clause.nodes_eq_map, Expr.legal_node] using
      Clause.legal_nodes cs
  | .returnValue v => by simp [Stmt.node, Expr.legal_node]
  | .breakOut => by simp [Stmt.node]
  | .continueLoop => by simp [Stmt.node]
  | .error _ => by rw [Stmt.node]; trivial

theorem Stmt.legal_nodes : ∀ ss : List Stmt, ∀ s ∈ ss, s.node.Legal
  | [], _, hs => absurd hs List.not_mem_nil
  | s :: ss, x, hx => by
    rcases List.mem_cons.mp hx with hx | hx
    · rw [hx]
      exact Stmt.legal_node s
    · exact Stmt.legal_nodes ss x hx

theorem Clause.legal_node : ∀ c : Clause, c.node.Legal
  | .onValue e body => by
    simpa [Clause.node, Stmt.nodes_eq_map, Expr.legal_node] using
      Stmt.legal_nodes body
  | .otherwise body => by
    simpa [Clause.node, Stmt.nodes_eq_map] using
      Stmt.legal_nodes body
  | .error _ => by rw [Clause.node]; trivial

theorem Clause.legal_nodes : ∀ cs : List Clause, ∀ c ∈ cs, c.node.Legal
  | [], _, hc => absurd hc List.not_mem_nil
  | c :: cs, x, hx => by
    rcases List.mem_cons.mp hx with hx | hx
    · rw [hx]
      exact Clause.legal_node c
    · exact Clause.legal_nodes cs x hx

end

theorem HintParam.legal_node (p : HintParam) : p.node.Legal := by
  unfold HintParam.node
  split
  · simp [Number.legal_node]
  · exact p.number.legal_node

theorem Hint.legal_node (h : Hint) : h.node.Legal := by
  have hparams : Item.Legal (Hint.paramItems h.params) := by
    cases h.params with
    | none => trivial
    | some ps => simp [paramItems, HintParam.legal_node]
  exact ⟨h.name.legal_node _ _, hparams⟩

theorem Hint.legal_listNode? (hs : List Hint) : ∀ n ∈ listNode? hs, n.Legal := by
  cases hs with
  | nil => simp [listNode?]
  | cons h hs => simp [listNode?, Hint.legal_node]

theorem Member.legal_node (m : Member) : m.node.Legal := by
  cases m with
  | field s => simp [node, s.legal_items]
  | error s => trivial

theorem Parameter.legal_node (p : Parameter) : p.node.Legal := by
  simp [node, p.specifier.legal_items, legal_qualifierNode]

theorem Decl.legal_node (d : Decl) : d.node.Legal := by
  cases d with
  | shaderType t => simp [node, t.legal_node]
  | renderMode ts => simp [node, Term.legal_node]
  | constant p v => exact v.legal_constantNode _ p
  | varying i p s =>
    simp [node, legal_qualifierNode, Specifier.node, s.legal_items]
  | groupUniforms g s => simp [node, Name.legal_node]
  | uniform c p s hs v =>
    have hscope : Item.Legal (scopeItems c) := by
      cases c <;> simp [scopeItems]
    simpa [node, hscope, legal_qualifierNode, Specifier.node, s.legal_items, Expr.legal_node] using Hint.legal_listNode? hs
  | struct n ms => simp [node, n.legal_node, Member.legal_node]
  | function t n ps body =>
    simp [node, t.legal_node, n.legal_node, Parameter.legal_node, Stmt.legal_node]
  | includes path => simp [node]
  | error s => trivial

end ShaderSyntax
