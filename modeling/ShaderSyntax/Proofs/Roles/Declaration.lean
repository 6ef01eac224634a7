import ShaderSyntax.Proofs.Roles

/-!
# Roles in statements and declarations

The words of statements and declarations are of the kinds that their places tell. Only expressions
are read with an eye on the lexeme after them, and in a statement that is a mark of the statement
itself: so a statement or declaration may stand before anything.
-/
namespace ShaderSyntax

variable {next : Option Lexeme}

/-- Parts with commas between them, each of which stands anywhere in its role. -/
theorem Item.inRoles_separated_map {α : Type} {k : Kind} {label : Label} {node : α → Node}
    {as : List α} (h : ∀ a ∈ as, ∀ next, (node a).InRole (k.role label) next)
    (hnext : next ≠ some (.punct .openParen)) :
    Item.InRoles k next (Item.separated label (as.map node)) := by
  refine Item.inRoles_separated ?_ hnext
  intro n hn next _
  obtain ⟨a, ha, rfl⟩ := List.mem_map.mp hn
  exact h a ha next

/-- A value that may be missing, and that nothing calls. -/
theorem Expr.inRole_value? {v : Option Expr} (hs : ∀ e ∈ v, e.node.Shaped)
    (hj : ∀ e ∈ v, e.Judged false) (hnext : next ≠ some (.punct .openParen)) :
    ∀ n ∈ v.map Expr.node, n.InRole .operand next := by
  cases v with
  | none => simp
  | some e => simpa using Expr.inRole_of_next (hs e rfl) (hj e rfl) hnext

theorem Specifier.inRole_node {s : Specifier} {role : Role} (h : s.Judged) :
    s.node.InRole role next :=
  s.inRoles_items h (by decide)

namespace Variable

variable {v : Variable} {k : Kind}

theorem inRoles_items (hs : Item.Shaped k v.items) (hj : v.Judged) :
    Item.InRoles k next v.items := by
  obtain ⟨-, hs⟩ : _ ∧ ∀ e ∈ v.value, k.admits .value e.node.kind = true ∧ e.node.Shaped := by
    simpa [items] using hs
  simp only [items, List.cons_append, Item.inRoles_child, Item.inRoles_append,
    Item.inRoles_marked?]
  exact ⟨Specifier.inRole_node hj.specifier,
    Expr.inRole_value? (fun e he => (hs e he).2) hj.value (by simp),
    trivial⟩

theorem inRole_constantNode {p : Option Text} {role : Role} (hs : (v.constantNode k p).Shaped)
    (hp : canonicalQualifier .precision p = true) (hj : v.Judged) :
    (v.constantNode k p).InRole role next := by
  have hs := hs.2
  simp only [List.cons_append, Item.shaped_keyword, Item.shaped_append] at hs
  simp only [constantNode, Node.InRole, List.cons_append, Item.inRoles_keyword,
    Item.inRoles_append, Item.inRoles_child?]
  exact ⟨inRole_qualifier? (by decide) hp, inRoles_items hs.2 hj⟩

end Variable

namespace Action

variable {a : Action} {k : Kind}

theorem inRoles_items (hs : Item.Shaped k a.items) (hj : a.Judged)
    (hnext : next ≠ some (.punct .openParen)) : Item.InRoles k next a.items := by
  have hadjust (op : AdjustOp) : op.punct ≠ .openParen := by cases op <;> decide
  cases a with
  | evaluate e =>
    exact ⟨Expr.inRole_of_next hs.1.2 hj (by simpa [Item.lexemes] using hnext), trivial⟩
  | assign t op v =>
    have hop : op.punct ≠ .openParen := by cases op <;> decide
    exact ⟨Expr.inRole_of_next hs.1.2 hj.1 (by simpa [Item.lexemes] using hop),
      Expr.inRole_of_next hs.2.1.2 hj.2 (by simpa [Item.lexemes] using hnext), trivial⟩
  | adjustAfter t op =>
    exact ⟨Expr.inRole_of_next hs.1.2 hj (by simpa [Item.lexemes] using hadjust op), trivial⟩
  | adjustBefore op t =>
    exact ⟨Expr.inRole_of_next hs.1.2 hj (by simpa [Item.lexemes] using hnext), trivial⟩

theorem inRole_statementNode {role : Role} (hs : a.statementNode.Shaped) (hj : a.Judged) :
    a.statementNode.InRole role next :=
  (Item.inRoles_append _ _).mpr ⟨inRoles_items ((Item.shaped_append _ _).mp hs.2).1 hj
    (by simp), trivial⟩

theorem inRole_updateNode (hs : a.updateNode.Shaped) (hj : a.Judged)
    (hnext : next ≠ some (.punct .openParen)) : a.updateNode.InRole .operand next := by
  cases a with
  | evaluate e => exact Expr.inRole_of_next hs hj hnext
  | assign t op v => exact inRoles_items (a := .assign t op v) hs.2 hj hnext
  | adjustAfter t op => exact inRoles_items (a := .adjustAfter t op) hs.2 hj hnext
  | adjustBefore op t => exact inRoles_items (a := .adjustBefore op t) hs.2 hj hnext

end Action

mutual

theorem Stmt.inRole_node : ∀ (s : Stmt) (role : Role) (next : Option Lexeme), s.node.Shaped →
    s.Judged → s.node.InRole role next
  | .block body, role, next, hs, hj => by
    rw [Stmt.node] at hs ⊢
    rw [Stmt.Judged] at hj
    have hs : ∀ s ∈ body, Kind.admits .block .statement s.node.kind = true ∧ s.node.Shaped := by
      simpa [blockNode, Stmt.nodes_eq_map] using hs.2
    simp only [blockNode, Node.InRole, List.cons_append, Item.inRoles_mark, Item.inRoles_append]
    exact ⟨Item.inRoles_children (Stmt.inRole_nodes body _ (fun s h => (hs s h).2) hj), trivial⟩
  | .declare v, role, next, hs, hj => by
    rw [Stmt.node] at hs ⊢
    rw [Stmt.Judged] at hj
    exact Variable.inRoles_items hs.2 hj
  | .constant p v, role, next, hs, hj => by
    rw [Stmt.node] at hs ⊢
    rw [Stmt.Judged] at hj
    exact Variable.inRole_constantNode hs hj.1 hj.2
  | .perform a, role, next, hs, hj => by
    rw [Stmt.node] at hs ⊢
    rw [Stmt.Judged] at hj
    exact Action.inRole_statementNode hs hj.1
  | .ifThen c t, role, next, hs, hj => by
    rw [Stmt.node] at hs ⊢
    rw [Stmt.Judged] at hj
    obtain ⟨⟨-, hsc⟩, -, hst⟩ := by simpa using hs.2
    exact ⟨Expr.inRole_parenNode hsc hj.1, Stmt.inRole_node t _ _ hst hj.2, trivial⟩
  | .ifElse c t e, role, next, hs, hj => by
    rw [Stmt.node] at hs ⊢
    rw [Stmt.Judged] at hj
    obtain ⟨⟨-, hsc⟩, ⟨-, hst⟩, -, hse⟩ := by simpa using hs.2
    exact ⟨Expr.inRole_parenNode hsc hj.1, Stmt.inRole_node t _ _ hst hj.2.1,
      Stmt.inRole_node e _ _ hse hj.2.2.2, trivial⟩
  | .whileLoop c b, role, next, hs, hj => by
    rw [Stmt.node] at hs ⊢
    rw [Stmt.Judged] at hj
    obtain ⟨⟨-, hsc⟩, -, hsb⟩ := by simpa using hs.2
    exact ⟨Expr.inRole_parenNode hsc hj.1, Stmt.inRole_node b _ _ hsb hj.2, trivial⟩
  | .forLoop v c u b, role, next, hs, hj => by
    rw [Stmt.node] at hs ⊢
    rw [Stmt.Judged] at hj
    obtain ⟨⟨-, hsv⟩, ⟨-, hsc⟩, ⟨-, hsu⟩, -, hsb⟩ := by simpa using hs.2
    exact ⟨Variable.inRoles_items hsv.2 hj.1, Action.inRole_statementNode hsc hj.2.1,
      Action.inRole_updateNode hsu hj.2.2.1 (by simp),
      Stmt.inRole_node b _ _ hsb hj.2.2.2, trivial⟩
  | .switchOn e cs, role, next, hs, hj => by
    rw [Stmt.node] at hs ⊢
    rw [Stmt.Judged] at hj
    obtain ⟨⟨-, hse⟩, hs⟩ : (Kind.admits .switchStatement .condition e.node.kind = true ∧
        e.node.Shaped) ∧ ∀ c ∈ cs, Kind.admits .switchStatement .clause c.node.kind = true ∧
        c.node.Shaped := by simpa [Clause.nodes_eq_map] using hs.2
    simp only [Node.InRole, List.cons_append, List.nil_append, Item.inRoles_keyword,
      Item.inRoles_mark, Item.inRoles_child, Item.inRoles_append]
    exact ⟨Expr.inRole_of_next hse hj.1 (by simp),
      Item.inRoles_children (Clause.inRole_nodes cs _ (fun c h => (hs c h).2) hj.2), trivial⟩
  | .returnValue v, role, next, hs, hj => by
    rw [Stmt.node] at hs ⊢
    rw [Stmt.Judged] at hj
    have hs : ∀ e ∈ v, Kind.admits .returnStatement .value e.node.kind = true ∧
        e.node.Shaped := by simpa using hs.2
    simp only [Node.InRole, List.cons_append, Item.inRoles_keyword, Item.inRoles_append,
      Item.inRoles_child?]
    exact ⟨Expr.inRole_value? (fun e he => (hs e he).2) hj (by simp),
      trivial⟩
  | .breakOut, _, _, _, _ => trivial
  | .continueLoop, _, _, _, _ => trivial
  | .error _, _, _, _, _ => trivial

theorem Stmt.inRole_nodes : ∀ (ss : List Stmt) (role : Role), (∀ s ∈ ss, s.node.Shaped) →
    Stmt.Judgeds ss → ∀ n ∈ Stmt.nodes ss, ∀ next, n.InRole role next
  | [], _, _, _, n, hn, _ => absurd hn List.not_mem_nil
  | s :: ss, role, hs, hj, n, hn, next => by
    rw [Stmt.Judgeds] at hj
    rcases List.mem_cons.mp hn with hn | hn
    · rw [hn]
      exact Stmt.inRole_node s role next (hs s (by simp)) hj.1
    · exact Stmt.inRole_nodes ss role (fun x hx => hs x (by simp [hx])) hj.2 n hn next

theorem Clause.inRole_node : ∀ (c : Clause) (role : Role) (next : Option Lexeme), c.node.Shaped →
    c.Judged → c.node.InRole role next
  | .onValue e body, role, next, hs, hj => by
    rw [Clause.node] at hs ⊢
    rw [Clause.Judged] at hj
    obtain ⟨⟨-, hse⟩, hs⟩ : (Kind.admits .switchCase .argument e.node.kind = true ∧
        e.node.Shaped) ∧ ∀ s ∈ body, Kind.admits .switchCase .statement s.node.kind = true ∧
        s.node.Shaped := by simpa [Stmt.nodes_eq_map] using hs.2
    exact ⟨Expr.inRole_of_next hse hj.1 (by simp),
      Item.inRoles_children (Stmt.inRole_nodes body _ (fun s h => (hs s h).2) hj.2)⟩
  | .otherwise body, role, next, hs, hj => by
    rw [Clause.node] at hs ⊢
    rw [Clause.Judged] at hj
    have hs : ∀ s ∈ body, Kind.admits .switchCase .statement s.node.kind = true ∧
        s.node.Shaped := by simpa [Stmt.nodes_eq_map] using hs.2
    exact Item.inRoles_children (Stmt.inRole_nodes body _ (fun s h => (hs s h).2) hj)
  | .error _, _, _, _, _ => trivial

theorem Clause.inRole_nodes : ∀ (cs : List Clause) (role : Role), (∀ c ∈ cs, c.node.Shaped) →
    Clause.Judgeds cs → ∀ n ∈ Clause.nodes cs, ∀ next, n.InRole role next
  | [], _, _, _, n, hn, _ => absurd hn List.not_mem_nil
  | c :: cs, role, hs, hj, n, hn, next => by
    rw [Clause.Judgeds] at hj
    rcases List.mem_cons.mp hn with hn | hn
    · rw [hn]
      exact Clause.inRole_node c role next (hs c (by simp)) hj.1
    · exact Clause.inRole_nodes cs role (fun x hx => hs x (by simp [hx])) hj.2 n hn next

end

theorem HintParam.inRole_node (p : HintParam) : p.node.InRole .literal next := by
  unfold node
  split
  · exact ⟨p.number.inRole_node (.inl rfl), trivial⟩
  · exact p.number.inRole_node (.inr rfl)

theorem Hint.inRole_node {h : Hint} {role : Role} (hj : h.Judged) : h.node.InRole role next := by
  refine ⟨Term.inRole_node (by decide) hj, ?_⟩
  cases h.params with
  | none => trivial
  | some ps =>
    simp only [paramItems, List.cons_append, Item.inRoles_mark, Item.inRoles_append]
    exact ⟨Item.inRoles_separated_map (fun p _ _ => p.inRole_node)
      (by simp), trivial⟩

theorem Hint.inRole_listNode? {hs : List Hint} {role : Role} (hj : ∀ h ∈ hs, h.Judged)
    (hnext : next ≠ some (.punct .openParen)) : ∀ n ∈ listNode? hs, n.InRole role next := by
  cases hs with
  | nil => simp [listNode?]
  | cons h hs =>
    simp only [listNode?, Option.mem_def, Option.some.injEq, forall_eq']
    exact Item.inRoles_separated_map (fun x hx _ => Hint.inRole_node (hj x hx)) hnext

theorem Member.inRole_node {m : Member} {role : Role} (h : m.Judged) : m.node.InRole role next := by
  cases m with
  | field s => exact (Item.inRoles_append _ _).mpr ⟨s.inRoles_items h (by decide), trivial⟩
  | error s => trivial

theorem Parameter.inRole_node {p : Parameter} {role : Role} (h : p.Judged) :
    p.node.InRole role next := by
  simp only [node, Node.InRole, Item.inRoles_append, Item.inRoles_child?]
  exact ⟨inRole_qualifier? (by decide) h.qualifier, p.specifier.inRoles_items h.specifier (by decide)⟩

theorem Name.inRole_name? {n : Option Name} (h : ∀ m ∈ n, m.Judged) :
    ∀ m ∈ n.map Name.node, m.InRole .name next := by
  cases n with
  | none => simp
  | some m => simpa using Name.inRole_node (h m rfl)

/-- The words of a judged declaration are what their places tell, whatever follows it. -/
theorem Decl.inRole_node {d : Decl} {role : Role} (hs : d.node.Shaped) (hj : d.Judged) :
    d.node.InRole role next := by
  cases d with
  | shaderType t => exact ⟨Term.inRole_node (by decide) hj, trivial⟩
  | renderMode ts =>
    simp only [node, Node.InRole, List.cons_append, Item.inRoles_keyword, Item.inRoles_append]
    exact ⟨Item.inRoles_separated_map (fun t ht _ => Term.inRole_node (by decide) (hj t ht))
      (by simp), trivial⟩
  | constant p v => exact Variable.inRole_constantNode hs hj.1 hj.2
  | varying i p s =>
    simp only [node, Node.InRole, List.cons_append, List.append_assoc, Item.inRoles_keyword,
      Item.inRoles_append, Item.inRoles_child?, Item.inRoles_child]
    exact ⟨inRole_qualifier? (by decide) hj.1, inRole_qualifier? (by decide) hj.2.1,
      Specifier.inRole_node hj.2.2, trivial⟩
  | groupUniforms g s =>
    simp only [node, Node.InRole, List.cons_append, List.append_assoc, Item.inRoles_keyword,
      Item.inRoles_append, Item.inRoles_child?, Item.inRoles_marked?]
    exact ⟨Name.inRole_name? hj.1, Name.inRole_name? hj.2, trivial⟩
  | uniform scope p s hints v =>
    obtain ⟨hjp, hjs, hjh, hjv⟩ := hj
    have hs := hs.2
    simp only [List.cons_append, List.append_assoc, Item.shaped_keyword, Item.shaped_append,
      Item.shaped_child, Item.shaped_marked?] at hs
    have hv : ∀ e ∈ v, Kind.admits .uniformDeclaration .value e.node.kind = true ∧
        e.node.Shaped := by simpa using hs.2.2.2.2.1
    have hscope : ∀ next, Item.InRoles .uniformDeclaration next (scopeItems scope) := by
      intro next
      cases scope <;> trivial
    simp only [node, Node.InRole, List.cons_append, List.append_assoc, Item.inRoles_keyword,
      Item.inRoles_append, Item.inRoles_child?, Item.inRoles_child, Item.inRoles_marked?]
    refine ⟨hscope _, inRole_qualifier? (by decide) hjp, Specifier.inRole_node hjs, ?_, ?_, trivial⟩
    · refine Hint.inRole_listNode? hjh ?_
      cases v <;> simp [Item.marked?]
    · exact Expr.inRole_value? (fun e he => (hv e he).2) hjv (by simp)
  | struct n ms =>
    simp only [node, Node.InRole, List.cons_append, Item.inRoles_keyword, Item.inRoles_child,
      Item.inRoles_mark, Item.inRoles_append]
    refine ⟨Name.inRole_node hj.1, Item.inRoles_children ?_, trivial⟩
    intro m hm next
    obtain ⟨x, hx, rfl⟩ := List.mem_map.mp hm
    exact Member.inRole_node (hj.2 x hx)
  | function t n ps body =>
    obtain ⟨hjt, hjn, hjp, hjb⟩ := hj
    have hs := hs.2
    simp only [List.cons_append, Item.shaped_child, Item.shaped_mark, Item.shaped_append] at hs
    simp only [node, Node.InRole, List.cons_append, Item.inRoles_child, Item.inRoles_mark,
      Item.inRoles_append]
    exact ⟨TypeRef.inRole_node hjt, Name.inRole_node hjn,
      Item.inRoles_separated_map (fun p hp _ => Parameter.inRole_node (hjp p hp))
        (by simp),
      Stmt.inRole_node (.block body) _ _ hs.2.2.2.1.2 (by rw [Stmt.Judged]; exact hjb), trivial⟩
  | includes path => exact ⟨rfl, trivial⟩
  | error s => trivial

end ShaderSyntax
