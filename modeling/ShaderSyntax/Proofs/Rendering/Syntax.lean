import ShaderSyntax.Proofs.Rendering

/-!
# The rendering of syntax

Every node that the syntax builds is written as its kind says, kind by kind.
-/
namespace ShaderSyntax

section Maps

variable {α : Type} {node : α → Node}

/-- Nodes that are all built the same way. -/
theorem Item.written_map (h : ∀ update a, (node a).Written update) (label : Label) (as : List α) :
    ∀ n ∈ as.map node, n.Written (label == .update) := by
  intro n hn
  obtain ⟨a, -, rfl⟩ := List.mem_map.mp hn
  exact h _ a

theorem Item.written_optionMap (h : ∀ update a, (node a).Written update) (label : Label)
    (a? : Option α) : ∀ n ∈ a?.map node, n.Written (label == .update) := by
  intro n hn
  obtain ⟨a, -, rfl⟩ := Option.map_eq_some_iff.mp hn
  exact h _ a

end Maps

@[simp] theorem Node.texts_leaf (k : Kind) (l : Lexeme) : (Node.leaf k l).texts = [l.text] := rfl

@[simp] theorem Node.written_leaf (update : Bool) (k : Kind) (l : Lexeme) :
    (Node.leaf k l).Written update := trivial

@[simp] theorem Node.written_error (update : Bool) (s : Skipped) :
    (Node.error s).Written update := trivial

@[simp] theorem Name.written_node (update : Bool) (n : Name) : n.node.Written update := trivial

@[simp] theorem Term.written_node (update : Bool) (good bad : Kind) (t : Term) :
    (t.node good bad).Written update := by
  cases t <;> trivial

@[simp] theorem Number.written_node (update : Bool) (n : Number) : n.node.Written update := by
  cases n <;> trivial

@[simp] theorem written_qualifierNode (update : Bool) (k : Kind) (w : Text) :
    (qualifierNode k w).Written update := trivial

theorem TypeRef.written_node (update : Bool) (t : TypeRef) : t.node.Written update := by
  induction t generalizing update with
  | builtin w => trivial
  | named w => trivial
  | invalid cls w => trivial
  | array base size ih =>
    refine ⟨?_, ih _, Number.written_node _ _, trivial⟩
    simp [sizeItems, layout, Part.all]

namespace Specifier

variable (s : Specifier)

theorem parts_sizes (sizes : List Text) :
    Item.parts (sizes.flatMap sizeItems) = sizes.map fun digits => (.size, [digits]) := by
  induction sizes with
  | nil => rfl
  | cons digits sizes ih =>
    rw [List.flatMap_cons, Item.parts_append, ih]
    rfl

theorem texts_sizes (sizes : List Text) :
    Item.texts (sizes.flatMap sizeItems) = sizes.flatMap fun digits =>
      [Punct.openBracket.spelling, digits, Punct.closeBracket.spelling] := by
  induction sizes with
  | nil => rfl
  | cons digits sizes ih =>
    rw [List.flatMap_cons, Item.texts_append, ih]
    rfl

theorem written_sizes (sizes : List Text) : Item.Written (sizes.flatMap sizeItems) := by
  induction sizes with
  | nil => trivial
  | cons digits sizes ih =>
    rw [List.flatMap_cons, Item.written_append]
    exact ⟨⟨Number.written_node _ _, trivial⟩, ih⟩

theorem written_sizesNode? (update : Bool) (sizes : List Text) :
    ∀ n ∈ sizesNode? sizes, n.Written update := by
  rintro n hn
  cases sizes with
  | nil => cases hn
  | cons digits sizes =>
    cases hn
    refine ⟨?_, written_sizes _⟩
    rw [parts_sizes, texts_sizes]
    simp [layout, List.flatMap_map]

theorem written_items : Item.Written s.items :=
  ⟨s.type.written_node _, s.name.written_node _, Item.written_child? (written_sizesNode? _ s.sizes)⟩

theorem written_node (update : Bool) : s.node.Written update := by
  refine ⟨?_, s.written_items⟩
  simp [items, layout, Part.all]

end Specifier

namespace Expr

mutual

theorem written_node (update : Bool) : ∀ e : Expr, e.node.Written update
  | name n => Name.written_node update n
  | number n => Number.written_node update n
  | bool _ => trivial
  | typeName _ => trivial
  | error _ => trivial
  | paren e => by
    refine ⟨?_, written_node _ e, trivial⟩
    simp [layout, Part.all]
  | array es => by
    refine ⟨?_,
      (Item.written_append _ _).mpr ⟨Item.written_separated (written_nodes _ es), trivial⟩⟩
    simp [layout, Part.list]
  | call f es => by
    refine ⟨?_, written_node _ f,
      (Item.written_append _ _).mpr ⟨Item.written_separated (written_nodes _ es), trivial⟩⟩
    simp [layout, Part.all, Part.list]
  | qualified q e => by
    refine ⟨?_, trivial, written_node _ e, trivial⟩
    simp [layout, Part.all]
  | subscript e i => by
    refine ⟨?_, written_node _ e, written_node _ i, trivial⟩
    simp [layout, Part.all]
  | member e n => by
    refine ⟨?_, written_node _ e, Name.written_node _ n, trivial⟩
    simp [layout, Part.all]
  | unary op e => by
    refine ⟨?_, written_node _ e, trivial⟩
    simp [layout, Part.all]
  | binary op l r => by
    refine ⟨?_, written_node _ l, written_node _ r, trivial⟩
    simp [layout, Part.all]
  | conditional c t e => by
    refine ⟨?_, written_node _ c, written_node _ t, written_node _ e, trivial⟩
    simp [layout, Part.all]

theorem written_nodes (update : Bool) : ∀ es : List Expr, ∀ n ∈ nodes es, n.Written update
  | [], _, h => absurd h List.not_mem_nil
  | e :: es, n, h => by
    rcases List.mem_cons.mp h with rfl | hn
    · exact written_node update e
    · exact written_nodes update es n hn

end

end Expr

theorem Action.written_items (a : Action) : Item.Written a.items := by
  cases a with
  | evaluate e => exact ⟨e.written_node _, trivial⟩
  | assign t op v => exact ⟨t.written_node _, v.written_node _, trivial⟩
  | adjustAfter t op => exact ⟨t.written_node _, trivial⟩
  | adjustBefore op t => exact ⟨t.written_node _, trivial⟩

theorem Action.written_statementNode (a : Action) : a.statementNode.Written false := by
  refine ⟨?_, (Item.written_append _ _).mpr ⟨a.written_items, trivial⟩⟩
  cases a <;> simp [items, kind, layout, Part.all]

theorem Action.written_updateNode (a : Action) : a.updateNode.Written true := by
  cases a with
  | evaluate e => exact e.written_node true
  | assign t op v =>
    refine ⟨?_, written_items (.assign t op v)⟩
    simp [items, kind, layout, Part.all]
  | adjustAfter t op =>
    refine ⟨?_, written_items (.adjustAfter t op)⟩
    simp [items, kind, layout]
  | adjustBefore op t =>
    refine ⟨?_, written_items (.adjustBefore op t)⟩
    simp [items, kind, layout]

namespace Variable

variable (v : Variable)

theorem written_items : Item.Written v.items := by
  refine ⟨v.specifier.written_node _, (Item.written_append _ _).mpr ⟨?_, trivial⟩⟩
  exact Item.written_marked? (Item.written_optionMap Expr.written_node _ v.value)

theorem written_node (update : Bool) : v.node.Written update := by
  refine ⟨?_, v.written_items⟩
  simp [items, layout, Part.all, Part.after]

theorem written_constantNode {kind : Kind}
    (hk : kind = .constDeclaration ∨ kind = .constVarDeclaration) (update : Bool)
    (precision : Option Text) : (v.constantNode kind precision).Written update := by
  refine ⟨?_, (Item.written_append _ _).mpr ⟨?_, v.written_items⟩⟩
  · rcases hk with rfl | rfl <;>
      simp [items, layout, Part.all, Part.after]
  · exact Item.written_child?
      (Item.written_optionMap (written_qualifierNode · .precisionQualifier) _ precision)

end Variable

mutual

theorem Stmt.written_node : ∀ s : Stmt, s.node.Written false
  | .block body => by
    refine ⟨?_, (Item.written_append _ _).mpr
      ⟨Item.written_children (Stmt.written_nodes body), trivial⟩⟩
    simp [layout, Part.all]
  | .declare v => v.written_node false
  | .constant p v => v.written_constantNode (.inr rfl) false p
  | .perform a => a.written_statementNode
  | .ifThen c t => by
    refine ⟨?_, (Expr.paren c).written_node _, t.written_node, trivial⟩
    simp [layout, Part.all]
  | .ifElse c t e => by
    refine ⟨?_, (Expr.paren c).written_node _, t.written_node, e.written_node, trivial⟩
    simp [layout, Part.all]
  | .whileLoop c b => by
    refine ⟨?_, (Expr.paren c).written_node _, b.written_node, trivial⟩
    simp [layout, Part.all]
  | .forLoop v c u b => by
    refine ⟨?_, v.written_node _, (Action.evaluate c).written_statementNode, u.written_updateNode,
      b.written_node, trivial⟩
    simp [layout, Part.all]
  | .switchOn e cs => by
    refine ⟨?_, e.written_node _, (Item.written_append _ _).mpr
      ⟨Item.written_children (Clause.written_nodes cs), trivial⟩⟩
    simp [layout, Part.all]
  | .returnValue e => by
    refine ⟨?_, (Item.written_append _ _).mpr ⟨Item.written_child?
      (Item.written_optionMap Expr.written_node _ e), trivial⟩⟩
    simp [layout, Part.all]
  | .breakOut => ⟨rfl, trivial⟩
  | .continueLoop => ⟨rfl, trivial⟩
  | .error _ => trivial

theorem Stmt.written_nodes : ∀ ss : List Stmt, ∀ n ∈ Stmt.nodes ss, n.Written false
  | [], _, h => absurd h List.not_mem_nil
  | s :: ss, n, h => by
    rcases List.mem_cons.mp h with rfl | hn
    · exact s.written_node
    · exact Stmt.written_nodes ss n hn

theorem Clause.written_node : ∀ c : Clause, c.node.Written false
  | .onValue e body => by
    refine ⟨?_, e.written_node _, Item.written_children (Stmt.written_nodes body)⟩
    simp [layout, Part.all]
  | .otherwise body => by
    refine ⟨?_, Item.written_children (Stmt.written_nodes body)⟩
    simp [layout, Part.all]
  | .error _ => trivial

theorem Clause.written_nodes : ∀ cs : List Clause, ∀ n ∈ Clause.nodes cs, n.Written false
  | [], _, h => absurd h List.not_mem_nil
  | c :: cs, n, h => by
    rcases List.mem_cons.mp h with rfl | hn
    · exact c.written_node
    · exact Clause.written_nodes cs n hn

end

theorem HintParam.written_node (update : Bool) (p : HintParam) : p.node.Written update := by
  unfold HintParam.node
  split
  · refine ⟨?_, p.number.written_node _, trivial⟩
    simp [layout, Part.all]
  · exact p.number.written_node update

namespace Hint

theorem written_node (update : Bool) (h : Hint) : h.node.Written update := by
  obtain ⟨name, params⟩ := h
  cases params with
  | none =>
    refine ⟨?_, Term.written_node _ _ _ _, trivial⟩
    -- Without parentheses the name is the only token.
    have hsize : (name.node .hintName .invalidHint).size = 1 := by cases name <;> rfl
    simp [paramItems, layout, Part.all, Item.size, hsize]
  | some ps =>
    refine ⟨?_, Term.written_node _ _ _ _, (Item.written_append _ _).mpr
      ⟨Item.written_separated (Item.written_map HintParam.written_node _ ps), trivial⟩⟩
    have hcount : 1 < Item.size (Item.child .named (name.node .hintName .invalidHint) ::
        paramItems (some ps)) := by
      have hsize : (name.node .hintName .invalidHint).size = 1 := by cases name <;> rfl
      simp [paramItems, Item.size, Item.mark, hsize]
    rw [layout, if_pos hcount]
    simp [-List.map_map, paramItems, Part.all, Part.list]

theorem written_listNode? (update : Bool) (hs : List Hint) :
    ∀ n ∈ listNode? hs, n.Written update := by
  rintro n hn
  cases hs with
  | nil => cases hn
  | cons h hs =>
    cases hn
    refine ⟨?_, Item.written_separated (Item.written_map written_node _ _)⟩
    simp [-List.map_map, -List.map_cons, layout, Part.list]

end Hint

theorem Member.written_node (update : Bool) (m : Member) : m.node.Written update := by
  cases m with
  | field s =>
    refine ⟨?_, (Item.written_append _ _).mpr ⟨s.written_items, trivial⟩⟩
    simp [Specifier.items, layout, Part.all]
  | error s => trivial

theorem Parameter.written_node (update : Bool) (p : Parameter) : p.node.Written update := by
  refine ⟨?_, (Item.written_append _ _).mpr ⟨?_, p.specifier.written_items⟩⟩
  · simp [Specifier.items, layout, Part.all]
  · exact Item.written_child?
      (Item.written_optionMap (written_qualifierNode · .paramQualifier) _ p.qualifier)

namespace Decl

theorem written_scopeItems (c : Option Scope) : Item.Written (scopeItems c) := by
  cases c <;> trivial

theorem texts_scopeItems (c : Option Scope) :
    Item.texts (scopeItems c) = (c.toList.map fun s => [s.keyword.spelling]).flatten := by
  cases c <;> rfl

theorem parts_scopeItems (c : Option Scope) :
    Item.parts (scopeItems c) = c.toList.map fun s => (.scope, [s.keyword.spelling]) := by
  cases c <;> rfl

theorem written_precision (p : Option Text) : Item.Written
    (Item.child? .precision (p.map (qualifierNode .precisionQualifier))) :=
  Item.written_child? (Item.written_optionMap (written_qualifierNode · .precisionQualifier) _ p)

theorem written_node (d : Decl) : d.node.Written false := by
  cases d with
  | shaderType t =>
    refine ⟨?_, t.written_node _ _ _, trivial⟩
    simp [layout, Part.all]
  | renderMode ts =>
    refine ⟨?_, (Item.written_append _ _).mpr ⟨Item.written_separated
      (Item.written_map (fun update t => t.written_node update _ _) _ ts), trivial⟩⟩
    simp [-List.map_map, layout, Part.list]
  | constant p v => exact v.written_constantNode (.inl rfl) false p
  | varying i p s =>
    have hi := Item.written_child?
      (Item.written_optionMap (written_qualifierNode · .interpolationQualifier) .interpolation i)
    constructor
    · simp [layout, Part.all]
    · simp only [Item.keyword, List.cons_append, Item.Written, Item.written_append]
      exact ⟨⟨hi, written_precision p⟩, s.written_node _, trivial⟩
  | groupUniforms g s =>
    have hg := Item.written_child? (Item.written_optionMap Name.written_node .groupName g)
    have hs := Item.written_marked? (p := .dot)
      (Item.written_optionMap Name.written_node .subgroupName s)
    constructor
    · simp [layout, Part.all, Part.after]
    · simp only [Item.keyword, List.cons_append, Item.Written, Item.written_append]
      exact ⟨⟨hg, hs⟩, trivial⟩
  | uniform c p s hs v =>
    have hh := Item.written_marked? (p := .colon)
      (Hint.written_listNode? (Label.hints == .update) hs)
    have hv := Item.written_marked? (p := .assign)
      (Item.written_optionMap Expr.written_node .value v)
    constructor
    · simp [texts_scopeItems, parts_scopeItems, layout, Part.all, Part.after]
    · simp only [Item.keyword, Item.Written, Item.written_append]
      exact ⟨⟨⟨⟨written_scopeItems c, written_precision p⟩, s.written_node _, hh⟩, hv⟩, trivial⟩
  | struct n ms =>
    refine ⟨?_, n.written_node _, (Item.written_append _ _).mpr ⟨Item.written_children
      (Item.written_map Member.written_node _ ms), trivial⟩⟩
    simp [-List.map_map, layout, Part.all]
  | function t n ps body =>
    refine ⟨?_, t.written_node _, n.written_node _, (Item.written_append _ _).mpr
      ⟨Item.written_separated (Item.written_map Parameter.written_node _ ps),
        (Stmt.block body).written_node, trivial⟩⟩
    simp [-List.map_map, layout, Part.all, Part.list]
  | includes path => exact ⟨rfl, trivial, trivial⟩
  | error s => trivial

end Decl

end ShaderSyntax
