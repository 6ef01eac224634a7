import ShaderSyntax.Proofs.Boundaries.Tree
import ShaderSyntax.Proofs.Layout

/-!
# Trees as wide as a child of theirs

A tree is as wide as one of its children only if it holds nothing but that child. The grammar
writes two such trees: a list of one hint, and a hint without parentheses, which holds its name. So
the trees of one span are at most a list, a hint in it and the name of the hint, and no two of them
are of one kind.
-/
namespace ShaderSyntax

/-- How many trees below one of the kind may be as wide as it is. -/
def Kind.layers : Kind → Nat
  | hintList => 2
  | hint => 1
  | _ => 0

/-- A child alone in a node of the kind has fewer layers than the node. -/
def Item.Alone (k : Kind) : List Item → Prop
  | [.child _ n] => n.kind.layers < k.layers
  | _ => True

mutual

/-- In the node and in all nodes below it, a child alone has fewer layers than its owner. -/
def Node.Layered : Node → Prop
  | .leaf _ _ => True
  | .error _ => True
  | .branch k items => Item.Alone k items ∧ Item.Layered items

def Item.Layered : List Item → Prop
  | [] => True
  | .token _ :: rest => Item.Layered rest
  | .attribute _ _ :: rest => Item.Layered rest
  | .child _ n :: rest => n.Layered ∧ Item.Layered rest

end

theorem Node.inherits_layered : Inherits Node.Layered fun _ items => Item.Layered items := by
  constructor
  · exact fun _ _ h => h.2
  · exact fun _ _ _ h => h
  · exact fun _ _ _ _ h => h
  · exact fun _ _ _ _ h => h

@[simp] theorem Node.layered_branch (k : Kind) (items : List Item) :
    (branch k items).Layered ↔ Item.Alone k items ∧ Item.Layered items := Iff.rfl

namespace Item

variable {k : Kind} {label : Label}

@[simp] theorem alone_mark (p : Punct) (rest : List Item) : Alone k (.mark p :: rest) := trivial

@[simp] theorem alone_keyword (w : Keyword) (rest : List Item) : Alone k (.keyword w :: rest) :=
  trivial

@[simp] theorem alone_two (x y : Item) (rest : List Item) : Alone k (x :: y :: rest) := by
  cases x <;> trivial

/-- Before a mark nothing is alone. -/
@[simp] theorem alone_append_mark (xs : List Item) (p : Punct) (rest : List Item) :
    Alone k (xs ++ .mark p :: rest) := by
  rcases xs with - | ⟨x, - | ⟨y, xs⟩⟩
  · exact alone_mark p rest
  · exact alone_two x _ rest
  · exact alone_two x y _

/-- A list of one node holds it alone. -/
theorem alone_separated {nodes : List Node} (h : ∀ n ∈ nodes, n.kind.layers < k.layers) :
    Alone k (separated label nodes) := by
  rcases nodes with - | ⟨n, - | ⟨m, nodes⟩⟩
  · trivial
  · exact h n (by simp)
  · exact alone_two _ _ _

@[simp] theorem layered_nil : Item.Layered [] ↔ True := Iff.rfl

@[simp] theorem layered_mark (p : Punct) (rest : List Item) :
    Item.Layered (.mark p :: rest) ↔ Item.Layered rest := Iff.rfl

@[simp] theorem layered_keyword (w : Keyword) (rest : List Item) :
    Item.Layered (.keyword w :: rest) ↔ Item.Layered rest := Iff.rfl

@[simp] theorem layered_token (l : Lexeme) (rest : List Item) :
    Item.Layered (.token l :: rest) ↔ Item.Layered rest := Iff.rfl

@[simp] theorem layered_attribute (l : Lexeme) (rest : List Item) :
    Item.Layered (.attribute label l :: rest) ↔ Item.Layered rest := Iff.rfl

@[simp] theorem layered_child (n : Node) (rest : List Item) :
    Item.Layered (.child label n :: rest) ↔ n.Layered ∧ Item.Layered rest := Iff.rfl

theorem itemwise_layered : Itemwise Item.Layered (fun _ => True) (fun _ => True) fun _ n => n.Layered := by
  constructor <;> simp

@[simp] theorem layered_append (xs ys : List Item) :
    Item.Layered (xs ++ ys) ↔ Item.Layered xs ∧ Item.Layered ys :=
  itemwise_layered.append xs ys

@[simp] theorem layered_children (nodes : List Node) :
    Item.Layered (children label nodes) ↔ ∀ n ∈ nodes, n.Layered :=
  itemwise_layered.children nodes

@[simp] theorem layered_separated (nodes : List Node) :
    Item.Layered (separated label nodes) ↔ ∀ n ∈ nodes, n.Layered :=
  itemwise_layered.separated trivial nodes

@[simp] theorem layered_child? (n : Option Node) :
    Item.Layered (child? label n) ↔ ∀ m ∈ n, m.Layered :=
  itemwise_layered.child? n

@[simp] theorem layered_marked? (p : Punct) (n : Option Node) :
    Item.Layered (marked? p label n) ↔ ∀ m ∈ n, m.Layered :=
  itemwise_layered.marked? trivial n

end Item

section Forms

theorem Name.layered_node (n : Name) : n.node.Layered := trivial

theorem Term.layered_node (t : Term) (good bad : Kind) : (t.node good bad).Layered := by
  cases t <;> trivial

theorem Number.layered_node (n : Number) : n.node.Layered := by
  cases n <;> trivial

theorem layered_qualifierNode (k : Kind) (w : Text) : (qualifierNode k w).Layered := trivial

theorem TypeRef.layered_node (t : TypeRef) : t.node.Layered := by
  induction t with
  | array base size ih => simp [node, sizeItems, ih, Number.layered_node]
  | _ => trivial

theorem Specifier.layered_sizesNode? (sizes : List Text) :
    ∀ n ∈ sizesNode? sizes, n.Layered := by
  have hsizes : ∀ sizes : List Text, Item.Layered (sizes.flatMap sizeItems) := by
    intro sizes
    induction sizes with
    | nil => trivial
    | cons size sizes ih => simp [sizeItems, Number.layered_node, ih]
  intro n hn
  cases sizes with
  | nil => cases hn
  | cons size sizes =>
    cases hn
    exact ⟨Item.alone_mark _ _, hsizes _⟩

theorem Specifier.layered_items (s : Specifier) : Item.Layered s.items := by
  simpa [items, s.type.layered_node, s.name.layered_node] using layered_sizesNode? s.sizes

theorem Specifier.layered_node (s : Specifier) : s.node.Layered :=
  ⟨Item.alone_two _ _ _, s.layered_items⟩

namespace Expr

mutual

theorem layered_node : ∀ e : Expr, e.node.Layered
  | name n => by rw [node]; exact n.layered_node
  | number n => by rw [node]; exact n.layered_node
  | bool _ => by rw [node]; trivial
  | typeName _ => by rw [node]; trivial
  | error _ => by rw [node]; trivial
  | paren e => by simp [node, layered_node e]
  | array es => by simpa [node, nodes_eq_map] using layered_nodes es
  | call f es => by simpa [node, nodes_eq_map, layered_node f] using layered_nodes es
  | qualified q e => by simp [node, layered_node e, Node.Layered]
  | subscript e i => by simp [node, layered_node e, layered_node i]
  | member e n => by simp [node, layered_node e, n.layered_node]
  | unary op e => by simp [node, layered_node e]
  | binary op l r => by simp [node, layered_node l, layered_node r]
  | conditional c t e => by simp [node, layered_node c, layered_node t, layered_node e]

theorem layered_nodes : ∀ es : List Expr, ∀ e ∈ es, e.node.Layered
  | [], _, he => absurd he List.not_mem_nil
  | e :: es, x, hx => by
    rcases List.mem_cons.mp hx with hx | hx
    · rw [hx]
      exact layered_node e
    · exact layered_nodes es x hx

end

theorem layered_parenNode (e : Expr) : e.parenNode.Layered :=
  layered_node (paren e)

end Expr

namespace Action

theorem layered_items (a : Action) : Item.Layered a.items := by
  cases a <;> simp [items, Expr.layered_node]

theorem layered_statementNode (a : Action) : a.statementNode.Layered := by
  simp [statementNode, layered_items]

theorem layered_updateNode (a : Action) : a.updateNode.Layered := by
  cases a with
  | evaluate e => exact e.layered_node
  | assign t op v => exact ⟨Item.alone_two _ _ _, layered_items _⟩
  | adjustAfter t op => exact ⟨Item.alone_two _ _ _, layered_items _⟩
  | adjustBefore op t => exact ⟨Item.alone_two _ _ _, layered_items _⟩

end Action

namespace Variable

theorem layered_items (v : Variable) : Item.Layered v.items := by
  simp [items, Specifier.layered_node, Expr.layered_node]

theorem layered_node (v : Variable) : v.node.Layered :=
  ⟨Item.alone_append_mark (.child .specifier v.specifier.node :: _) .semicolon [], v.layered_items⟩

theorem layered_constantNode (k : Kind) (p : Option Text) (v : Variable) :
    (v.constantNode k p).Layered := by
  simp [constantNode, layered_items, layered_qualifierNode]

end Variable

mutual

theorem Stmt.layered_node : ∀ s : Stmt, s.node.Layered
  | .block body => by
    simpa [Stmt.node, blockNode, Stmt.nodes_eq_map] using Stmt.layered_nodes body
  | .declare v => by rw [Stmt.node]; exact v.layered_node
  | .constant p v => by rw [Stmt.node]; exact v.layered_constantNode _ p
  | .perform a => by rw [Stmt.node]; exact a.layered_statementNode
  | .ifThen c t => by simp [Stmt.node, Expr.layered_parenNode, Stmt.layered_node t]
  | .ifElse c t e => by
    simp [Stmt.node, Expr.layered_parenNode, Stmt.layered_node t, Stmt.layered_node e]
  | .whileLoop c b => by simp [Stmt.node, Expr.layered_parenNode, Stmt.layered_node b]
  | .forLoop v c u b => by
    simp [Stmt.node, v.layered_node, Action.layered_statementNode, u.layered_updateNode,
      Stmt.layered_node b]
  | .switchOn e cs => by
    simpa [Stmt.node, Clause.nodes_eq_map, e.layered_node] using Clause.layered_nodes cs
  | .returnValue v => by simp [Stmt.node, Expr.layered_node]
  | .breakOut => by simp [Stmt.node]
  | .continueLoop => by simp [Stmt.node]
  | .error _ => by rw [Stmt.node]; trivial

theorem Stmt.layered_nodes : ∀ ss : List Stmt, ∀ s ∈ ss, s.node.Layered
  | [], _, hs => absurd hs List.not_mem_nil
  | s :: ss, x, hx => by
    rcases List.mem_cons.mp hx with hx | hx
    · rw [hx]
      exact Stmt.layered_node s
    · exact Stmt.layered_nodes ss x hx

theorem Clause.layered_node : ∀ c : Clause, c.node.Layered
  | .onValue e body => by
    simpa [Clause.node, Stmt.nodes_eq_map, e.layered_node] using Stmt.layered_nodes body
  | .otherwise body => by
    simpa [Clause.node, Stmt.nodes_eq_map] using Stmt.layered_nodes body
  | .error _ => by rw [Clause.node]; trivial

theorem Clause.layered_nodes : ∀ cs : List Clause, ∀ c ∈ cs, c.node.Layered
  | [], _, hc => absurd hc List.not_mem_nil
  | c :: cs, x, hx => by
    rcases List.mem_cons.mp hx with hx | hx
    · rw [hx]
      exact Clause.layered_node c
    · exact Clause.layered_nodes cs x hx

end

theorem HintParam.layered_node (p : HintParam) : p.node.Layered := by
  unfold HintParam.node
  split
  · simp [Number.layered_node]
  · exact p.number.layered_node

/-- The name of a hint may be all of it. -/
theorem Hint.layered_node (h : Hint) : h.node.Layered := by
  have hname : (h.name.node .hintName .invalidHint).kind.layers < Kind.hint.layers := by
    cases h.name <;> exact Nat.zero_lt_one
  refine ⟨?_, h.name.layered_node _ _, ?_⟩
  · cases h.params with
    | none => exact hname
    | some ps => exact Item.alone_two _ _ _
  · cases h.params with
    | none => trivial
    | some ps => simp [paramItems, HintParam.layered_node]

/-- A hint may be all of its list. -/
theorem Hint.layered_listNode? (hs : List Hint) : ∀ n ∈ listNode? hs, n.Layered := by
  intro n hn
  cases hs with
  | nil => cases hn
  | cons h hs =>
    cases hn
    refine ⟨Item.alone_separated fun n hn => ?_, ?_⟩
    · obtain ⟨h', -, rfl⟩ := List.mem_map.mp hn
      exact Nat.one_lt_two
    · simp [Hint.layered_node]

theorem Member.layered_node (m : Member) : m.node.Layered := by
  cases m with
  | field s => simp [node, s.layered_items]
  | error s => trivial

theorem Parameter.layered_node (p : Parameter) : p.node.Layered := by
  refine ⟨?_, ?_⟩
  · cases p.qualifier <;> exact Item.alone_two _ _ _
  · simp [p.specifier.layered_items, layered_qualifierNode]

theorem Decl.layered_node (d : Decl) : d.node.Layered := by
  cases d with
  | shaderType t => simp [node, t.layered_node]
  | renderMode ts => simp [node, Term.layered_node]
  | constant p v => exact v.layered_constantNode _ p
  | varying i p s => simp [node, layered_qualifierNode, s.layered_node]
  | groupUniforms g s => simp [node, Name.layered_node]
  | uniform c p s hs v =>
    have hscope : Item.Layered (scopeItems c) := by
      cases c <;> simp [scopeItems]
    have halone : ∀ rest,
        Item.Alone .uniformDeclaration (scopeItems c ++ .keyword .uniform :: rest) := by
      intro rest
      cases c <;> simp [scopeItems]
    simpa [node, hscope, halone, layered_qualifierNode, s.layered_node, Expr.layered_node] using
      Hint.layered_listNode? hs
  | struct n ms => simp [node, n.layered_node, Member.layered_node]
  | function t n ps body =>
    simp [node, t.layered_node, n.layered_node, Parameter.layered_node, Stmt.layered_node]
  | includes path => simp [node, Node.Layered]
  | error s => trivial

end Forms

/-- A child as wide as the tree has fewer layers. -/
def Tree.Layered (t : Tree) : Prop :=
  ∀ child ∈ t.children, child.span = t.span → child.kind.layers < t.kind.layers

section Placed

variable {text : Text}

/-- Lexemes are located apart: a span tells where its run starts and stops. -/
theorem Source.locate_inj {i j i' j' : Nat} (hij : i < j) (hj : j ≤ (written text).length)
    (hij' : i' < j') (hj' : j' ≤ (written text).length)
    (h : (ofText text).locate i j = (ofText text).locate i' j') : i = i' ∧ j = j' := by
  have hrange := tokenRange_locate hij hj
  rw [h, tokenRange_locate hij' hj'] at hrange
  cases hrange
  exact ⟨rfl, rfl⟩

/-- A run ends with the text at the latest. -/
theorem Run.stop_le {start : Nat} {ls : List Lexeme} {run : List Token}
    (h : Run text start ls run) : start + ls.length ≤ (written text).length := by
  obtain ⟨before, after, hw, hbefore⟩ := h.within
  have hlen := h.length_eq
  rw [hw, List.length_append, List.length_append]
  omega

/-- Without lexemes there are no items. -/
theorem Item.eq_nil_of_size {items : List Item} (hs : Item.Solid items) (h : Item.size items = 0) :
    items = [] := by
  by_cases hnil : items = []
  · exact hnil
  · have := Item.Solid.size_pos hnil hs
    omega

/-- Placed trees are layered as their nodes are. -/
theorem Node.layered_place {n : Node} {start : Nat} {run : List Token} (hl : n.Layered)
    (hs : n.Solid) (h : Run text start n.lexemes run) :
    (n.place (Source.ofText text).locate start).Layered := by
  intro child hchild hspan
  cases n with
  | leaf k l => cases hchild
  | error s => cases hchild
  | branch k items =>
    obtain ⟨f, hf, hc⟩ := List.mem_filterMap.mp hchild
    rcases f with ⟨label, w⟩ | ⟨label, t⟩
    · cases hc
    · cases hc
      obtain ⟨xs, n, ys, rfl, rfl⟩ := Item.split_of_mem_place hf
      obtain ⟨hxs, hn, hys⟩ : Item.Solid xs ∧ n.Solid ∧ Item.Solid ys :=
        (Item.solid_append _ _).mp hs.2.2
      have hsize : (Node.branch k (xs ++ .child label n :: ys)).size =
          Item.size xs + (n.size + Item.size ys) := Item.size_append _ _
      have hpos := hn.size_pos
      have hle := h.stop_le
      rw [Node.length_lexemes] at hle
      -- Of the same span, the child has all the lexemes of its owner.
      rw [Node.span_place, Node.span_place] at hspan
      obtain ⟨hstart, hstop⟩ := Source.locate_inj (by omega) (by omega) (by omega) (by omega) hspan
      obtain rfl : xs = [] := Item.eq_nil_of_size hxs (by omega)
      obtain rfl : ys = [] := Item.eq_nil_of_size hys (by omega)
      rw [Node.kind_place, Node.kind_place]
      exact hl.1

end Placed

/-- Every tree that a walk through a document meets has more layers than a child as wide. -/
theorem Document.walk_layered {levels : Nat} {text : Text} {d : Document}
    (h : parse levels text = .ok d) :
    ∀ v ∈ Tree.walk (fun _ => true) d.trees, v.tree.Layered := by
  intro v hv
  obtain ⟨n, hn, start, run, hs, hrun, ht⟩ := walk_placed h v hv
  obtain ⟨root, hroot, hsub⟩ := List.mem_flatMap.mp hn
  obtain ⟨decl, -, rfl⟩ := List.mem_map.mp hroot
  rw [ht]
  have hl := Node.inherits_layered.subnodes _ decl.layered_node n hsub
  exact Node.layered_place hl hs hrun

end ShaderSyntax
