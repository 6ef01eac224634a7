import ShaderSyntax.Proofs.Tidy

/-!
# Fields in rows

A label stands in a node for an attribute or for trees, never for both, and the trees that share it
follow each other. So the fields of every node are rows, each with a label of its own.
-/
namespace ShaderSyntax

/-- Fields under one label: an attribute, or a tree and those that follow it. -/
inductive Row where
  | attribute (label : Label) (text : Text)
  | trees (label : Label) (first : Tree) (others : List Tree)

namespace Row

def label : Row → Label
  | .attribute l _ => l
  | .trees l _ _ => l

def fields : Row → List Field
  | .attribute l t => [.attribute l t]
  | .trees l t ts => (t :: ts).map (.child l)

end Row

/-- However the items are placed, their fields are rows under labels of the list, in its order. -/
def Item.Rows (labels : List Label) (items : List Item) : Prop :=
  ∀ (locate : Nat → Nat → Span Nat) (start : Nat), ∃ rows : List Row,
    (rows.map Row.label).Sublist labels ∧ Item.place locate start items = rows.flatMap Row.fields

mutual

/-- In this node and in all nodes below it the fields are rows under different labels. -/
def Node.InRows : Node → Prop
  | .leaf _ _ => True
  | .error _ => True
  | .branch k items =>
    (k ≠ .error ∧ ∃ labels : List Label, labels.Nodup ∧ Item.Rows labels items) ∧ Item.InRows items

/-- The nodes that the items hold are in rows. -/
def Item.InRows : List Item → Prop
  | [] => True
  | .token _ :: rest => Item.InRows rest
  | .attribute _ _ :: rest => Item.InRows rest
  | .child _ n :: rest => n.InRows ∧ Item.InRows rest

end

theorem Node.inRows_branch {k : Kind} {labels : List Label} {items : List Item} (hk : k ≠ .error)
    (hr : Item.Rows labels items) (hl : labels.Nodup) (h : Item.InRows items) :
    (branch k items).InRows :=
  ⟨⟨hk, labels, hl, hr⟩, h⟩

namespace Item

variable {label : Label} {labels more : List Label} {items xs ys : List Item}

theorem Rows.nil : Rows [] [] :=
  fun _ _ => ⟨[], List.Sublist.refl [], rfl⟩

theorem Rows.token (l : Lexeme) (h : Rows labels items) : Rows labels (.token l :: items) :=
  fun locate start => h locate (start + 1)

theorem Rows.attribute (l : Lexeme) (h : Rows labels items) :
    Rows (label :: labels) (.attribute label l :: items) := by
  intro locate start
  obtain ⟨rows, hlabels, hrows⟩ := h locate (start + 1)
  refine ⟨.attribute label l.text :: rows, hlabels.cons_cons label, ?_⟩
  rw [Item.place, hrows]
  rfl

theorem Rows.child (n : Node) (h : Rows labels items) :
    Rows (label :: labels) (.child label n :: items) := by
  intro locate start
  obtain ⟨rows, hlabels, hrows⟩ := h locate (start + n.size)
  refine ⟨.trees label (n.place locate start) [] :: rows, hlabels.cons_cons label, ?_⟩
  rw [Item.place, hrows]
  rfl

theorem place_append (locate : Nat → Nat → Span Nat) (start : Nat) :
    place locate start (xs ++ ys) = place locate start xs ++ place locate (start + size xs) ys := by
  induction xs generalizing start with
  | nil => simp [place, size]
  | cons x xs ih =>
    cases x with
    | token l =>
      have hstart : start + (size xs + 1) = start + 1 + size xs := by omega
      simp [place, size, ih, hstart]
    | «attribute» label l =>
      have hstart : start + (size xs + 1) = start + 1 + size xs := by omega
      simp [place, size, ih, hstart]
    | child label n => simp [place, size, ih, Nat.add_assoc]

theorem Rows.append (hx : Rows labels xs) (hy : Rows more ys) : Rows (labels ++ more) (xs ++ ys) := by
  intro locate start
  obtain ⟨rows, hlabels, hrows⟩ := hx locate start
  obtain ⟨rows', hmore, hrows'⟩ := hy locate (start + size xs)
  refine ⟨rows ++ rows', ?_, ?_⟩
  · rw [List.map_append]
    exact hlabels.append hmore
  · rw [place_append, hrows, hrows', List.flatMap_append]

/-- The items hold trees under the label, any number of them, and nothing else. -/
def Under (label : Label) (items : List Item) : Prop :=
  ∀ (locate : Nat → Nat → Span Nat) (start : Nat), ∃ trees : List Tree,
    place locate start items = trees.map (.child label)

theorem Under.nil : Under label [] :=
  fun _ _ => ⟨[], rfl⟩

theorem Under.token (l : Lexeme) (h : Under label items) : Under label (.token l :: items) :=
  fun locate start => h locate (start + 1)

theorem Under.child (n : Node) (h : Under label items) : Under label (.child label n :: items) := by
  intro locate start
  obtain ⟨trees, htrees⟩ := h locate (start + n.size)
  exact ⟨n.place locate start :: trees, by rw [Item.place, htrees]; rfl⟩

theorem Under.append (hx : Under label xs) (hy : Under label ys) : Under label (xs ++ ys) := by
  intro locate start
  obtain ⟨trees, htrees⟩ := hx locate start
  obtain ⟨trees', htrees'⟩ := hy locate (start + size xs)
  exact ⟨trees ++ trees', by rw [place_append, htrees, htrees', List.map_append]⟩

/-- Trees that have their label to themselves are one row, or none if there are no trees. -/
theorem Under.rows (h : Under label items) : Rows [label] items := by
  intro locate start
  obtain ⟨trees, htrees⟩ := h locate start
  cases trees with
  | nil => exact ⟨[], List.nil_sublist _, htrees⟩
  | cons t ts =>
    refine ⟨[.trees label t ts], List.Sublist.refl [label], ?_⟩
    rw [htrees, List.flatMap_singleton, Row.fields]

theorem under_children (nodes : List Node) : Under label (children label nodes) := by
  induction nodes with
  | nil => exact Under.nil
  | cons n nodes ih => exact ih.child n

theorem under_separated (nodes : List Node) : Under label (separated label nodes) := by
  induction nodes with
  | nil => exact Under.nil
  | cons n nodes ih =>
    cases nodes with
    | nil => exact Under.nil.child n
    | cons m nodes => exact (ih.token (.punct .comma)).child n

theorem under_child? (n : Option Node) : Under label (child? label n) := by
  cases n with
  | none => exact Under.nil
  | some n => exact Under.nil.child n

theorem under_marked? (p : Punct) (n : Option Node) : Under label (marked? p label n) := by
  cases n with
  | none => exact Under.nil
  | some n => exact (Under.nil.child n).token _

section Below

@[simp] theorem inRows_nil : Item.InRows [] ↔ True := Iff.rfl

@[simp] theorem inRows_mark (p : Punct) (rest : List Item) :
    Item.InRows (.mark p :: rest) ↔ Item.InRows rest := Iff.rfl

@[simp] theorem inRows_keyword (w : Keyword) (rest : List Item) :
    Item.InRows (.keyword w :: rest) ↔ Item.InRows rest := Iff.rfl

@[simp] theorem inRows_token (l : Lexeme) (rest : List Item) :
    Item.InRows (.token l :: rest) ↔ Item.InRows rest := Iff.rfl

@[simp] theorem inRows_attribute (l : Lexeme) (rest : List Item) :
    Item.InRows (.attribute label l :: rest) ↔ Item.InRows rest := Iff.rfl

@[simp] theorem inRows_child (n : Node) (rest : List Item) :
    Item.InRows (.child label n :: rest) ↔ n.InRows ∧ Item.InRows rest := Iff.rfl

theorem itemwise_inRows : Itemwise Item.InRows (fun _ => True) (fun _ => True) fun _ n => n.InRows := by
  constructor <;> simp

@[simp] theorem inRows_append (xs ys : List Item) :
    Item.InRows (xs ++ ys) ↔ Item.InRows xs ∧ Item.InRows ys :=
  itemwise_inRows.append xs ys

@[simp] theorem inRows_children (nodes : List Node) :
    Item.InRows (children label nodes) ↔ ∀ n ∈ nodes, n.InRows :=
  itemwise_inRows.children nodes

@[simp] theorem inRows_separated (nodes : List Node) :
    Item.InRows (separated label nodes) ↔ ∀ n ∈ nodes, n.InRows :=
  itemwise_inRows.separated trivial nodes

@[simp] theorem inRows_child? (n : Option Node) :
    Item.InRows (child? label n) ↔ ∀ m ∈ n, m.InRows :=
  itemwise_inRows.child? n

@[simp] theorem inRows_marked? (p : Punct) (n : Option Node) :
    Item.InRows (marked? p label n) ↔ ∀ m ∈ n, m.InRows :=
  itemwise_inRows.marked? trivial n

end Below

end Item

section Forms

theorem Name.inRows_node (n : Name) : n.node.InRows := trivial

theorem Term.inRows_node (t : Term) (good bad : Kind) : (t.node good bad).InRows := by
  cases t <;> trivial

theorem Number.inRows_node (n : Number) : n.node.InRows := by
  cases n <;> trivial

theorem inRows_qualifierNode (k : Kind) (w : Text) : (qualifierNode k w).InRows := trivial

theorem under_sizeItems (digits : Text) : Item.Under .size (sizeItems digits) :=
  .token _ (.child _ (.token _ .nil))

theorem TypeRef.inRows_node (t : TypeRef) : t.node.InRows := by
  induction t with
  | array base size ih =>
    exact Node.inRows_branch (by decide) (.child _ (under_sizeItems size).rows) (by decide)
      ⟨ih, Number.inRows_node _, trivial⟩
  | _ => trivial

namespace Specifier

theorem under_sizes (sizes : List Text) : Item.Under .size (sizes.flatMap sizeItems) := by
  induction sizes with
  | nil => exact .nil
  | cons size sizes ih => exact (under_sizeItems size).append ih

theorem inRows_sizes (sizes : List Text) : Item.InRows (sizes.flatMap sizeItems) := by
  induction sizes with
  | nil => trivial
  | cons size sizes ih => exact (Item.inRows_append _ _).mpr ⟨⟨trivial, trivial⟩, ih⟩

theorem inRows_sizesNode? (sizes : List Text) : ∀ n ∈ sizesNode? sizes, n.InRows := by
  intro n hn
  cases sizes with
  | nil => cases hn
  | cons size sizes =>
    cases hn
    exact Node.inRows_branch (by decide) (under_sizes _).rows (by decide) (inRows_sizes _)

theorem rows_items (s : Specifier) : Item.Rows [.ofType, .named, .sizes] s.items :=
  .child _ (.child _ (Item.under_child? _).rows)

theorem inRows_items (s : Specifier) : Item.InRows s.items := by
  refine (Item.inRows_append _ _).mpr ⟨⟨s.type.inRows_node, s.name.inRows_node, trivial⟩, ?_⟩
  exact (Item.inRows_child? _).mpr (inRows_sizesNode? s.sizes)

theorem inRows_node (s : Specifier) : s.node.InRows :=
  Node.inRows_branch (by decide) s.rows_items (by decide) s.inRows_items

end Specifier

namespace Expr

mutual

theorem inRows_node : ∀ e : Expr, e.node.InRows
  | name n => by rw [node]; trivial
  | number n => by rw [node]; exact n.inRows_node
  | bool _ => by rw [node]; trivial
  | typeName _ => by rw [node]; trivial
  | error _ => by rw [node]; trivial
  | paren e => by
    rw [node]
    exact Node.inRows_branch (by decide) (.token _ (.child _ (.token _ .nil))) (by decide)
      (by simp [inRows_node e])
  | array es => by
    rw [node]
    exact Node.inRows_branch (by decide)
      (.append (.token _ (Item.under_separated _).rows) (.token _ .nil)) (by decide)
      (by simpa [nodes_eq_map] using inRows_nodes es)
  | call f es => by
    rw [node]
    exact Node.inRows_branch (by decide)
      (.append (.child _ (.token _ (Item.under_separated _).rows)) (.token _ .nil)) (by decide)
      (by simpa [nodes_eq_map, inRows_node f] using inRows_nodes es)
  | qualified q e => by
    rw [node]
    exact Node.inRows_branch (by decide) (.child _ (.child _ .nil)) (by decide)
      ⟨trivial, inRows_node e, trivial⟩
  | subscript e i => by
    rw [node]
    exact Node.inRows_branch (by decide) (.child _ (.token _ (.child _ (.token _ .nil))))
      (by decide) (by simp [inRows_node e, inRows_node i])
  | member e n => by
    rw [node]
    exact Node.inRows_branch (by decide) (.child _ (.token _ (.child _ .nil))) (by decide)
      (by simp [inRows_node e, n.inRows_node])
  | unary op e => by
    rw [node]
    exact Node.inRows_branch (by decide) (.attribute _ (.child _ .nil)) (by decide)
      (by simp [inRows_node e])
  | binary op l r => by
    rw [node]
    exact Node.inRows_branch (by decide) (.child _ (.attribute _ (.child _ .nil))) (by decide)
      (by simp [inRows_node l, inRows_node r])
  | conditional c t e => by
    rw [node]
    exact Node.inRows_branch (by decide)
      (.child _ (.token _ (.child _ (.token _ (.child _ .nil))))) (by decide)
      (by simp [inRows_node c, inRows_node t, inRows_node e])

theorem inRows_nodes : ∀ es : List Expr, ∀ e ∈ es, e.node.InRows
  | [], _, he => absurd he List.not_mem_nil
  | e :: es, x, hx => by
    rcases List.mem_cons.mp hx with hx | hx
    · rw [hx]
      exact inRows_node e
    · exact inRows_nodes es x hx

end

theorem inRows_parenNode (e : Expr) : e.parenNode.InRows :=
  inRows_node (paren e)

end Expr

namespace Action

/-- The operator of an adjustment stands before its target or after it. -/
theorem rows_items (a : Action) : ∃ labels : List Label, labels.Nodup ∧ Item.Rows labels a.items := by
  cases a with
  | evaluate e => exact ⟨_, by decide, .child _ .nil⟩
  | assign t op v => exact ⟨_, by decide, .child _ (.attribute _ (.child _ .nil))⟩
  | adjustAfter t op => exact ⟨_, by decide, .child _ (.attribute _ .nil)⟩
  | adjustBefore op t => exact ⟨_, by decide, .attribute _ (.child _ .nil)⟩

theorem inRows_items (a : Action) : Item.InRows a.items := by
  cases a <;> simp [items, Expr.inRows_node]

theorem inRows_updateNode (a : Action) : a.updateNode.InRows := by
  have hbranch : (Node.branch a.kind a.items).InRows :=
    ⟨⟨a.kind_ne_error, a.rows_items⟩, a.inRows_items⟩
  cases a with
  | evaluate e => exact e.inRows_node
  | _ => exact hbranch

theorem inRows_statementNode (a : Action) : a.statementNode.InRows := by
  obtain ⟨labels, hl, hr⟩ := a.rows_items
  refine Node.inRows_branch a.kind_ne_error (hr.append (.token _ .nil)) (by simpa using hl) ?_
  simp [inRows_items]

end Action

namespace Variable

theorem rows_items (v : Variable) : Item.Rows [.specifier, .value] v.items :=
  .append (.child _ (Item.under_marked? _ _).rows) (.token _ .nil)

theorem inRows_items (v : Variable) : Item.InRows v.items := by
  simp [items, Specifier.inRows_node, Expr.inRows_node]

theorem inRows_node (v : Variable) : v.node.InRows :=
  Node.inRows_branch (by decide) v.rows_items (by decide) v.inRows_items

theorem inRows_constantNode {k : Kind} (hk : k ≠ .error) (p : Option Text) (v : Variable) :
    (v.constantNode k p).InRows :=
  Node.inRows_branch hk (.append (.token _ (Item.under_child? _).rows) v.rows_items) (by decide)
    (by simp [inRows_items, inRows_qualifierNode])

end Variable

mutual

theorem Stmt.inRows_node : ∀ s : Stmt, s.node.InRows
  | .block body => by
    rw [Stmt.node]
    exact Node.inRows_branch (by decide)
      (.append (.token _ (Item.under_children _).rows) (.token _ .nil)) (by decide)
      (by simpa [Stmt.nodes_eq_map] using Stmt.inRows_nodes body)
  | .declare v => by rw [Stmt.node]; exact v.inRows_node
  | .constant p v => by rw [Stmt.node]; exact v.inRows_constantNode (by decide) p
  | .perform a => by rw [Stmt.node]; exact a.inRows_statementNode
  | .ifThen c t => by
    rw [Stmt.node]
    exact Node.inRows_branch (by decide) (.token _ (.child _ (.child _ .nil))) (by decide)
      (by simp [Expr.inRows_parenNode, Stmt.inRows_node t])
  | .ifElse c t e => by
    rw [Stmt.node]
    exact Node.inRows_branch (by decide)
      (.token _ (.child _ (.child _ (.token _ (.child _ .nil))))) (by decide)
      (by simp [Expr.inRows_parenNode, Stmt.inRows_node t, Stmt.inRows_node e])
  | .whileLoop c b => by
    rw [Stmt.node]
    exact Node.inRows_branch (by decide) (.token _ (.child _ (.child _ .nil))) (by decide)
      (by simp [Expr.inRows_parenNode, Stmt.inRows_node b])
  | .forLoop v c u b => by
    rw [Stmt.node]
    exact Node.inRows_branch (by decide)
      (.token _ (.token _ (.child _ (.child _ (.child _ (.token _ (.child _ .nil)))))))
      (by decide)
      (by simp [v.inRows_node, Action.inRows_statementNode, u.inRows_updateNode,
        Stmt.inRows_node b])
  | .switchOn e cs => by
    rw [Stmt.node]
    exact Node.inRows_branch (by decide)
      (.append (.append (.token _ (.token _ (.child _ (.token _ (.token _ .nil)))))
        (Item.under_children _).rows) (.token _ .nil)) (by decide)
      (by simpa [Clause.nodes_eq_map, e.inRows_node] using Clause.inRows_nodes cs)
  | .returnValue v => by
    rw [Stmt.node]
    exact Node.inRows_branch (by decide)
      (.append (.token _ (Item.under_child? _).rows) (.token _ .nil)) (by decide)
      (by simp [Expr.inRows_node])
  | .breakOut => by
    rw [Stmt.node]
    exact Node.inRows_branch (by decide) (.token _ (.token _ .nil)) (by decide) trivial
  | .continueLoop => by
    rw [Stmt.node]
    exact Node.inRows_branch (by decide) (.token _ (.token _ .nil)) (by decide) trivial
  | .error _ => by rw [Stmt.node]; trivial

theorem Stmt.inRows_nodes : ∀ ss : List Stmt, ∀ s ∈ ss, s.node.InRows
  | [], _, hs => absurd hs List.not_mem_nil
  | s :: ss, x, hx => by
    rcases List.mem_cons.mp hx with hx | hx
    · rw [hx]
      exact Stmt.inRows_node s
    · exact Stmt.inRows_nodes ss x hx

theorem Clause.inRows_node : ∀ c : Clause, c.node.InRows
  | .onValue e body => by
    rw [Clause.node]
    exact Node.inRows_branch (by decide)
      (.append (.token _ (.child _ (.token _ .nil))) (Item.under_children _).rows) (by decide)
      (by simpa [Stmt.nodes_eq_map, e.inRows_node] using Stmt.inRows_nodes body)
  | .otherwise body => by
    rw [Clause.node]
    exact Node.inRows_branch (by decide)
      (.append (.attribute _ (.token _ .nil)) (Item.under_children _).rows) (by decide)
      (by simpa [Stmt.nodes_eq_map] using Stmt.inRows_nodes body)
  | .error _ => by rw [Clause.node]; trivial

theorem Clause.inRows_nodes : ∀ cs : List Clause, ∀ c ∈ cs, c.node.InRows
  | [], _, hc => absurd hc List.not_mem_nil
  | c :: cs, x, hx => by
    rcases List.mem_cons.mp hx with hx | hx
    · rw [hx]
      exact Clause.inRows_node c
    · exact Clause.inRows_nodes cs x hx

end

theorem HintParam.inRows_node (p : HintParam) : p.node.InRows := by
  unfold HintParam.node
  split
  · exact Node.inRows_branch (by decide) (.attribute _ (.child _ .nil)) (by decide)
      (by simp [Number.inRows_node])
  · exact p.number.inRows_node

namespace Hint

theorem inRows_node (h : Hint) : h.node.InRows := by
  obtain ⟨name, params⟩ := h
  cases params with
  | none =>
    exact Node.inRows_branch (by decide) (.child _ .nil) (by decide)
      ⟨name.inRows_node _ _, trivial⟩
  | some ps =>
    refine Node.inRows_branch (by decide)
      (.child _ (.append (.token _ (Item.under_separated _).rows) (.token _ .nil))) (by decide) ?_
    simp [paramItems, name.inRows_node, HintParam.inRows_node]

theorem inRows_listNode? (hs : List Hint) : ∀ n ∈ listNode? hs, n.InRows := by
  intro n hn
  cases hs with
  | nil => cases hn
  | cons h hs =>
    cases hn
    exact Node.inRows_branch (by decide) (Item.under_separated _).rows (by decide)
      (by simp [inRows_node])

end Hint

theorem Member.inRows_node (m : Member) : m.node.InRows := by
  cases m with
  | field s =>
    exact Node.inRows_branch (by decide) (s.rows_items.append (.token _ .nil)) (by decide)
      (by simp [s.inRows_items])
  | error s => trivial

theorem Parameter.inRows_node (p : Parameter) : p.node.InRows :=
  Node.inRows_branch (by decide) ((Item.under_child? _).rows.append p.specifier.rows_items)
    (by decide) (by simp [p.specifier.inRows_items, inRows_qualifierNode])

namespace Decl

theorem rows_scopeItems (c : Option Scope) : Item.Rows [.scope] (scopeItems c) := by
  cases c with
  | none => exact Item.Under.nil.rows
  | some s => exact .attribute _ .nil

theorem inRows_node (d : Decl) : d.node.InRows := by
  cases d with
  | shaderType t =>
    exact Node.inRows_branch (by decide) (.token _ (.child _ (.token _ .nil))) (by decide)
      (by simp [t.inRows_node])
  | renderMode ts =>
    exact Node.inRows_branch (by decide)
      (.append (.token _ (Item.under_separated _).rows) (.token _ .nil)) (by decide)
      (by simp [Term.inRows_node])
  | constant p v => exact v.inRows_constantNode (by decide) p
  | varying i p s =>
    exact Node.inRows_branch (by decide)
      (.append (.append (.token _ (Item.under_child? _).rows) (Item.under_child? _).rows)
        (.child _ (.token _ .nil))) (by decide)
      (by simp [inRows_qualifierNode, s.inRows_node])
  | groupUniforms g s =>
    exact Node.inRows_branch (by decide)
      (.append (.append (.token _ (Item.under_child? _).rows) (Item.under_marked? _ _).rows)
        (.token _ .nil)) (by decide) (by simp [Name.inRows_node])
  | uniform c p s hs v =>
    have hscope : Item.InRows (scopeItems c) := by cases c <;> trivial
    refine Node.inRows_branch (by decide)
      (.append (.append (.append (.append (rows_scopeItems c)
        (.token _ (Item.under_child? _).rows)) (.child _ (Item.under_marked? _ _).rows))
        (Item.under_marked? _ _).rows) (.token _ .nil)) (by decide) ?_
    simpa [hscope, inRows_qualifierNode, s.inRows_node, Expr.inRows_node] using
      Hint.inRows_listNode? hs
  | struct n ms =>
    exact Node.inRows_branch (by decide)
      (.append (.token _ (.child _ (.token _ (Item.under_children _).rows)))
        (.token _ (.token _ .nil))) (by decide)
      (by simp [n.inRows_node, Member.inRows_node])
  | function t n ps body =>
    exact Node.inRows_branch (by decide)
      (.append (.child _ (.child _ (.token _ (Item.under_separated _).rows)))
        (.token _ (.child _ .nil))) (by decide)
      (by simp [t.inRows_node, n.inRows_node, Parameter.inRows_node, Stmt.inRows_node])
  | includes path =>
    exact Node.inRows_branch (by decide) (.token _ (.token _ (.child _ .nil))) (by decide)
      ⟨trivial, trivial⟩
  | error s => trivial

end Decl

end Forms

end ShaderSyntax
