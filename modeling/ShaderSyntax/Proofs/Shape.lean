import ShaderSyntax.Ast.Decl
import ShaderSyntax.Proofs.Canonical
import ShaderSyntax.Proofs.Itemwise

/-!
# The shape of nodes

Which kinds of nodes may stand where. Operators are ranked by how loosely they bind, and each place
in a node admits what binds tightly enough. Some lists may not be empty, the parameters of a hint
are numbers, and an `else` belongs to the nearest `if`. Invalid words and error nodes are in shape
wherever they stand.
-/
namespace ShaderSyntax

namespace Kind

/-- How loosely an expression of this kind binds: what is no operation binds tightest, and what is
no expression by itself is looser than every expression. -/
def looseness : Kind → Nat
  | builtinType | qualifiedArgument => 4
  | conditionalExpr => 3
  | binaryExpr => 2
  | unaryExpr => 1
  | _ => 0

/-- The kinds of what an assignment may change. -/
def isTarget : Kind → Bool
  | memberExpr | subscriptExpr | ident | builtinVariable | builtinFunction | invalidIdent => true
  | _ => false

/-- A node of the first kind may hold a node of the other kind under the label. -/
def admits (owner : Kind) (label : Label) (child : Kind) : Bool :=
  match owner, label with
  | binaryExpr, .left | conditionalExpr, .condition => child.looseness ≤ 2
  | binaryExpr, .right | unaryExpr, .argument => child.looseness ≤ 1
  | subscriptExpr, .argument | memberExpr, .argument => child.looseness == 0
  | callExpr, .function => child.looseness == 0 || child == builtinType
  | callExpr, .argument => child.looseness ≤ 3 || child == qualifiedArgument
  | assignmentStatement, .argument | adjustmentStatement, .argument => child.isTarget
  -- The positions of types.
  | varSpecifier, .ofType | structMember, .ofType | parameter, .ofType
  | functionDeclaration, .functionType | arrayType, .baseType => child != qualifiedArgument
  | _, _ => child.looseness ≤ 3

/-- What binds tightest may stand in every place but that of a target. -/
theorem admits_of_looseness {owner child : Kind} {label : Label} (h : child.looseness = 0)
    (ha : owner ≠ assignmentStatement) (hb : owner ≠ adjustmentStatement) :
    owner.admits label child = true := by
  have hq : child ≠ qualifiedArgument := by
    rintro rfl
    cases h
  unfold admits
  split <;> simp_all

/-- The labels under which a node of the kind holds at least one child. -/
def required : Kind → List Label
  | structDeclaration => [.member]
  | arrayLiteralExpr => [.value]
  | arraySizes => [.size]
  | hintList => [.hint]
  | _ => []

/-- Nothing but what the kind admits matters for a node of it. -/
def isPlain (k : Kind) : Bool :=
  k.required.isEmpty && k != hint && k != ifStatement

end Kind

/-- The conditions on a node that are not about single children. -/
structure Item.Complete (k : Kind) (items : List Item) : Prop where
  filled : ∀ label ∈ k.required, ∃ n, Item.child label n ∈ items
  param : k = .hint → ∀ n, Item.child .param n ∈ items → ∃ p : HintParam, n = p.node
  closed : k = .ifStatement → ∀ e, Item.child .alternate e ∈ items →
    ∀ n, Item.child .action n ∈ items → ∃ s : Stmt, n = s.node ∧ s.endsOpen = false

theorem Item.complete_of_isPlain {k : Kind} (h : k.isPlain = true) (items : List Item) :
    Item.Complete k items := by
  simp only [Kind.isPlain, Bool.and_eq_true, List.isEmpty_iff, bne_iff_ne] at h
  obtain ⟨⟨hr, hh⟩, hi⟩ := h
  constructor
  · simp [hr]
  · exact fun hk => absurd hk hh
  · exact fun hk => absurd hk hi

mutual

/-- The node and all nodes below it are in shape. -/
def Node.Shaped : Node → Prop
  | .leaf k _ => k.required = []
  | .error _ => True
  | .branch k items => Item.Complete k items ∧ Item.Shaped k items

/-- What a node of the kind holds is admitted there and in shape. -/
def Item.Shaped (k : Kind) : List Item → Prop
  | [] => True
  | .token _ :: rest => Item.Shaped k rest
  | .attribute _ _ :: rest => Item.Shaped k rest
  | .child label n :: rest => (k.admits label n.kind = true ∧ n.Shaped) ∧ Item.Shaped k rest

end

/-- Most places admit whatever is an expression or no expression at all. -/
theorem Node.admitted {n : Node} {k : Kind} {label : Label} (hn : n.kind.looseness ≤ 3)
    (h : n.Shaped) (hk : ∀ child : Kind, k.admits label child = decide (child.looseness ≤ 3)) :
    k.admits label n.kind = true ∧ n.Shaped :=
  ⟨by simpa [hk] using hn, h⟩

theorem Node.shaped_branch {k : Kind} {items : List Item} (hk : k.isPlain = true)
    (h : Item.Shaped k items) : (Node.branch k items).Shaped :=
  ⟨Item.complete_of_isPlain hk items, h⟩

namespace Item

variable {k : Kind} {label : Label}

@[simp] theorem shaped_nil : Item.Shaped k [] ↔ True := Iff.rfl

@[simp] theorem shaped_mark (p : Punct) (rest : List Item) :
    Item.Shaped k (.mark p :: rest) ↔ Item.Shaped k rest := Iff.rfl

@[simp] theorem shaped_keyword (w : Keyword) (rest : List Item) :
    Item.Shaped k (.keyword w :: rest) ↔ Item.Shaped k rest := Iff.rfl

@[simp] theorem shaped_token (l : Lexeme) (rest : List Item) :
    Item.Shaped k (.token l :: rest) ↔ Item.Shaped k rest := Iff.rfl

@[simp] theorem shaped_attribute (l : Lexeme) (rest : List Item) :
    Item.Shaped k (.attribute label l :: rest) ↔ Item.Shaped k rest := Iff.rfl

@[simp] theorem shaped_child (n : Node) (rest : List Item) :
    Item.Shaped k (.child label n :: rest) ↔
      (k.admits label n.kind = true ∧ n.Shaped) ∧ Item.Shaped k rest := Iff.rfl

theorem itemwise_shaped : Itemwise (Item.Shaped k) (fun _ => True) (fun _ => True)
    fun label n => k.admits label n.kind = true ∧ n.Shaped := by
  constructor <;> simp

@[simp] theorem shaped_append (xs ys : List Item) :
    Item.Shaped k (xs ++ ys) ↔ Item.Shaped k xs ∧ Item.Shaped k ys :=
  itemwise_shaped.append xs ys

@[simp] theorem shaped_children (nodes : List Node) :
    Item.Shaped k (children label nodes) ↔
      ∀ n ∈ nodes, k.admits label n.kind = true ∧ n.Shaped :=
  itemwise_shaped.children nodes

@[simp] theorem shaped_separated (nodes : List Node) :
    Item.Shaped k (separated label nodes) ↔
      ∀ n ∈ nodes, k.admits label n.kind = true ∧ n.Shaped :=
  itemwise_shaped.separated trivial nodes

@[simp] theorem shaped_child? (n : Option Node) :
    Item.Shaped k (child? label n) ↔
      ∀ m ∈ n, k.admits label m.kind = true ∧ m.Shaped :=
  itemwise_shaped.child? n

@[simp] theorem shaped_marked? (p : Punct) (n : Option Node) :
    Item.Shaped k (marked? p label n) ↔
      ∀ m ∈ n, k.admits label m.kind = true ∧ m.Shaped :=
  itemwise_shaped.marked? trivial n

theorem child_mem_children {n : Node} {nodes : List Node} (h : n ∈ nodes) :
    Item.child label n ∈ children label nodes :=
  List.mem_map_of_mem h

theorem child_mem_separated {n : Node} {nodes : List Node} (h : n ∈ nodes) :
    Item.child label n ∈ separated label nodes := by
  induction nodes with
  | nil => cases h
  | cons m nodes ih =>
    cases nodes with
    | nil =>
      obtain rfl := List.mem_singleton.mp h
      simp [separated]
    | cons m' nodes =>
      rcases List.mem_cons.mp h with rfl | h
      · simp [separated]
      · simp [separated, ih h]

theorem mem_of_child_mem_separated {n : Node} {nodes : List Node}
    (h : Item.child label n ∈ separated label nodes) : n ∈ nodes := by
  induction nodes with
  | nil => cases h
  | cons m nodes ih =>
    cases nodes with
    | nil => simpa [separated] using h
    | cons m' nodes =>
      have hs : n = m ∨ Item.child label n ∈ separated label (m' :: nodes) := by
        simpa [separated, mark] using h
      rcases hs with rfl | hs
      · simp
      · exact List.mem_cons_of_mem m (ih hs)

end Item

theorem Name.shaped_node (n : Name) : n.node.kind.looseness = 0 ∧ n.node.Shaped := by
  cases n with
  | valid cls w => cases cls <;> exact ⟨rfl, rfl⟩
  | invalid cls w => exact ⟨rfl, rfl⟩

theorem Number.shaped_node (n : Number) : n.node.kind.looseness = 0 ∧ n.node.Shaped := by
  cases n <;> exact ⟨rfl, rfl⟩

end ShaderSyntax
