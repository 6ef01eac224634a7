import ShaderSyntax.Proofs.Nesting
import ShaderSyntax.Proofs.Shape.Declaration

/-!
# Canonical trees

What the shape of the nodes means for the trees of a document: which kinds never stand as operand,
base, condition or target, where types and qualified arguments stand, which lists hold something,
and that every `else` belongs to the nearest `if`. It holds of every tree that a walk meets, with or
without errors in it.
-/
namespace ShaderSyntax

namespace Tree

/-- The tree owns the child under the label. -/
def Holds (t : Tree) (label : Label) (child : Tree) : Prop :=
  .child label child ∈ t.fields

/-- The tree ends with an `if` that has no `else`, through the last statements of loops and of
`else` branches. -/
inductive EndsOpen : Tree → Prop where
  | bare {t : Tree} (hk : t.kind = .ifStatement) (h : ∀ e, ¬t.Holds .alternate e) : t.EndsOpen
  | alternate {t e : Tree} (hk : t.kind = .ifStatement) (h : t.Holds .alternate e)
      (he : e.EndsOpen) : t.EndsOpen
  | body {t b : Tree} (hk : t.kind ∈ [Kind.whileStatement, .forStatement]) (h : t.Holds .action b)
      (hb : b.EndsOpen) : t.EndsOpen

/-- A number, or one minus before a number. -/
def IsSignedNumber (t : Tree) : Prop :=
  t.kind ∈ [Kind.integer, .float] ∨
    ∃ n : Tree, t.kind = .unaryExpr ∧ n.kind ∈ [Kind.integer, .float] ∧
      t.fields = [.attribute .operator (Text.ofString "-"), .child .argument n]

/-- The shape that the grammar gives to a tree and its children. -/
structure Canonical (t : Tree) : Prop where
  left : t.kind = .binaryExpr → ∀ c, t.Holds .left c → c.kind ≠ .conditionalExpr
  right : t.kind = .binaryExpr → ∀ c, t.Holds .right c →
    c.kind ∉ [Kind.binaryExpr, .conditionalExpr]
  operand : t.kind = .unaryExpr → ∀ c, t.Holds .argument c →
    c.kind ∉ [Kind.binaryExpr, .conditionalExpr]
  base : ∀ label, (t.kind, label) ∈
      [(Kind.callExpr, Label.function), (.subscriptExpr, .argument), (.memberExpr, .argument)] →
    ∀ c, t.Holds label c → c.kind ∉ [Kind.unaryExpr, .binaryExpr, .conditionalExpr]
  condition : t.kind = .conditionalExpr → ∀ c, t.Holds .condition c → c.kind ≠ .conditionalExpr
  /-- A type is the type of something declared, or it is called. -/
  typeName : ∀ label c, t.Holds label c → c.kind = .builtinType → (t.kind, label) ∈
    [(Kind.varSpecifier, Label.ofType), (.structMember, .ofType), (.parameter, .ofType),
      (.functionDeclaration, .functionType), (.arrayType, .baseType), (.callExpr, .function)]
  qualified : ∀ label c, t.Holds label c → c.kind = .qualifiedArgument →
    t.kind = .callExpr ∧ label = .argument
  target : t.kind ∈ [Kind.assignmentStatement, .adjustmentStatement] → ∀ c, t.Holds .argument c →
    c.kind ∈ [Kind.memberExpr, .subscriptExpr, .ident, .builtinVariable, .builtinFunction,
      .invalidIdent]
  filled : ∀ label, (t.kind, label) ∈
      [(Kind.structDeclaration, Label.member), (.arrayLiteralExpr, .value), (.arraySizes, .size),
        (.hintList, .hint)] →
    ∃ c, t.Holds label c
  param : t.kind = .hint → ∀ c, t.Holds .param c → c.IsSignedNumber
  closed : t.kind = .ifStatement → ∀ e, t.Holds .alternate e → ∀ c, t.Holds .action c →
    ¬c.EndsOpen

end Tree

namespace Kind

variable {owner child : Kind} {label : Label}

theorem place_of_admits_builtinType (h : owner.admits label builtinType = true) :
    (owner, label) ∈
      [(varSpecifier, Label.ofType), (structMember, .ofType), (parameter, .ofType),
        (functionDeclaration, .functionType), (arrayType, .baseType), (callExpr, .function)] := by
  unfold admits at h
  split at h <;> first | exact absurd h (by decide) | simp

theorem place_of_admits_qualifiedArgument (h : owner.admits label qualifiedArgument = true) :
    owner = callExpr ∧ label = .argument := by
  unfold admits at h
  split at h <;> first | exact absurd h (by decide) | exact ⟨rfl, rfl⟩

theorem mem_of_isTarget (h : child.isTarget = true) :
    child ∈ [memberExpr, subscriptExpr, ident, builtinVariable, builtinFunction, invalidIdent] := by
  unfold isTarget at h
  split at h <;> first | exact absurd h (by decide) | simp

theorem ne_of_admits {other : Kind} (h : owner.admits label child = true)
    (ho : owner.admits label other = false) : child ≠ other := by
  rintro rfl
  rw [h] at ho
  cases ho

end Kind

section Transfer

variable {locate : Nat → Nat → Span Nat} {k : Kind} {label : Label}

/-- What placed items hold was placed from one of them. -/
theorem Item.exists_of_mem_place {items : List Item} {start : Nat} {c : Tree}
    (h : Field.child label c ∈ Item.place locate start items) :
    ∃ n s, Item.child label n ∈ items ∧ c = n.place locate s := by
  induction items generalizing start with
  | nil => cases h
  | cons x items ih =>
    have hrest : ∀ s, Field.child label c ∈ Item.place locate s items →
        ∃ n s, Item.child label n ∈ x :: items ∧ c = n.place locate s := by
      intro s hs
      obtain ⟨n, s, hn, hc⟩ := ih hs
      exact ⟨n, s, List.mem_cons_of_mem x hn, hc⟩
    rcases x with l | ⟨label', l⟩ | ⟨label', m⟩
    · exact hrest (start + 1) h
    · exact hrest (start + 1) (by simpa [Item.place] using h)
    · rcases List.mem_cons.mp h with he | h
      · cases he
        exact ⟨m, start, by simp, rfl⟩
      · exact hrest (start + m.size) h

/-- No child is lost by placing. -/
theorem Item.exists_mem_place {items : List Item} {n : Node} (start : Nat)
    (h : Item.child label n ∈ items) :
    ∃ s, Field.child label (n.place locate s) ∈ Item.place locate start items := by
  induction items generalizing start with
  | nil => cases h
  | cons x items ih =>
    rcases x with l | ⟨label', l⟩ | ⟨label', m⟩
    · exact ih (start + 1) (by simpa using h)
    · obtain ⟨s, hs⟩ := ih (start + 1) (by simpa using h)
      exact ⟨s, List.mem_cons_of_mem _ hs⟩
    · rcases List.mem_cons.mp h with he | h
      · cases he
        exact ⟨start, by simp [Item.place]⟩
      · obtain ⟨s, hs⟩ := ih (start + m.size) h
        exact ⟨s, List.mem_cons_of_mem _ hs⟩

theorem Item.Shaped.of_mem {items : List Item} {n : Node} (h : Item.Shaped k items)
    (hn : Item.child label n ∈ items) : k.admits label n.kind = true ∧ n.Shaped :=
  Item.itemwise_shaped.of_mem h hn

theorem Node.inherits_shaped : Inherits Node.Shaped Item.Shaped := by
  constructor
  · exact fun _ _ h => h.2
  · exact fun _ _ _ h => h
  · exact fun _ _ _ _ h => h
  · exact fun _ _ _ _ h => ⟨h.1.2, h.2⟩

theorem Stmt.eq_of_kind_ifStatement {s : Stmt} (h : s.node.kind = .ifStatement) :
    (∃ c t, s = .ifThen c t) ∨ ∃ c t e, s = .ifElse c t e := by
  cases s with
  | ifThen c t => exact .inl ⟨c, t, rfl⟩
  | ifElse c t e => exact .inr ⟨c, t, e, rfl⟩
  | perform a => cases a <;> cases h
  | _ => cases h

theorem Stmt.eq_of_kind_loop {s : Stmt}
    (h : s.node.kind = .whileStatement ∨ s.node.kind = .forStatement) :
    (∃ c b, s = .whileLoop c b) ∨ ∃ v c u b, s = .forLoop v c u b := by
  cases s with
  | whileLoop c b => exact .inl ⟨c, b, rfl⟩
  | forLoop v c u b => exact .inr ⟨v, c, u, b, rfl⟩
  | perform a => cases a <;> rcases h with h | h <;> cases h
  | _ => rcases h with h | h <;> cases h

/-- A tree that ends open is the tree of a statement that does. -/
theorem Tree.EndsOpen.endsOpen {t : Tree} (h : t.EndsOpen) :
    ∀ (s : Stmt) (start : Nat), t = s.node.place locate start → s.endsOpen = true := by
  induction h with
  | bare hk h =>
    rintro s start rfl
    rw [Node.kind_place] at hk
    rcases Stmt.eq_of_kind_ifStatement hk with ⟨c, t, rfl⟩ | ⟨c, t, e, rfl⟩
    · rfl
    · have he : Item.child .alternate e.node ∈
          [Item.keyword .ifThen, .child .condition c.parenNode, .child .action t.node,
            .keyword .otherwise, .child .alternate e.node] := by simp
      obtain ⟨s, hs⟩ := Item.exists_mem_place start he
      exact absurd hs (h _)
  | alternate hk h he ih =>
    rintro s start rfl
    rw [Node.kind_place] at hk
    rcases Stmt.eq_of_kind_ifStatement hk with ⟨c, t, rfl⟩ | ⟨c, t, e, rfl⟩
    · rfl
    · obtain ⟨n, s, hn, hc⟩ := Item.exists_of_mem_place h
      have hn : n = e.node := by simpa [Item.keyword] using hn
      exact ih e s (by rw [hc, hn])
  | body hk h hb ih =>
    rintro s start rfl
    have hk : s.node.kind = .whileStatement ∨ s.node.kind = .forStatement := by simpa using hk
    rcases Stmt.eq_of_kind_loop hk with ⟨c, b, rfl⟩ | ⟨v, c, u, b, rfl⟩
    · obtain ⟨n, s, hn, hc⟩ := Item.exists_of_mem_place h
      have hn : n = b.node := by simpa [Item.keyword] using hn
      exact ih b s (by rw [hc, hn])
    · obtain ⟨n, s, hn, hc⟩ := Item.exists_of_mem_place h
      have hn : n = b.node := by simpa [Item.keyword, Item.mark] using hn
      exact ih b s (by rw [hc, hn])

theorem HintParam.isSignedNumber_place (p : HintParam) (start : Nat) :
    (p.node.place locate start).IsSignedNumber := by
  have hnumber : ∀ (n : Number) (s : Nat),
      (n.node.place locate s).kind ∈ [Kind.integer, .float] := by
    intro n s
    cases n <;> simp [Number.node, Node.kind]
  unfold HintParam.node
  split
  · exact .inr ⟨p.number.node.place locate (start + 1), rfl, hnumber _ _, rfl⟩
  · exact .inl (hnumber _ _)

/-- What a placed node holds is a node that it admits. -/
theorem Node.Shaped.of_holds {n : Node} {start : Nat} {c : Tree} (h : n.Shaped)
    (hc : (n.place locate start).Holds label c) : n.kind.admits label c.kind = true := by
  cases n with
  | leaf k l => cases hc
  | error s => cases hc
  | branch k items =>
    obtain ⟨m, s, hm, rfl⟩ := Item.exists_of_mem_place hc
    rw [Node.kind_place]
    exact (h.2.of_mem hm).1

/-- The labels that a node requires are there. -/
theorem Node.Shaped.filled {n : Node} (h : n.Shaped) (start : Nat) (hl : label ∈ n.kind.required) :
    ∃ c, (n.place locate start).Holds label c := by
  cases n with
  | leaf k l =>
    have hk : k.required = [] := h
    rw [Node.kind, hk] at hl
    cases hl
  | error s => cases hl
  | branch k items =>
    obtain ⟨m, hm⟩ := h.1.filled label hl
    obtain ⟨s, hs⟩ := Item.exists_mem_place start hm
    exact ⟨_, hs⟩

theorem Node.Shaped.param {n : Node} {start : Nat} {c : Tree} (h : n.Shaped)
    (hk : n.kind = .hint) (hc : (n.place locate start).Holds .param c) : c.IsSignedNumber := by
  cases n with
  | leaf k l => cases hc
  | error s => cases hc
  | branch k items =>
    obtain ⟨m, s, hm, rfl⟩ := Item.exists_of_mem_place hc
    obtain ⟨p, rfl⟩ := h.1.param hk m hm
    exact p.isSignedNumber_place s

theorem Node.Shaped.closed {n : Node} {start : Nat} {e c : Tree} (h : n.Shaped)
    (hk : n.kind = .ifStatement) (he : (n.place locate start).Holds .alternate e)
    (hc : (n.place locate start).Holds .action c) : ¬c.EndsOpen := by
  cases n with
  | leaf k l => cases hc
  | error s => cases hc
  | branch k items =>
    obtain ⟨m, s, hm, -⟩ := Item.exists_of_mem_place he
    obtain ⟨m', s', hm', rfl⟩ := Item.exists_of_mem_place hc
    obtain ⟨stmt, rfl, hclosed⟩ := h.1.closed hk m hm m' hm'
    intro hopen
    have ho := hopen.endsOpen stmt s' rfl
    rw [hclosed] at ho
    cases ho

/-- Nodes in shape are placed as canonical trees. -/
theorem Node.Shaped.canonical {n : Node} (h : n.Shaped) (start : Nat) :
    (n.place locate start).Canonical := by
  have hkind : (n.place locate start).kind = n.kind := n.kind_place locate start
  have held : ∀ owner label c, (n.place locate start).kind = owner →
      (n.place locate start).Holds label c → owner.admits label c.kind = true := by
    rintro owner label c rfl hc
    rw [hkind]
    exact h.of_holds hc
  constructor
  case left =>
    intro hk c hc
    exact Kind.ne_of_admits (held _ _ c hk hc) rfl
  case right =>
    intro hk c hc
    have ha := held _ _ c hk hc
    simpa using ⟨Kind.ne_of_admits ha rfl, Kind.ne_of_admits ha rfl⟩
  case operand =>
    intro hk c hc
    have ha := held _ _ c hk hc
    simpa using ⟨Kind.ne_of_admits ha rfl, Kind.ne_of_admits ha rfl⟩
  case base =>
    intro label hl c hc
    simp only [List.mem_cons, Prod.mk.injEq, List.not_mem_nil, or_false] at hl
    rcases hl with ⟨hk, rfl⟩ | ⟨hk, rfl⟩ | ⟨hk, rfl⟩ <;>
    · have ha := held _ _ c hk hc
      simpa using ⟨Kind.ne_of_admits ha rfl, Kind.ne_of_admits ha rfl, Kind.ne_of_admits ha rfl⟩
  case condition =>
    intro hk c hc
    exact Kind.ne_of_admits (held _ _ c hk hc) rfl
  case typeName =>
    intro label c hc hk
    have ha := held _ _ c rfl hc
    rw [hk] at ha
    exact Kind.place_of_admits_builtinType ha
  case qualified =>
    intro label c hc hk
    have ha := held _ _ c rfl hc
    rw [hk] at ha
    exact Kind.place_of_admits_qualifiedArgument ha
  case target =>
    intro hk c hc
    simp only [List.mem_cons, List.not_mem_nil, or_false] at hk
    rcases hk with hk | hk
    · exact Kind.mem_of_isTarget (held _ _ c hk hc)
    · exact Kind.mem_of_isTarget (held _ _ c hk hc)
  case filled =>
    intro label hl
    apply h.filled start
    simp only [List.mem_cons, Prod.mk.injEq, List.not_mem_nil, or_false, hkind] at hl
    rcases hl with ⟨hk, rfl⟩ | ⟨hk, rfl⟩ | ⟨hk, rfl⟩ | ⟨hk, rfl⟩ <;> simp [hk, Kind.required]
  case param =>
    intro hk c hc
    exact h.param (hkind ▸ hk) hc
  case closed =>
    intro hk e he c hc
    exact h.closed (hkind ▸ hk) he hc

end Transfer

theorem Node.exists_of_mem_placeAll {locate : Nat → Nat → Span Nat} {nodes : List Node}
    {start : Nat} {t : Tree} (h : t ∈ Node.placeAll locate start nodes) :
    ∃ n ∈ nodes, ∃ s, t = n.place locate s := by
  induction nodes generalizing start with
  | nil => cases h
  | cons n nodes ih =>
    rcases List.mem_cons.mp h with rfl | h
    · exact ⟨n, by simp, start, rfl⟩
    · obtain ⟨m, hm, hs⟩ := ih h
      exact ⟨m, List.mem_cons_of_mem n hm, hs⟩

/-- Whatever the text and the limit, every tree that a walk through a document meets is canonical,
and no declaration is a type or an argument. -/
theorem canonical_shape {levels : Nat} {text : Text} {d : Document}
    (h : Document.parse levels text = .ok d) :
    (∀ t ∈ d.trees, t.kind ≠ .builtinType ∧ t.kind ≠ .qualifiedArgument) ∧
      ∀ v ∈ Tree.walk (fun _ => true) d.trees, v.tree.Canonical := by
  have hshaped : ∀ decl ∈ d.decls, decl.node.Shaped :=
    Grammar.declarations_yields levels _ _ _ _ (Document.parse_eq_ok_iff.mp h).2
  constructor
  · intro t ht
    obtain ⟨n, hn, s, rfl⟩ := Node.exists_of_mem_placeAll ht
    obtain ⟨decl, -, rfl⟩ := List.mem_map.mp hn
    have hl := decl.looseness_node
    rw [Node.kind_place]
    constructor
    · intro hk
      rw [hk] at hl
      cases hl
    · intro hk
      rw [hk] at hl
      cases hl
  · intro v hv
    obtain ⟨n, hn, start, run, -, -, ht⟩ := Document.walk_placed h v hv
    obtain ⟨root, hroot, hsub⟩ := List.mem_flatMap.mp hn
    obtain ⟨decl, hdecl, rfl⟩ := List.mem_map.mp hroot
    rw [ht]
    exact (Node.inherits_shaped.subnodes _ (hshaped decl hdecl) n hsub).canonical start

/-- An `else` after two open `if`s, a chain of operators around an error, and a type that is
called. -/
theorem canonical_shape_nested :
    ∃ d, Document.parse 6 (Text.ofString
        "void f() { if (a) while (b) if (c) d = -x * @ ? 1 : 2; else vec2(in y)[0]++; }") = .ok d ∧
      (Tree.walk (fun _ => true) d.trees).length = 30 ∧
      (∀ t ∈ d.trees, t.kind ≠ .builtinType ∧ t.kind ≠ .qualifiedArgument) ∧
      ∀ v ∈ Tree.walk (fun _ => true) d.trees, v.tree.Canonical := by
  obtain ⟨d, hd, hlen⟩ := Document.exists_parse 6 (Text.ofString
      "void f() { if (a) while (b) if (c) d = -x * @ ? 1 : 2; else vec2(in y)[0]++; }")
    (fun d => (Tree.walk (fun _ => true) d.trees).length == 30) (by decide +kernel)
  exact ⟨d, hd, eq_of_beq hlen, canonical_shape hd⟩

end ShaderSyntax
