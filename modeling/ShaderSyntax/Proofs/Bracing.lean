import ShaderSyntax.Proofs.Confinement
import ShaderSyntax.Proofs.Nesting

/-!
# Nodes with their braces

Whatever its form, a node writes its own braces in pairs, and leaves hold no brace at all. So only
an error node can upset the balance: if the lexemes of all invalid nodes below a node are balanced,
so are those of every node below it.
-/
namespace ShaderSyntax

namespace Recovery

theorem balanced_nil : Balanced [] :=
  ⟨rfl, fun front hf => by simp [List.prefix_nil.mp hf]⟩

/-- A part from the front of balanced lexemes. -/
theorem Balanced.take {ts : List Lexeme} (h : Balanced ts) (n : Nat) :
    (ts.take n).count (.punct .closeBrace) ≤ (ts.take n).count (.punct .openBrace) :=
  h.covered _ (List.take_prefix n ts)

theorem balanced_of_take {ts : List Lexeme}
    (hc : ts.count (.punct .closeBrace) = ts.count (.punct .openBrace))
    (h : ∀ n, (ts.take n).count (.punct .closeBrace) ≤ (ts.take n).count (.punct .openBrace)) :
    Balanced ts := by
  refine ⟨hc, fun front hf => ?_⟩
  rw [List.prefix_iff_eq_take.mp hf]
  exact h _

theorem Balanced.append {xs ys : List Lexeme} (hx : Balanced xs) (hy : Balanced ys) :
    Balanced (xs ++ ys) := by
  apply balanced_of_take
  · simp only [List.count_append, hx.closes, hy.closes]
  · intro n
    have hfirst := hx.take n
    have hsecond := hy.take (n - xs.length)
    simp only [List.take_append, List.count_append]
    omega

theorem balanced_single {l : Lexeme} (h : isBrace l = false) : Balanced [l] := by
  have hp : (l == .punct .openBrace) = false ∧ (l == .punct .closeBrace) = false := by
    simpa [isPunct] using isPunct_of_not_brace h
  apply balanced_of_take
  · simp [List.count_cons, hp]
  · intro n
    cases n <;> simp [List.count_cons, hp]

/-- Balanced lexemes between a pair of braces. -/
theorem Balanced.braces {ts : List Lexeme} (h : Balanced ts) :
    Balanced (.punct .openBrace :: (ts ++ [Lexeme.punct .closeBrace])) := by
  have hopen : (Lexeme.punct .openBrace == .punct .closeBrace) = false := by decide
  apply balanced_of_take
  · simp [h.closes]
  · intro n
    cases n with
    | zero => simp
    | succ n =>
      have hbody := h.take n
      have hlast := List.count_le_length (a := Lexeme.punct .closeBrace)
        (l := [Lexeme.punct .closeBrace].take (n - ts.length))
      simp only [List.length_take, List.length_singleton] at hlast
      simp only [List.take_succ_cons, List.take_append, List.count_cons, List.count_append, hopen,
        beq_self_eq_true, Bool.false_eq_true, if_true, if_false]
      omega

/-- What is closed further out stands behind what is closed here. -/
theorem outside_succ_ne {ts : List Lexeme} (depth : Nat) (h : outside 0 ts ≠ []) :
    outside (depth + 1) ts ≠ outside 0 ts := by
  intro he
  have hsucc := (outside_suffix_zero depth ts).length_le
  have htail := (outside_suffix 0 (outside depth ts).tail).length_le
  have hpos := List.length_pos_iff.mpr h
  rw [← outside_succ, he, List.length_tail] at htail
  omega

/-- A part that does not come past the surroundings closes no more than is open. -/
theorem covered_of_outside {taken rest : List Lexeme} {depth : Nat}
    (h : outside depth (taken ++ rest) <:+ rest) (n : Nat) :
    (taken.take n).count (.punct .closeBrace) ≤ depth + (taken.take n).count (.punct .openBrace) := by
  induction taken generalizing depth n with
  | nil => simp
  | cons l taken ih =>
    cases n with
    | zero => simp
    | succ n =>
      rcases brace_cases l with rfl | rfl | hl
      · have hopened : outside (depth + 1) (taken ++ rest) <:+ rest := h
        have hrest := ih hopened n
        simp only [List.take_succ_cons, List.count_cons_self, List.count_cons, beq_iff_eq,
          reduceCtorEq, if_false, Lexeme.punct.injEq]
        omega
      · cases depth with
        | zero =>
          -- Here the surroundings close, before the end of the part.
          have hlen := h.length_le
          simp only [List.cons_append, outside_zero_closeBrace, List.length_cons,
            List.length_append] at hlen
          omega
        | succ depth =>
          have hclosed : outside depth (taken ++ rest) <:+ rest := h
          have hrest := ih hclosed n
          simp only [List.take_succ_cons, List.count_cons_self, List.count_cons, beq_iff_eq,
            reduceCtorEq, if_false, Lexeme.punct.injEq]
          omega
      · have hp : (l == .punct .openBrace) = false ∧ (l == .punct .closeBrace) = false := by
          simpa [isPunct] using isPunct_of_not_brace hl
        rw [List.cons_append, outside_cons hl] at h
        simpa [List.count_cons, hp] using ih h n

/-- Lexemes that are left behind without a change to the surroundings are balanced, if there are
surroundings that close. -/
theorem balanced_of_outside {taken rest : List Lexeme}
    (h : outside 0 rest = outside 0 (taken ++ rest)) (hne : outside 0 rest ≠ []) :
    Balanced taken := by
  have hsuffix : outside 0 (taken ++ rest) <:+ rest := h ▸ outside_suffix 0 rest
  have hcovered := covered_of_outside hsuffix
  have hfront : ∀ front, front <+: taken →
      front.count (.punct .closeBrace) ≤ 0 + front.count (.punct .openBrace) := by
    intro front hf
    rw [List.prefix_iff_eq_take.mp hf]
    exact hcovered _
  refine balanced_of_take ?_ fun n => by have := hcovered n; omega
  have hle := hfront taken (List.prefix_refl taken)
  rw [outside_append rest hfront] at h
  cases hopen : 0 + taken.count (.punct .openBrace) - taken.count (.punct .closeBrace) with
  | zero => omega
  | succ depth =>
    -- With a brace left open, the surroundings would close further back.
    rw [hopen] at h
    exact absurd h.symm (outside_succ_ne depth hne)

end Recovery

open Recovery

mutual

/-- Leaves hold no brace, and branches write theirs in pairs. Of error nodes nothing is known. -/
inductive Node.Braced : Node → Prop
  | leaf (k : Kind) {l : Lexeme} (hl : isBrace l = false) : Node.Braced (.leaf k l)
  | error (s : Skipped) : Node.Braced (.error s)
  | branch (k : Kind) {items : List Item} (h : Item.Braced items) : Node.Braced (.branch k items)

/-- The braces among the items are in pairs, and the children write theirs in pairs. -/
inductive Item.Braced : List Item → Prop
  | nil : Item.Braced []
  | token {l : Lexeme} {rest : List Item} (hl : isBrace l = false) (h : Item.Braced rest) :
    Item.Braced (.token l :: rest)
  | attribute {label : Label} {l : Lexeme} {rest : List Item} (hl : isBrace l = false)
    (h : Item.Braced rest) : Item.Braced (.attribute label l :: rest)
  | child {label : Label} {n : Node} {rest : List Item} (hn : n.Braced) (h : Item.Braced rest) :
    Item.Braced (.child label n :: rest)
  | braces {inner rest : List Item} (hi : Item.Braced inner) (h : Item.Braced rest) :
    Item.Braced (.mark .openBrace :: (inner ++ .mark .closeBrace :: rest))

end

section Balance

/-- Items in a pair of braces, and those behind them. -/
theorem Item.lexemes_braces (inner rest : List Item) :
    lexemes (.mark .openBrace :: (inner ++ .mark .closeBrace :: rest)) =
      Lexeme.punct .openBrace :: (lexemes inner ++ [Lexeme.punct .closeBrace]) ++ lexemes rest := by
  simp [Item.mark, Item.lexemes]

theorem Item.sites_braces (after : Nat) (inner rest : List Item) :
    sites after (.mark .openBrace :: (inner ++ .mark .closeBrace :: rest)) =
      sites (after + (size rest + 1)) inner ++ sites after rest := by
  simp [Item.mark, Item.sites, Item.size]

theorem Item.subnodes_append (xs ys : List Item) :
    subnodes (xs ++ ys) = subnodes xs ++ subnodes ys := by
  induction xs with
  | nil => simp [subnodes]
  | cons x xs ih => cases x <;> simp [subnodes, ih]

theorem Item.subnodes_braces (inner rest : List Item) :
    subnodes (.mark .openBrace :: (inner ++ .mark .closeBrace :: rest)) =
      subnodes inner ++ subnodes rest := by
  simp [Item.mark, Item.subnodes, Item.subnodes_append]

mutual

/-- If the invalid nodes below a node are balanced, so is the node. -/
theorem Node.Braced.balanced : ∀ {n : Node} (after : Nat), n.Braced →
    (∀ site ∈ n.sites after, Balanced site.2.lexemes) → Balanced n.lexemes
  | _, _, .leaf _ hl, _ => balanced_single hl
  | _, _, .error _, h => h _ (List.mem_singleton.mpr rfl)
  | _, after, .branch _ hi, h => Item.Braced.balanced after hi h

theorem Item.Braced.balanced : ∀ {items : List Item} (after : Nat), Item.Braced items →
    (∀ site ∈ Item.sites after items, Balanced site.2.lexemes) → Balanced (Item.lexemes items)
  | _, _, .nil, _ => balanced_nil
  | _, after, .token hl hr, h => (balanced_single hl).append (Item.Braced.balanced after hr h)
  | _, after, .attribute hl hr, h => (balanced_single hl).append (Item.Braced.balanced after hr h)
  | _, after, .child hn hr, h => by
    obtain ⟨hfirst, hrest⟩ := List.forall_mem_append.mp h
    exact (Node.Braced.balanced _ hn hfirst).append (Item.Braced.balanced after hr hrest)
  | _, after, .braces hi hr, h => by
    rw [Item.sites_braces] at h
    obtain ⟨hinner, hrest⟩ := List.forall_mem_append.mp h
    rw [Item.lexemes_braces]
    exact (Item.Braced.balanced _ hi hinner).braces.append (Item.Braced.balanced after hr hrest)

end

mutual

/-- If the invalid nodes below a node are balanced, so is every node below it. -/
theorem Node.Braced.subnodes : ∀ {n : Node} (after : Nat), n.Braced →
    (∀ site ∈ n.sites after, Balanced site.2.lexemes) → ∀ m ∈ n.subnodes, Balanced m.lexemes
  | _, _, .leaf _ hl, _, m, hm => by
    rw [List.mem_singleton.mp hm]
    exact balanced_single hl
  | _, _, .error _, h, m, hm => by
    rw [List.mem_singleton.mp hm]
    exact h _ (List.mem_singleton.mpr rfl)
  | _, after, .branch _ hi, h, m, hm => by
    rcases List.mem_cons.mp hm with rfl | hm
    · exact Item.Braced.balanced after hi h
    · exact Item.Braced.subnodes after hi h m hm

theorem Item.Braced.subnodes : ∀ {items : List Item} (after : Nat), Item.Braced items →
    (∀ site ∈ Item.sites after items, Balanced site.2.lexemes) →
    ∀ m ∈ Item.subnodes items, Balanced m.lexemes
  | _, _, .nil, _, m, hm => absurd hm List.not_mem_nil
  | _, after, .token _ hr, h, m, hm => Item.Braced.subnodes after hr h m hm
  | _, after, .attribute _ hr, h, m, hm => Item.Braced.subnodes after hr h m hm
  | _, after, .child hn hr, h, m, hm => by
    obtain ⟨hfirst, hrest⟩ := List.forall_mem_append.mp h
    rcases List.mem_append.mp hm with hm | hm
    · exact Node.Braced.subnodes _ hn hfirst m hm
    · exact Item.Braced.subnodes after hr hrest m hm
  | _, after, .braces hi hr, h, m, hm => by
    rw [Item.sites_braces] at h
    obtain ⟨hinner, hrest⟩ := List.forall_mem_append.mp h
    rw [Item.subnodes_braces] at hm
    rcases List.mem_append.mp hm with hm | hm
    · exact Item.Braced.subnodes _ hi hinner m hm
    · exact Item.Braced.subnodes after hr hrest m hm

end

end Balance

namespace Item

variable {label : Label} {xs ys : List Item}

theorem Braced.append : ∀ {xs : List Item}, Item.Braced xs → Item.Braced ys →
    Item.Braced (xs ++ ys)
  | _, .nil, hy => hy
  | _, .token hl hx, hy => .token hl (hx.append hy)
  | _, .attribute hl hx, hy => .attribute hl (hx.append hy)
  | _, .child hn hx, hy => .child hn (hx.append hy)
  | _, .braces hi hx, hy => by
    rw [List.cons_append, List.append_assoc, List.cons_append]
    exact .braces hi (hx.append hy)

theorem braced_children {nodes : List Node} (h : ∀ n ∈ nodes, n.Braced) :
    Item.Braced (children label nodes) := by
  induction nodes with
  | nil => exact .nil
  | cons n nodes ih =>
    obtain ⟨hn, hns⟩ := List.forall_mem_cons.mp h
    exact .child hn (ih hns)

theorem braced_separated {nodes : List Node} (h : ∀ n ∈ nodes, n.Braced) :
    Item.Braced (separated label nodes) := by
  induction nodes with
  | nil => exact .nil
  | cons n nodes ih =>
    obtain ⟨hn, hns⟩ := List.forall_mem_cons.mp h
    cases nodes with
    | nil => exact .child hn .nil
    | cons m nodes => exact .child hn (.token rfl (ih hns))

theorem braced_child? {n : Option Node} (h : ∀ m ∈ n, m.Braced) :
    Item.Braced (child? label n) := by
  cases n with
  | none => exact .nil
  | some n => exact .child (h n rfl) .nil

theorem braced_marked? {p : Punct} (hp : isBrace (.punct p) = false) {n : Option Node}
    (h : ∀ m ∈ n, m.Braced) : Item.Braced (marked? p label n) := by
  cases n with
  | none => exact .nil
  | some n => exact .token hp (.child (h n rfl) .nil)

end Item

section Forms

theorem braced_map {α : Type} {node : α → Node} (h : ∀ a, (node a).Braced) (as : List α) :
    ∀ n ∈ as.map node, n.Braced := by
  intro n hn
  obtain ⟨a, -, rfl⟩ := List.mem_map.mp hn
  exact h a

theorem braced_map? {α : Type} {node : α → Node} (h : ∀ a, (node a).Braced) (a : Option α) :
    ∀ n ∈ a.map node, n.Braced := by
  cases a with
  | none => simp
  | some a => simpa using h a

theorem Name.braced_node (n : Name) : n.node.Braced :=
  .leaf _ rfl

theorem Term.braced_node (good bad : Kind) (t : Term) : (t.node good bad).Braced := by
  cases t <;> exact .leaf _ rfl

theorem Number.braced_node (n : Number) : n.node.Braced := by
  cases n <;> exact .leaf _ rfl

theorem braced_qualifierNode (k : Kind) (w : Text) : (qualifierNode k w).Braced :=
  .leaf _ rfl

theorem braced_sizeItems (digits : Text) : Item.Braced (sizeItems digits) :=
  .token rfl (.child (Number.braced_node _) (.token rfl .nil))

theorem TypeRef.braced_node (t : TypeRef) : t.node.Braced := by
  induction t with
  | array base size ih => exact .branch _ (.child ih (braced_sizeItems size))
  | _ => exact .leaf _ rfl

namespace Specifier

theorem braced_sizes (sizes : List Text) : Item.Braced (sizes.flatMap sizeItems) := by
  induction sizes with
  | nil => exact .nil
  | cons size sizes ih => exact (braced_sizeItems size).append ih

theorem braced_sizesNode? (sizes : List Text) : ∀ n ∈ sizesNode? sizes, n.Braced := by
  intro n hn
  cases sizes with
  | nil => cases hn
  | cons size sizes =>
    cases hn
    exact .branch _ (braced_sizes _)

theorem braced_items (s : Specifier) : Item.Braced s.items :=
  .child s.type.braced_node
    (.child s.name.braced_node (Item.braced_child? (braced_sizesNode? s.sizes)))

theorem braced_node (s : Specifier) : s.node.Braced :=
  .branch _ s.braced_items

end Specifier

namespace Expr

mutual

theorem braced_node : ∀ e : Expr, e.node.Braced
  | name n => by
    rw [node]
    exact n.braced_node
  | number n => by
    rw [node]
    exact n.braced_node
  | bool _ => by
    rw [node]
    exact .leaf _ rfl
  | typeName _ => by
    rw [node]
    exact .leaf _ rfl
  | error s => by
    rw [node]
    exact .error s
  | paren e => by
    rw [node]
    exact .branch _ (.token rfl (.child (braced_node e) (.token rfl .nil)))
  | array es => by
    rw [node]
    exact .branch _ (.braces (Item.braced_separated (braced_nodes es)) .nil)
  | call f es => by
    rw [node]
    exact .branch _ (.child (braced_node f)
      (.token rfl ((Item.braced_separated (braced_nodes es)).append (.token rfl .nil))))
  | qualified q e => by
    rw [node]
    exact .branch _ (.child (.leaf _ rfl) (.child (braced_node e) .nil))
  | subscript e i => by
    rw [node]
    exact .branch _
      (.child (braced_node e) (.token rfl (.child (braced_node i) (.token rfl .nil))))
  | member e n => by
    rw [node]
    exact .branch _ (.child (braced_node e) (.token rfl (.child n.braced_node .nil)))
  | unary op e => by
    rw [node]
    exact .branch _
      (.attribute (UnaryOp.not_brace op.ofPunct?_punct) (.child (braced_node e) .nil))
  | binary op l r => by
    rw [node]
    exact .branch _ (.child (braced_node l)
      (.attribute (BinaryOp.not_brace op.ofPunct?_punct) (.child (braced_node r) .nil)))
  | conditional c t e => by
    rw [node]
    exact .branch _ (.child (braced_node c)
      (.token rfl (.child (braced_node t) (.token rfl (.child (braced_node e) .nil)))))

theorem braced_nodes : ∀ es : List Expr, ∀ n ∈ nodes es, n.Braced
  | [], n, hn => by simp [nodes] at hn
  | e :: es, n, hn => by
    rw [nodes] at hn
    rcases List.mem_cons.mp hn with rfl | hn
    · exact braced_node e
    · exact braced_nodes es n hn

end

end Expr

namespace Action

theorem braced_items (a : Action) : Item.Braced a.items := by
  cases a with
  | evaluate e => exact .child e.braced_node .nil
  | assign t op v =>
    exact .child t.braced_node
      (.attribute (AssignOp.not_brace op.ofPunct?_punct) (.child v.braced_node .nil))
  | adjustAfter t op =>
    exact .child t.braced_node (.attribute (AdjustOp.not_brace op.ofPunct?_punct) .nil)
  | adjustBefore op t =>
    exact .attribute (AdjustOp.not_brace op.ofPunct?_punct) (.child t.braced_node .nil)

theorem braced_statementNode (a : Action) : a.statementNode.Braced :=
  .branch _ (a.braced_items.append (.token rfl .nil))

theorem braced_updateNode (a : Action) : a.updateNode.Braced := by
  cases a with
  | evaluate e => exact e.braced_node
  | _ => exact .branch _ (braced_items _)

end Action

namespace Variable

theorem braced_items (v : Variable) : Item.Braced v.items :=
  .child v.specifier.braced_node
    ((Item.braced_marked? rfl (braced_map? Expr.braced_node v.value)).append (.token rfl .nil))

theorem braced_node (v : Variable) : v.node.Braced :=
  .branch _ v.braced_items

theorem braced_constantNode (k : Kind) (p : Option Text) (v : Variable) :
    (v.constantNode k p).Braced :=
  .branch _ (.token rfl
    ((Item.braced_child? (braced_map? (braced_qualifierNode _) p)).append v.braced_items))

end Variable

mutual

theorem Stmt.braced_node : ∀ s : Stmt, s.node.Braced
  | .block body => by
    rw [Stmt.node]
    exact .branch _ (.braces (Item.braced_children (Stmt.braced_nodes body)) .nil)
  | .declare v => by
    rw [Stmt.node]
    exact v.braced_node
  | .constant p v => by
    rw [Stmt.node]
    exact v.braced_constantNode _ p
  | .perform a => by
    rw [Stmt.node]
    exact a.braced_statementNode
  | .ifThen c t => by
    rw [Stmt.node]
    exact .branch _
      (.token rfl (.child (Expr.braced_node (.paren c)) (.child (Stmt.braced_node t) .nil)))
  | .ifElse c t e => by
    rw [Stmt.node]
    exact .branch _ (.token rfl (.child (Expr.braced_node (.paren c)) (.child (Stmt.braced_node t)
      (.token rfl (.child (Stmt.braced_node e) .nil)))))
  | .whileLoop c b => by
    rw [Stmt.node]
    exact .branch _
      (.token rfl (.child (Expr.braced_node (.paren c)) (.child (Stmt.braced_node b) .nil)))
  | .forLoop v c u b => by
    rw [Stmt.node]
    exact .branch _ (.token rfl (.token rfl (.child v.braced_node
      (.child (Action.braced_statementNode _) (.child u.braced_updateNode
        (.token rfl (.child (Stmt.braced_node b) .nil)))))))
  | .switchOn e cs => by
    rw [Stmt.node]
    exact .branch _ (.token rfl (.token rfl (.child e.braced_node (.token rfl
      (.braces (Item.braced_children (Clause.braced_nodes cs)) .nil)))))
  | .returnValue v => by
    rw [Stmt.node]
    exact .branch _ (.token rfl
      ((Item.braced_child? (braced_map? Expr.braced_node v)).append (.token rfl .nil)))
  | .breakOut => by
    rw [Stmt.node]
    exact .branch _ (.token rfl (.token rfl .nil))
  | .continueLoop => by
    rw [Stmt.node]
    exact .branch _ (.token rfl (.token rfl .nil))
  | .error s => by
    rw [Stmt.node]
    exact .error s

theorem Stmt.braced_nodes : ∀ ss : List Stmt, ∀ n ∈ Stmt.nodes ss, n.Braced
  | [], n, hn => by simp [Stmt.nodes] at hn
  | s :: ss, n, hn => by
    rw [Stmt.nodes] at hn
    rcases List.mem_cons.mp hn with rfl | hn
    · exact Stmt.braced_node s
    · exact Stmt.braced_nodes ss n hn

theorem Clause.braced_node : ∀ c : Clause, c.node.Braced
  | .onValue e body => by
    rw [Clause.node]
    exact .branch _ (.token rfl (.child e.braced_node
      (.token rfl (Item.braced_children (Stmt.braced_nodes body)))))
  | .otherwise body => by
    rw [Clause.node]
    exact .branch _
      (.attribute rfl (.token rfl (Item.braced_children (Stmt.braced_nodes body))))
  | .error s => by
    rw [Clause.node]
    exact .error s

theorem Clause.braced_nodes : ∀ cs : List Clause, ∀ n ∈ Clause.nodes cs, n.Braced
  | [], n, hn => by simp [Clause.nodes] at hn
  | c :: cs, n, hn => by
    rw [Clause.nodes] at hn
    rcases List.mem_cons.mp hn with rfl | hn
    · exact Clause.braced_node c
    · exact Clause.braced_nodes cs n hn

end

theorem HintParam.braced_node (p : HintParam) : p.node.Braced := by
  unfold HintParam.node
  split
  · exact .branch _ (.attribute rfl (.child p.number.braced_node .nil))
  · exact p.number.braced_node

namespace Hint

theorem braced_paramItems (ps : Option (List HintParam)) : Item.Braced (paramItems ps) := by
  cases ps with
  | none => exact .nil
  | some ps =>
    exact .token rfl
      ((Item.braced_separated (braced_map HintParam.braced_node ps)).append (.token rfl .nil))

theorem braced_node (h : Hint) : h.node.Braced :=
  .branch _ (.child (h.name.braced_node _ _) (braced_paramItems h.params))

theorem braced_listNode? (hs : List Hint) : ∀ n ∈ listNode? hs, n.Braced := by
  intro n hn
  cases hs with
  | nil => cases hn
  | cons h hs =>
    cases hn
    exact .branch _ (Item.braced_separated (braced_map braced_node _))

end Hint

theorem Member.braced_node (m : Member) : m.node.Braced := by
  cases m with
  | field s => exact .branch _ (s.braced_items.append (.token rfl .nil))
  | error s => exact .error s

theorem Parameter.braced_node (p : Parameter) : p.node.Braced :=
  .branch _ ((Item.braced_child? (braced_map? (braced_qualifierNode _) p.qualifier)).append
    p.specifier.braced_items)

namespace Decl

theorem braced_scopeItems (c : Option Scope) : Item.Braced (scopeItems c) := by
  cases c with
  | none => exact .nil
  | some s => exact .attribute rfl .nil

theorem braced_node (d : Decl) : d.node.Braced := by
  cases d with
  | shaderType t => exact .branch _ (.token rfl (.child (t.braced_node _ _) (.token rfl .nil)))
  | renderMode ts =>
    exact .branch _ (.token rfl
      ((Item.braced_separated (braced_map (Term.braced_node _ _) ts)).append (.token rfl .nil)))
  | constant p v => exact v.braced_constantNode _ p
  | varying i p s =>
    have hi := braced_map? (braced_qualifierNode .interpolationQualifier) i
    have hp := braced_map? (braced_qualifierNode .precisionQualifier) p
    exact .branch _ (.append
      (.append (.token rfl (Item.braced_child? hi)) (Item.braced_child? hp))
      (.child s.braced_node (.token rfl .nil)))
  | groupUniforms g s =>
    have hg := braced_map? Name.braced_node g
    have hs := braced_map? Name.braced_node s
    exact .branch _ (.append
      (.append (.token rfl (Item.braced_child? hg)) (Item.braced_marked? rfl hs))
      (.token rfl .nil))
  | uniform c p s hs v =>
    have hp := braced_map? (braced_qualifierNode .precisionQualifier) p
    have hv := braced_map? Expr.braced_node v
    exact .branch _ (.append (.append (.append
      (.append (braced_scopeItems c) (.token rfl (Item.braced_child? hp)))
      (.child s.braced_node (Item.braced_marked? rfl (Hint.braced_listNode? hs))))
      (Item.braced_marked? rfl hv)) (.token rfl .nil))
  | struct n ms =>
    exact .branch _ (.token rfl (.child n.braced_node
      (.braces (Item.braced_children (braced_map Member.braced_node ms)) (.token rfl .nil))))
  | function t n ps body =>
    exact .branch _ (.child t.braced_node (.child n.braced_node (.token rfl
      ((Item.braced_separated (braced_map Parameter.braced_node ps)).append
        (.token rfl (.child (Stmt.braced_node (.block body)) .nil))))))
  | includes path => exact .branch _ (.token rfl (.token rfl (.child (.leaf _ rfl) .nil)))
  | error s => exact .error s

end Decl

end Forms

end ShaderSyntax
