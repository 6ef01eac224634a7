import ShaderSyntax.Proofs.Itemwise
import ShaderSyntax.Proofs.Legible
import ShaderSyntax.Proofs.Shape.Tree
import ShaderSyntax.Proofs.Spacing

/-!
# Trees of documents are legible

Syntax of every form is written as tidy nodes: leaves are words and literals, and attributes are
operators and keywords. Words and numbers are read from a source without delimiters in them, and strings
are read through their second quote. So every tree that a walk through a document meets is legible.
-/
namespace ShaderSyntax

namespace Lexeme

/-- A word or a literal. -/
def isAtom : Lexeme → Bool
  | word _ | int _ | float _ | string _ => true
  | illegal _ | punct _ => false

/-- Words and literals are legible. -/
def Legible (l : Lexeme) : Prop :=
  l.isAtom = true → l.text.Legible

theorem isDelimiter_of_isWordByte {b : UInt8} (h : isWordByte b = true) :
    Byte.isDelimiter b = false := by
  grind [isWordByte, Byte.isDelimiter, Byte.isDigit, Byte.isLetter]

theorem isDelimiter_of_isDigit {b : UInt8} (h : Byte.isDigit b = true) :
    Byte.isDelimiter b = false :=
  isDelimiter_of_isWordByte (by simp [isWordByte, h])

theorem plain_takeWhile {p : UInt8 → Bool} (hp : ∀ b, p b = true → Byte.isDelimiter b = false)
    (t : Text) : Text.Plain (t.takeWhile p) :=
  fun b hb => hp b (List.all_eq_true.mp List.all_takeWhile b hb)

theorem legible_number (t : Text) : (number t).Legible := by
  intro _
  have hdigits := fun t : Text => plain_takeWhile (fun _ => isDelimiter_of_isDigit) t
  unfold number
  dsimp only
  split
  · exact .plain (hdigits t)
  · next b rest hdrop =>
    split
    · next hpoint =>
      refine .plain fun c hc => ?_
      rcases List.mem_append.mp hc with hc | hc
      · exact hdigits t c hc
      · rcases List.mem_cons.mp hc with rfl | hc
        · rw [hpoint.1]
          decide
        · exact hdigits rest c hc
    · exact .plain (hdigits t)

/-- A string has no quote between its quotes. -/
theorem legible_closedString (rest : Text) : (closedString rest).Legible := by
  intro h
  unfold closedString at h ⊢
  split at h
  · next hquote =>
    rw [if_pos hquote]
    refine .quoted fun hm => ?_
    have hne := List.all_eq_true.mp (List.all_takeWhile (p := (· != Byte.quote))) _ hm
    simp at hne
  · cases h

/-- What is read from a text is legible. -/
theorem legible_of_first? {t : Text} {l : Lexeme} (h : first? t = some l) : l.Legible := by
  unfold first? at h
  split at h
  · cases h
  · next b rest =>
    split at h
    · cases h
      exact fun _ => .plain (plain_takeWhile (fun _ => isDelimiter_of_isWordByte) _)
    · split at h
      · cases h
        exact legible_number _
      · split at h
        · cases h
          exact legible_closedString rest
        · split at h
          · cases h
            exact fun ha => nomatch ha
          · cases h
            intro ha
            unfold stray at ha
            split at ha <;> cases ha

end Lexeme

theorem Scanner.legible_lexemes (count : Nat) (s : Scanner) :
    ∀ l ∈ lexemes (tokensWithin count s).1, l.Legible := by
  induction count generalizing s with
  | zero => simp [tokensWithin, lexemes]
  | succ count ih =>
    cases hl : s.next.1.lexeme? with
    | none =>
      rw [lexemes_tokensWithin_none hl]
      simp
    | some l =>
      have hfirst : l.Legible := by
        unfold next at hl
        dsimp only at hl
        split at hl
        · cases hl
        · next l' hl' =>
          cases hl
          exact Lexeme.legible_of_first? hl'
      rw [lexemes_tokensWithin_some hl, List.forall_mem_cons]
      exact ⟨hfirst, ih s.next.2⟩

/-- The lexemes of a source are legible. -/
theorem Source.legible_lexemes (text : Text) : ∀ l ∈ (ofText text).lexemes, l.Legible :=
  Scanner.legible_lexemes _ _

mutual

/-- Leaves are words and literals, attributes are plain, and no branch is an error. -/
def Node.Tidy : Node → Prop
  | .leaf _ l => l.isAtom = true
  | .error _ => True
  | .branch k items => k ≠ .error ∧ Item.Tidy items

def Item.Tidy : List Item → Prop
  | [] => True
  | .token _ :: rest => Item.Tidy rest
  | .attribute _ l :: rest => l.text.Plain ∧ Item.Tidy rest
  | .child _ n :: rest => n.Tidy ∧ Item.Tidy rest

end

section Placing

variable (locate : Nat → Nat → Span Nat)

mutual

/-- Tidy nodes of legible lexemes are placed as legible trees. -/
theorem Node.legible_place : ∀ (n : Node) (start : Nat), n.Tidy → (∀ l ∈ n.lexemes, l.Legible) →
    (n.place locate start).Legible
  | .leaf k l, start, ht, hl => hl l (by simp [Node.lexemes]) ht
  | .error s, _, _, _ => trivial
  | .branch k items, start, ht, hl => ⟨ht.1, Item.legible_place items start ht.2 hl⟩

theorem Item.legible_place : ∀ (items : List Item) (start : Nat), Item.Tidy items →
    (∀ l ∈ Item.lexemes items, l.Legible) → Field.Legible (Item.place locate start items)
  | [], _, _, _ => trivial
  | .token l :: rest, start, ht, hl =>
    Item.legible_place rest (start + 1) ht fun m hm => hl m (by simp [Item.lexemes, hm])
  | .attribute label l :: rest, start, ht, hl =>
    ⟨ht.1, Item.legible_place rest (start + 1) ht.2 fun m hm => hl m (by simp [Item.lexemes, hm])⟩
  | .child label n :: rest, start, ht, hl =>
    ⟨Node.legible_place n start ht.1 fun m hm => hl m (by simp [Item.lexemes, hm]),
      Item.legible_place rest (start + n.size) ht.2 fun m hm => hl m (by simp [Item.lexemes, hm])⟩

end

end Placing

@[simp] theorem Node.tidy_branch (k : Kind) (items : List Item) :
    (branch k items).Tidy ↔ k ≠ .error ∧ Item.Tidy items := Iff.rfl

namespace Item

variable {label : Label}

@[simp] theorem tidy_nil : Item.Tidy [] ↔ True := Iff.rfl

@[simp] theorem tidy_mark (p : Punct) (rest : List Item) :
    Item.Tidy (.mark p :: rest) ↔ Item.Tidy rest := Iff.rfl

@[simp] theorem tidy_keyword (w : Keyword) (rest : List Item) :
    Item.Tidy (.keyword w :: rest) ↔ Item.Tidy rest := Iff.rfl

@[simp] theorem tidy_token (l : Lexeme) (rest : List Item) :
    Item.Tidy (.token l :: rest) ↔ Item.Tidy rest := Iff.rfl

@[simp] theorem tidy_attribute (l : Lexeme) (rest : List Item) :
    Item.Tidy (.attribute label l :: rest) ↔ l.text.Plain ∧ Item.Tidy rest := Iff.rfl

@[simp] theorem tidy_child (n : Node) (rest : List Item) :
    Item.Tidy (.child label n :: rest) ↔ n.Tidy ∧ Item.Tidy rest := Iff.rfl

theorem itemwise_tidy :
    Itemwise Item.Tidy (fun _ => True) (fun l => l.text.Plain) fun _ n => n.Tidy := by
  constructor <;> simp

@[simp] theorem tidy_append (xs ys : List Item) :
    Item.Tidy (xs ++ ys) ↔ Item.Tidy xs ∧ Item.Tidy ys :=
  itemwise_tidy.append xs ys

@[simp] theorem tidy_children (nodes : List Node) :
    Item.Tidy (children label nodes) ↔ ∀ n ∈ nodes, n.Tidy :=
  itemwise_tidy.children nodes

@[simp] theorem tidy_separated (nodes : List Node) :
    Item.Tidy (separated label nodes) ↔ ∀ n ∈ nodes, n.Tidy :=
  itemwise_tidy.separated trivial nodes

@[simp] theorem tidy_child? (n : Option Node) :
    Item.Tidy (child? label n) ↔ ∀ m ∈ n, m.Tidy :=
  itemwise_tidy.child? n

@[simp] theorem tidy_marked? (p : Punct) (n : Option Node) :
    Item.Tidy (marked? p label n) ↔ ∀ m ∈ n, m.Tidy :=
  itemwise_tidy.marked? trivial n

end Item

section Operators

theorem UnaryOp.plain_punct (op : UnaryOp) : (Lexeme.punct op.punct).text.Plain := by
  cases op <;> decide

theorem BinaryOp.plain_punct (op : BinaryOp) : (Lexeme.punct op.punct).text.Plain := by
  cases op <;> decide

theorem AssignOp.plain_punct (op : AssignOp) : (Lexeme.punct op.punct).text.Plain := by
  cases op <;> decide

theorem AdjustOp.plain_punct (op : AdjustOp) : (Lexeme.punct op.punct).text.Plain := by
  cases op <;> decide

theorem Keyword.plain_spelling (k : Keyword) : (Lexeme.word k.spelling).text.Plain := by
  cases k <;> decide

end Operators

section Forms

theorem Name.tidy_node (n : Name) : n.node.Tidy := rfl

theorem Term.tidy_node (t : Term) (good bad : Kind) : (t.node good bad).Tidy := by
  cases t <;> rfl

theorem Number.tidy_node (n : Number) : n.node.Tidy := by
  cases n <;> rfl

theorem tidy_qualifierNode (k : Kind) (w : Text) : (qualifierNode k w).Tidy := rfl

theorem tidy_sizeItems (digits : Text) : Item.Tidy (sizeItems digits) := by
  simp [sizeItems, Number.tidy_node]

theorem TypeRef.tidy_node (t : TypeRef) : t.node.Tidy := by
  induction t with
  | array base size ih => exact ⟨by decide, ih, tidy_sizeItems size⟩
  | _ => rfl

theorem Specifier.tidy_items (s : Specifier) : Item.Tidy s.items := by
  have hsizes : ∀ sizes : List Text, Item.Tidy (sizes.flatMap sizeItems) := by
    intro sizes
    induction sizes with
    | nil => trivial
    | cons size sizes ih => exact (Item.tidy_append _ _).mpr ⟨tidy_sizeItems size, ih⟩
  refine (Item.tidy_append _ _).mpr ⟨⟨s.type.tidy_node, s.name.tidy_node, trivial⟩, ?_⟩
  rw [Item.tidy_child?]
  intro n hn
  cases hsz : s.sizes with
  | nil => rw [hsz] at hn; cases hn
  | cons size sizes =>
    rw [hsz] at hn
    cases hn
    exact ⟨by decide, hsizes _⟩

theorem Specifier.tidy_node (s : Specifier) : s.node.Tidy :=
  ⟨by decide, s.tidy_items⟩

namespace Expr

mutual

theorem tidy_node : ∀ e : Expr, e.node.Tidy
  | name n => by rw [node]; exact n.tidy_node
  | number n => by rw [node]; exact n.tidy_node
  | bool _ => by rw [node]; rfl
  | typeName _ => by rw [node]; rfl
  | error _ => by rw [node]; trivial
  | paren e => by simp [node, tidy_node e]
  | array es => by simpa [node, nodes_eq_map] using tidy_nodes es
  | call f es => by simpa [node, nodes_eq_map, tidy_node f] using tidy_nodes es
  | qualified q e => by simp [node, tidy_node e, Node.Tidy, Lexeme.isAtom]
  | subscript e i => by simp [node, tidy_node e, tidy_node i]
  | member e n => by simp [node, tidy_node e, n.tidy_node]
  | unary op e => by simp [node, tidy_node e, op.plain_punct]
  | binary op l r => by simp [node, tidy_node l, tidy_node r, op.plain_punct]
  | conditional c t e => by simp [node, tidy_node c, tidy_node t, tidy_node e]

theorem tidy_nodes : ∀ es : List Expr, ∀ e ∈ es, e.node.Tidy
  | [], _, he => absurd he List.not_mem_nil
  | e :: es, x, hx => by
    rcases List.mem_cons.mp hx with hx | hx
    · rw [hx]
      exact tidy_node e
    · exact tidy_nodes es x hx

end

theorem tidy_parenNode (e : Expr) : e.parenNode.Tidy :=
  tidy_node (paren e)

end Expr

theorem Action.tidy_items (a : Action) : Item.Tidy a.items := by
  cases a <;> simp [items, Expr.tidy_node, AssignOp.plain_punct, AdjustOp.plain_punct]

theorem Action.kind_ne_error (a : Action) : a.kind ≠ .error := by
  cases a <;> simp [kind]

theorem Action.tidy_updateNode (a : Action) : a.updateNode.Tidy := by
  cases a with
  | evaluate e => exact e.tidy_node
  | assign t op v => exact ⟨kind_ne_error _, tidy_items _⟩
  | adjustAfter t op => exact ⟨kind_ne_error _, tidy_items _⟩
  | adjustBefore op t => exact ⟨kind_ne_error _, tidy_items _⟩

theorem Action.tidy_statementNode (a : Action) : a.statementNode.Tidy := by
  simp [statementNode, a.kind_ne_error, tidy_items]

theorem Variable.tidy_items (v : Variable) : Item.Tidy v.items := by
  simp [items, Specifier.tidy_node, Expr.tidy_node]

theorem Variable.tidy_node (v : Variable) : v.node.Tidy :=
  ⟨by decide, v.tidy_items⟩

theorem Variable.tidy_constantNode {k : Kind} (hk : k ≠ .error) (p : Option Text) (v : Variable) :
    (v.constantNode k p).Tidy := by
  simp [constantNode, hk, tidy_items, tidy_qualifierNode]

mutual

theorem Stmt.tidy_node : ∀ s : Stmt, s.node.Tidy
  | .block body => by
    simpa [Stmt.node, blockNode, Stmt.nodes_eq_map] using Stmt.tidy_nodes body
  | .declare v => by rw [Stmt.node]; exact v.tidy_node
  | .constant p v => by rw [Stmt.node]; exact v.tidy_constantNode (by decide) p
  | .perform a => by rw [Stmt.node]; exact a.tidy_statementNode
  | .ifThen c t => by simp [Stmt.node, Expr.tidy_parenNode, Stmt.tidy_node t]
  | .ifElse c t e => by
    simp [Stmt.node, Expr.tidy_parenNode, Stmt.tidy_node t, Stmt.tidy_node e]
  | .whileLoop c b => by simp [Stmt.node, Expr.tidy_parenNode, Stmt.tidy_node b]
  | .forLoop v c u b => by
    simp [Stmt.node, v.tidy_node, Action.tidy_statementNode, u.tidy_updateNode, Stmt.tidy_node b]
  | .switchOn e cs => by
    simpa [Stmt.node, Clause.nodes_eq_map, e.tidy_node] using Clause.tidy_nodes cs
  | .returnValue v => by simp [Stmt.node, Expr.tidy_node]
  | .breakOut => by simp [Stmt.node]
  | .continueLoop => by simp [Stmt.node]
  | .error _ => by rw [Stmt.node]; trivial

theorem Stmt.tidy_nodes : ∀ ss : List Stmt, ∀ s ∈ ss, s.node.Tidy
  | [], _, hs => absurd hs List.not_mem_nil
  | s :: ss, x, hx => by
    rcases List.mem_cons.mp hx with hx | hx
    · rw [hx]
      exact Stmt.tidy_node s
    · exact Stmt.tidy_nodes ss x hx

theorem Clause.tidy_node : ∀ c : Clause, c.node.Tidy
  | .onValue e body => by
    simpa [Clause.node, Stmt.nodes_eq_map, e.tidy_node] using Stmt.tidy_nodes body
  | .otherwise body => by
    simpa [Clause.node, Stmt.nodes_eq_map, Keyword.plain_spelling] using Stmt.tidy_nodes body
  | .error _ => by rw [Clause.node]; trivial

theorem Clause.tidy_nodes : ∀ cs : List Clause, ∀ c ∈ cs, c.node.Tidy
  | [], _, hc => absurd hc List.not_mem_nil
  | c :: cs, x, hx => by
    rcases List.mem_cons.mp hx with hx | hx
    · rw [hx]
      exact Clause.tidy_node c
    · exact Clause.tidy_nodes cs x hx

end

theorem HintParam.tidy_node (p : HintParam) : p.node.Tidy := by
  unfold HintParam.node
  split
  · simp [Number.tidy_node, UnaryOp.plain_punct]
  · exact p.number.tidy_node

theorem Hint.tidy_node (h : Hint) : h.node.Tidy := by
  have hparams : Item.Tidy (Hint.paramItems h.params) := by
    cases h.params with
    | none => trivial
    | some ps => simp [paramItems, HintParam.tidy_node]
  exact ⟨by decide, h.name.tidy_node _ _, hparams⟩

theorem Hint.tidy_listNode? (hs : List Hint) : ∀ n ∈ listNode? hs, n.Tidy := by
  cases hs with
  | nil => simp [listNode?]
  | cons h hs => simp [listNode?, Hint.tidy_node]

theorem Member.tidy_node (m : Member) : m.node.Tidy := by
  cases m with
  | field s => simp [node, s.tidy_items]
  | error s => trivial

theorem Parameter.tidy_node (p : Parameter) : p.node.Tidy := by
  simp [node, p.specifier.tidy_items, tidy_qualifierNode]

theorem Decl.tidy_node (d : Decl) : d.node.Tidy := by
  cases d with
  | shaderType t => simp [node, t.tidy_node]
  | renderMode ts => simp [node, Term.tidy_node]
  | constant p v => exact v.tidy_constantNode (by decide) p
  | varying i p s => simp [node, tidy_qualifierNode, s.tidy_node]
  | groupUniforms g s => simp [node, Name.tidy_node]
  | uniform c p s hs v =>
    have hscope : Item.Tidy (scopeItems c) := by
      cases c <;> simp [scopeItems, Keyword.plain_spelling]
    simpa [node, hscope, tidy_qualifierNode, s.tidy_node, Expr.tidy_node] using
      Hint.tidy_listNode? hs
  | struct n ms => simp [node, n.tidy_node, Member.tidy_node]
  | function t n ps body =>
    simp [node, t.tidy_node, n.tidy_node, Parameter.tidy_node, Stmt.tidy_node]
  | includes path => simp [node, Node.Tidy, Lexeme.isAtom]
  | error s => trivial

end Forms

/-- The lexemes of one of several children are among those of all. -/
theorem Item.mem_lexemes_children {label : Label} {nodes : List Node} {n : Node} (hn : n ∈ nodes)
    {l : Lexeme} (hl : l ∈ n.lexemes) : l ∈ lexemes (children label nodes) := by
  induction nodes with
  | nil => cases hn
  | cons m nodes ih =>
    rw [lexemes_children_cons]
    rcases List.mem_cons.mp hn with rfl | hn
    · exact List.mem_append_left _ hl
    · exact List.mem_append_right _ (ih hn)

/-- The trees of a document are legible. -/
theorem Document.legible_trees {levels : Nat} {text : Text} {d : Document}
    (h : parse levels text = .ok d) : ∀ t ∈ d.trees, t.Legible := by
  obtain ⟨-, ha⟩ := account h .value
  have hlexemes := Source.legible_lexemes text
  rw [ha.lexemes, List.append_nil] at hlexemes
  rw [(trees_placed h).1]
  intro t ht
  obtain ⟨n, hn, start, rfl⟩ := Node.exists_of_mem_placeAll ht
  obtain ⟨decl, -, rfl⟩ := List.mem_map.mp hn
  exact Node.legible_place _ _ start decl.tidy_node fun l hl =>
    hlexemes l (Item.mem_lexemes_children hn hl)

end ShaderSyntax
