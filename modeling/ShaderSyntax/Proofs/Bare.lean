import ShaderSyntax.Proofs.Legible
import ShaderSyntax.Ast.Decl

/-!
# Bare syntax

Syntax without what places and messages alone tell: what an error skipped and why, and whether a hint
without parameters has parentheses. The bare tree of a node is the same wherever the node is placed.
-/
namespace ShaderSyntax

/-- Skipped lexemes of which nothing is told. -/
def Skipped.blank : Skipped :=
  ⟨[], 0, .expected .expression none⟩

mutual

def Expr.bare : Expr → Expr
  | .name n => .name n
  | .number n => .number n
  | .bool value => .bool value
  | .typeName w => .typeName w
  | .error _ => .error .blank
  | .paren e => .paren e.bare
  | .array es => .array (Expr.bares es)
  | .call f es => .call f.bare (Expr.bares es)
  | .qualified q e => .qualified q e.bare
  | .subscript e i => .subscript e.bare i.bare
  | .member e n => .member e.bare n
  | .unary op e => .unary op e.bare
  | .binary op l r => .binary op l.bare r.bare
  | .conditional c t e => .conditional c.bare t.bare e.bare

def Expr.bares : List Expr → List Expr
  | [] => []
  | e :: es => e.bare :: Expr.bares es

end

def Action.bare : Action → Action
  | .evaluate e => .evaluate e.bare
  | .assign t op v => .assign t.bare op v.bare
  | .adjustAfter t op => .adjustAfter t.bare op
  | .adjustBefore op t => .adjustBefore op t.bare

def Variable.bare (v : Variable) : Variable :=
  ⟨v.specifier, v.value.map Expr.bare⟩

mutual

def Stmt.bare : Stmt → Stmt
  | .block body => .block (Stmt.bares body)
  | .declare v => .declare v.bare
  | .constant p v => .constant p v.bare
  | .perform a => .perform a.bare
  | .ifThen c t => .ifThen c.bare t.bare
  | .ifElse c t e => .ifElse c.bare t.bare e.bare
  | .whileLoop c b => .whileLoop c.bare b.bare
  | .forLoop v c u b => .forLoop v.bare c.bare u.bare b.bare
  | .switchOn e cs => .switchOn e.bare (Clause.bares cs)
  | .returnValue e => .returnValue (e.map Expr.bare)
  | .breakOut => .breakOut
  | .continueLoop => .continueLoop
  | .error _ => .error .blank

def Stmt.bares : List Stmt → List Stmt
  | [] => []
  | s :: ss => s.bare :: Stmt.bares ss

def Clause.bare : Clause → Clause
  | .onValue e body => .onValue e.bare (Stmt.bares body)
  | .otherwise body => .otherwise (Stmt.bares body)
  | .error _ => .error .blank

def Clause.bares : List Clause → List Clause
  | [] => []
  | c :: cs => c.bare :: Clause.bares cs

end

/-- Parentheses without parameters are as no parentheses. -/
def Hint.bare (h : Hint) : Hint :=
  ⟨h.name, some (h.params.getD [])⟩

def Member.bare : Member → Member
  | .field s => .field s
  | .error _ => .error .blank

def Decl.bare : Decl → Decl
  | .shaderType t => .shaderType t
  | .renderMode ts => .renderMode ts
  | .constant p v => .constant p v.bare
  | .varying i p s => .varying i p s
  | .groupUniforms g s => .groupUniforms g s
  | .uniform c p s hs v => .uniform c p s (hs.map Hint.bare) (v.map Expr.bare)
  | .struct n ms => .struct n (ms.map Member.bare)
  | .function t n ps body => .function t n ps (Stmt.bares body)
  | .includes path => .includes path
  | .error _ => .error .blank

mutual

/-- The bare tree of a node. -/
def Node.bare : Node → Tree
  | .leaf k l => .leaf k ⟨0, 0⟩ l.text
  | .error _ => .error ⟨0, 0⟩ []
  | .branch k items => .branch k ⟨0, 0⟩ (Item.bares items)

def Item.bares : List Item → List Field
  | [] => []
  | .token _ :: rest => Item.bares rest
  | .attribute label l :: rest => .attribute label l.text :: Item.bares rest
  | .child label n :: rest => .child label n.bare :: Item.bares rest

end

section Placing

variable (locate : Nat → Nat → Span Nat)

mutual

theorem Node.bare_place : ∀ (n : Node) (start : Nat), (n.place locate start).bare = n.bare
  | .leaf k l, start => rfl
  | .error s, start => rfl
  | .branch k items, start => by
    rw [Node.place, Tree.bare, Node.bare, Item.bares_place items start]

theorem Item.bares_place : ∀ (items : List Item) (start : Nat),
    Field.bares (Item.place locate start items) = Item.bares items
  | [], start => rfl
  | .token l :: rest, start => by
    rw [Item.place, Item.bares, Item.bares_place rest (start + 1)]
  | .attribute label l :: rest, start => by
    rw [Item.place, Field.bares, Item.bares, Item.bares_place rest (start + 1)]
  | .child label n :: rest, start => by
    rw [Item.place, Field.bares, Item.bares, Node.bare_place n start,
      Item.bares_place rest (start + n.size)]

end

theorem Node.bares_placeAll (nodes : List Node) (start : Nat) :
    (Node.placeAll locate start nodes).map Tree.bare = nodes.map Node.bare := by
  induction nodes generalizing start with
  | nil => rfl
  | cons n nodes ih => rw [placeAll, List.map_cons, List.map_cons, bare_place, ih]

end Placing

namespace Item

variable {label : Label}

@[simp] theorem bares_nil : bares [] = [] := rfl

@[simp] theorem bares_mark (p : Punct) (rest : List Item) : bares (.mark p :: rest) = bares rest :=
  rfl

@[simp] theorem bares_keyword (w : Keyword) (rest : List Item) :
    bares (.keyword w :: rest) = bares rest := rfl

@[simp] theorem bares_token (l : Lexeme) (rest : List Item) :
    bares (.token l :: rest) = bares rest := rfl

@[simp] theorem bares_attribute (l : Lexeme) (rest : List Item) :
    bares (.attribute label l :: rest) = .attribute label l.text :: bares rest := rfl

@[simp] theorem bares_child (n : Node) (rest : List Item) :
    bares (.child label n :: rest) = .child label n.bare :: bares rest := rfl

@[simp] theorem bares_append (xs ys : List Item) : bares (xs ++ ys) = bares xs ++ bares ys := by
  induction xs with
  | nil => simp
  | cons x xs ih => cases x <;> simp [ih]

@[simp] theorem bares_children (nodes : List Node) :
    bares (children label nodes) = nodes.map fun n => .child label n.bare := by
  induction nodes with
  | nil => simp [children]
  | cons n nodes ih =>
    have hc : children label (n :: nodes) = .child label n :: children label nodes := rfl
    rw [hc, bares_child, ih, List.map_cons]

@[simp] theorem bares_separated (nodes : List Node) :
    bares (separated label nodes) = nodes.map fun n => .child label n.bare := by
  induction nodes with
  | nil => simp [separated]
  | cons n nodes ih =>
    cases nodes with
    | nil => simp [separated]
    | cons m nodes =>
      have hs : separated label (n :: m :: nodes) =
          .child label n :: mark .comma :: separated label (m :: nodes) := rfl
      rw [hs, bares_child, bares_mark, ih]
      rfl

@[simp] theorem bares_child? (n : Option Node) :
    bares (child? label n) = n.toList.map fun n => .child label n.bare := by
  cases n <;> simp [child?]

@[simp] theorem bares_marked? (p : Punct) (n : Option Node) :
    bares (marked? p label n) = n.toList.map fun n => .child label n.bare := by
  cases n <;> simp [marked?]

end Item

end ShaderSyntax
