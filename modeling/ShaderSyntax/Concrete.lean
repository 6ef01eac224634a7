import ShaderSyntax.Problem

/-!
# Concrete nodes

The common form of all syntax: a node is a leaf of one lexeme, a run of skipped lexemes, or a kind
with items in source order. An item is a lexeme that only holds the node together, a lexeme that is
also an attribute of the node, or a child. Nothing of the source is lost but the trivia, so the
lexemes of a node are its flattening, and its place follows from the lexemes before it.
-/
namespace ShaderSyntax

mutual

inductive Node where
  | leaf (kind : Kind) (lexeme : Lexeme)
  | error (skipped : Skipped)
  | branch (kind : Kind) (items : List Item)

inductive Item where
  | token (lexeme : Lexeme)
  | attribute (label : Label) (lexeme : Lexeme)
  | child (label : Label) (node : Node)

end

mutual

/-- The lexemes of a node, in source order. -/
def Node.lexemes : Node → List Lexeme
  | .leaf _ l => [l]
  | .error s => s.lexemes
  | .branch _ items => Item.lexemes items

/-- The lexemes of a list of items, in source order. -/
def Item.lexemes : List Item → List Lexeme
  | [] => []
  | .token l :: rest => l :: Item.lexemes rest
  | .attribute _ l :: rest => l :: Item.lexemes rest
  | .child _ n :: rest => n.lexemes ++ Item.lexemes rest

end

mutual

/-- The number of lexemes of a node. -/
def Node.size : Node → Nat
  | .leaf _ _ => 1
  | .error s => s.lexemes.length
  | .branch _ items => Item.size items

/-- The number of lexemes of a list of items. -/
def Item.size : List Item → Nat
  | [] => 0
  | .token _ :: rest => Item.size rest + 1
  | .attribute _ _ :: rest => Item.size rest + 1
  | .child _ n :: rest => n.size + Item.size rest

end

mutual

theorem Node.length_lexemes : ∀ n : Node, n.lexemes.length = n.size
  | .leaf _ _ => rfl
  | .error _ => rfl
  | .branch _ items => by simp [Node.lexemes, Node.size, Item.length_lexemes items]

theorem Item.length_lexemes : ∀ items : List Item, (Item.lexemes items).length = Item.size items
  | [] => rfl
  | .token _ :: rest => by simp [Item.lexemes, Item.size, Item.length_lexemes rest]
  | .attribute _ _ :: rest => by simp [Item.lexemes, Item.size, Item.length_lexemes rest]
  | .child _ n :: rest => by
    simp [Item.lexemes, Item.size, Node.length_lexemes n, Item.length_lexemes rest]

end

def Node.kind : Node → Kind
  | .leaf k _ => k
  | .error _ => .error
  | .branch k _ => k

namespace Item

def mark (p : Punct) : Item :=
  .token (.punct p)

def keyword (k : Keyword) : Item :=
  .token (.word k.spelling)

def children (label : Label) (nodes : List Node) : List Item :=
  nodes.map (.child label)

/-- Children with a comma between each two. -/
def separated (label : Label) : List Node → List Item
  | [] => []
  | [n] => [.child label n]
  | n :: rest => .child label n :: mark .comma :: separated label rest

/-- A child, or nothing. -/
def child? (label : Label) : Option Node → List Item
  | none => []
  | some n => [.child label n]

/-- A mark and a child, or nothing. -/
def marked? (p : Punct) (label : Label) : Option Node → List Item
  | none => []
  | some n => [mark p, .child label n]

@[simp] theorem lexemes_append (xs ys : List Item) :
    lexemes (xs ++ ys) = lexemes xs ++ lexemes ys := by
  induction xs with
  | nil => simp [lexemes]
  | cons x xs ih => cases x <;> simp [lexemes, ih]

end Item

end ShaderSyntax
