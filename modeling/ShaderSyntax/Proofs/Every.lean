import ShaderSyntax.Proofs.Itemwise

/-!
# Conditions on the parts of a node

A condition asks something of the leaves of a node, of its error nodes and of the lexemes that only
hold it together. It is met part by part, however the items of the node were put in a row.
-/
namespace ShaderSyntax

/-- What is asked of the parts of a node. -/
structure Condition where
  leaf : Kind → Lexeme → Prop
  error : Prop
  lexeme : Lexeme → Prop

mutual

/-- The node and all nodes below it meet the condition. -/
def Node.Every (c : Condition) : Node → Prop
  | .leaf k l => c.leaf k l
  | .error _ => c.error
  | .branch _ items => Item.Every c items

def Item.Every (c : Condition) : List Item → Prop
  | [] => True
  | .token l :: rest => c.lexeme l ∧ Item.Every c rest
  | .attribute _ l :: rest => c.lexeme l ∧ Item.Every c rest
  | .child _ n :: rest => n.Every c ∧ Item.Every c rest

end

section Parts

variable {c : Condition}

@[simp] theorem Node.every_leaf (k : Kind) (l : Lexeme) : (leaf k l).Every c ↔ c.leaf k l := Iff.rfl

@[simp] theorem Node.every_error (s : Skipped) : (error s).Every c ↔ c.error := Iff.rfl

@[simp] theorem Node.every_branch (k : Kind) (items : List Item) :
    (branch k items).Every c ↔ Item.Every c items := Iff.rfl

end Parts

namespace Item

variable {c : Condition} {label : Label}

@[simp] theorem every_nil : Item.Every c [] ↔ True := Iff.rfl

@[simp] theorem every_mark (p : Punct) (rest : List Item) :
    Item.Every c (.mark p :: rest) ↔ c.lexeme (.punct p) ∧ Item.Every c rest := Iff.rfl

@[simp] theorem every_keyword (w : Keyword) (rest : List Item) :
    Item.Every c (.keyword w :: rest) ↔ c.lexeme (.word w.spelling) ∧ Item.Every c rest := Iff.rfl

@[simp] theorem every_token (l : Lexeme) (rest : List Item) :
    Item.Every c (.token l :: rest) ↔ c.lexeme l ∧ Item.Every c rest := Iff.rfl

@[simp] theorem every_attribute (l : Lexeme) (rest : List Item) :
    Item.Every c (.attribute label l :: rest) ↔ c.lexeme l ∧ Item.Every c rest := Iff.rfl

@[simp] theorem every_child (n : Node) (rest : List Item) :
    Item.Every c (.child label n :: rest) ↔ n.Every c ∧ Item.Every c rest := Iff.rfl

theorem itemwise_every : Itemwise (Item.Every c) c.lexeme c.lexeme fun _ n => n.Every c := by
  constructor <;> simp

@[simp] theorem every_append (xs ys : List Item) :
    Item.Every c (xs ++ ys) ↔ Item.Every c xs ∧ Item.Every c ys :=
  itemwise_every.append xs ys

@[simp] theorem every_children (nodes : List Node) :
    Item.Every c (children label nodes) ↔ ∀ n ∈ nodes, n.Every c :=
  itemwise_every.children nodes

@[simp] theorem every_separated (hcomma : c.lexeme (.punct .comma)) (nodes : List Node) :
    Item.Every c (separated label nodes) ↔ ∀ n ∈ nodes, n.Every c :=
  itemwise_every.separated hcomma nodes

@[simp] theorem every_child? (n : Option Node) :
    Item.Every c (child? label n) ↔ ∀ m ∈ n, m.Every c :=
  itemwise_every.child? n

@[simp] theorem every_marked? {p : Punct} (hp : c.lexeme (.punct p)) (n : Option Node) :
    Item.Every c (marked? p label n) ↔ ∀ m ∈ n, m.Every c :=
  itemwise_every.marked? hp n

end Item

end ShaderSyntax
