import ShaderSyntax.Concrete
import ShaderSyntax.Span

/-!
# Placed trees

A node with the spans it covers, as dumps and traversals show it: the lexemes that only hold a node
together are gone, and what is left are labelled fields in source order. Placing a node needs only the
number of lexemes before it and a way to turn a range of lexemes into a span.
-/
namespace ShaderSyntax

mutual

inductive Tree where
  | leaf (kind : Kind) (span : Span Nat) (text : Text)
  | error (span : Span Nat) (message : Text)
  | branch (kind : Kind) (span : Span Nat) (fields : List Field)

inductive Field where
  | attribute (label : Label) (text : Text)
  | child (label : Label) (tree : Tree)

end

namespace Tree

def kind : Tree → Kind
  | leaf k _ _ => k
  | error _ _ => .error
  | branch k _ _ => k

def span : Tree → Span Nat
  | leaf _ s _ => s
  | error s _ => s
  | branch _ s _ => s

/-- The word or literal a leaf stands for. -/
def leafText? : Tree → Option Text
  | leaf _ _ t => some t
  | _ => none

def fields : Tree → List Field
  | branch _ _ fs => fs
  | _ => []

end Tree

def Field.label : Field → Label
  | .attribute l _ => l
  | .child l _ => l

def Field.tree? : Field → Option Tree
  | .attribute _ _ => none
  | .child _ t => some t

namespace Tree

/-- The fields that are trees. -/
def children (t : Tree) : List Tree :=
  t.fields.filterMap Field.tree?

def isInvalid (t : Tree) : Bool :=
  t.kind.isInvalid

end Tree

mutual

/-- The tree of a node that has `start` lexemes before it. -/
def Node.place (locate : Nat → Nat → Span Nat) (start : Nat) : Node → Tree
  | .leaf k l => .leaf k (locate start (start + 1)) l.text
  | .error s => .error (locate start (start + s.lexemes.length)) s.problem.message
  | .branch k items =>
    .branch k (locate start (start + Item.size items)) (Item.place locate start items)

/-- The fields of items that have `start` lexemes before them. -/
def Item.place (locate : Nat → Nat → Span Nat) (start : Nat) : List Item → List Field
  | [] => []
  | .token _ :: rest => Item.place locate (start + 1) rest
  | .attribute label l :: rest => .attribute label l.text :: Item.place locate (start + 1) rest
  | .child label n :: rest =>
    .child label (n.place locate start) :: Item.place locate (start + n.size) rest

end

/-- The trees of nodes that follow each other. -/
def Node.placeAll (locate : Nat → Nat → Span Nat) : Nat → List Node → List Tree
  | _, [] => []
  | start, n :: rest => n.place locate start :: placeAll locate (start + n.size) rest

@[simp] theorem Node.kind_place (locate : Nat → Nat → Span Nat) (start : Nat) (n : Node) :
    (n.place locate start).kind = n.kind := by
  cases n <;> simp [Node.place, Node.kind, Tree.kind]

theorem Node.span_place (locate : Nat → Nat → Span Nat) (start : Nat) (n : Node) :
    (n.place locate start).span = locate start (start + n.size) := by
  cases n <;> simp [Node.place, Node.size, Tree.span]

end ShaderSyntax
