import ShaderSyntax.Concrete

/-!
# Conditions on items one by one

Many conditions on the items of a node ask something of each item, whatever stands around it. Items
in a row meet such a condition just if all of them do. So children meet it just if each of them does,
and commas between them do not matter if nothing is asked of a comma.
-/
namespace ShaderSyntax

/-- The condition asks `T` of the lexemes that only hold a node together, `A` of its attributes and
`C` of its children under their labels. -/
structure Itemwise (P : List Item → Prop) (T A : Lexeme → Prop) (C : Label → Node → Prop) :
    Prop where
  nil : P []
  onToken : ∀ l rest, P (.token l :: rest) ↔ T l ∧ P rest
  onAttribute : ∀ label l rest, P (.attribute label l :: rest) ↔ A l ∧ P rest
  onChild : ∀ label n rest, P (.child label n :: rest) ↔ C label n ∧ P rest

namespace Itemwise

variable {P : List Item → Prop} {T A : Lexeme → Prop} {C : Label → Node → Prop} {label : Label}

theorem append (h : Itemwise P T A C) (xs ys : List Item) : P (xs ++ ys) ↔ P xs ∧ P ys := by
  induction xs with
  | nil => simp [h.nil]
  | cons x xs ih =>
    rw [List.cons_append]
    cases x with
    | token l => rw [h.onToken, h.onToken, ih, and_assoc]
    | «attribute» label l => rw [h.onAttribute, h.onAttribute, ih, and_assoc]
    | child label n => rw [h.onChild, h.onChild, ih, and_assoc]

theorem of_mem (h : Itemwise P T A C) {items : List Item} {n : Node} (hp : P items)
    (hn : .child label n ∈ items) : C label n := by
  obtain ⟨before, after, rfl⟩ := List.append_of_mem hn
  exact ((h.onChild label n after).mp ((h.append before _).mp hp).2).1

theorem children (h : Itemwise P T A C) (nodes : List Node) :
    P (Item.children label nodes) ↔ ∀ n ∈ nodes, C label n := by
  induction nodes with
  | nil => simp [Item.children, h.nil]
  | cons n nodes ih =>
    have hc : Item.children label (n :: nodes) = .child label n :: Item.children label nodes := rfl
    rw [hc, h.onChild, ih, List.forall_mem_cons]

theorem separated (h : Itemwise P T A C) (hcomma : T (.punct .comma)) (nodes : List Node) :
    P (Item.separated label nodes) ↔ ∀ n ∈ nodes, C label n := by
  induction nodes with
  | nil => simp [Item.separated, h.nil]
  | cons n nodes ih =>
    cases nodes with
    | nil => simp [Item.separated, h.onChild, h.nil]
    | cons m nodes =>
      have hs : Item.separated label (n :: m :: nodes) =
          .child label n :: .token (.punct .comma) :: Item.separated label (m :: nodes) := rfl
      rw [hs, h.onChild, h.onToken, ih, and_iff_right hcomma]
      exact List.forall_mem_cons.symm

theorem child? (h : Itemwise P T A C) (n? : Option Node) :
    P (Item.child? label n?) ↔ ∀ n ∈ n?, C label n := by
  cases n? <;> simp [Item.child?, h.onChild, h.nil]

theorem marked? (h : Itemwise P T A C) {p : Punct} (hp : T (.punct p)) (n? : Option Node) :
    P (Item.marked? p label n?) ↔ ∀ n ∈ n?, C label n := by
  cases n? <;> simp [Item.marked?, Item.mark, h.onToken, h.onChild, h.nil, hp]

end Itemwise

end ShaderSyntax
