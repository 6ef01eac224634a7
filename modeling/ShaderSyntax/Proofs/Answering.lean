import ShaderSyntax.Proofs.Completeness.Expression
import ShaderSyntax.Proofs.Requests

/-!
# Expressions on request

A request for an expression gives back a canonical one that stands at the front, and takes its
lexemes and nothing after them. Operators are only told apart by where they stand: however many follow
each other, the operands are taken in from the left, and each choice is the alternative of the one
before it.
-/
namespace ShaderSyntax

namespace Expr

/-- Operands after a first one, each with the operator before it, taken in from the left. -/
def chained (first : Expr) (others : List (BinaryOp × Expr)) : Expr :=
  others.foldl (fun left o => .binary o.1 left o.2) first

/-- Conditions with their values, each the alternative of the one before, and the last one. -/
def chosen (choices : List (Expr × Expr)) (last : Expr) : Expr :=
  choices.foldr (fun c other => .conditional c.1 c.2 other) last

theorem lexemes_chained (first : Expr) (others : List (BinaryOp × Expr)) :
    (chained first others).lexemes =
      first.lexemes ++ others.flatMap fun o => .punct o.1.punct :: o.2.lexemes := by
  induction others generalizing first with
  | nil => simp [chained]
  | cons o others ih =>
    have hstep : chained first (o :: others) = chained (.binary o.1 first o.2) others := rfl
    rw [hstep, ih, lexemes_binary, List.flatMap_cons, List.append_assoc]

theorem lexemes_chosen (choices : List (Expr × Expr)) (last : Expr) :
    (chosen choices last).lexemes =
      (choices.flatMap fun c =>
        c.1.lexemes ++ Lexeme.punct .question :: (c.2.lexemes ++ [Lexeme.punct .colon]))
        ++ last.lexemes := by
  induction choices with
  | nil => simp [chosen]
  | cons c choices ih =>
    have hstep : chosen (c :: choices) last = .conditional c.1 c.2 (chosen choices last) := rfl
    rw [hstep, lexemes_conditional, ih, List.flatMap_cons]
    simp only [List.append_assoc, List.cons_append, List.nil_append]

/-- A chain nests as deep as its deepest operand. -/
theorem depth_chained_lt {first : Expr} {others : List (BinaryOp × Expr)} {levels : Nat}
    (hf : first.depth < levels) (ho : ∀ o ∈ others, o.2.depth < levels) :
    (chained first others).depth < levels := by
  induction others generalizing first with
  | nil => exact hf
  | cons o others ih =>
    obtain ⟨h, hs⟩ := List.forall_mem_cons.mp ho
    refine ih ?_ hs
    rw [depth]
    exact Nat.max_lt.mpr ⟨hf, h⟩

theorem whole_chained {first : Expr} {others : List (BinaryOp × Expr)}
    (hf : first.isChain = true ∧ first.canonical = true)
    (ho : ∀ o ∈ others, o.2.isOperand = true ∧ o.2.canonical = true) :
    (chained first others).whole = true := by
  induction others generalizing first with
  | nil => simp [chained, whole, isFull_of_isChain hf.1, hf.2]
  | cons o others ih =>
    obtain ⟨h, hs⟩ := List.forall_mem_cons.mp ho
    exact ih ⟨rfl, by simp [canonical, hf, h]⟩ hs

theorem whole_chosen {choices : List (Expr × Expr)} {last : Expr}
    (hc : ∀ c ∈ choices, c.1.isChain = true ∧ c.1.canonical = true ∧ c.2.whole = true)
    (hl : last.whole = true) : (chosen choices last).whole = true := by
  induction choices with
  | nil => exact hl
  | cons c choices ih =>
    obtain ⟨⟨hchain, hcanonical, hthen⟩, hs⟩ := List.forall_mem_cons.mp hc
    have helse := ih hs
    simp only [whole, Bool.and_eq_true] at hthen helse
    have hcan : (conditional c.1 c.2 (chosen choices last)).canonical = true := by
      simp [canonical, hchain, hcanonical, hthen, helse]
    exact Bool.and_eq_true_iff.mpr ⟨rfl, hcan⟩

end Expr

namespace Session

/-- The expression at the front is given back, and only the place of the session changes. -/
theorem expression_eq {s : Session} {e : Expr} {rest : List Lexeme} (he : e.whole = true)
    (hd : e.depth < s.free) (hr : Ends extendsExpr rest) (hs : s.rest = e.lexemes ++ rest) :
    s.expression = (.ok (e.node.place s.source.locate s.taken), { s with rest }) := by
  have hdone : (Routine.nested .expression).parse (Production.parse s.free) s.rest =
      .done e rest [] := by
    rw [Routine.parse_nested, Production.parse_expression, hs]
    exact Grammar.expression_done he hd hr
  rw [expression, request_eq_done hdone, advance_nil]
  rfl

/-- The first request to a session on the text gives the expression, stops at what is left after it,
and finds nothing wrong. -/
structure Returns (levels : Nat) (text : Text) (e : Expr) (rest : List Lexeme) : Prop where
  tree : (start levels text).expression.1 = .ok (e.node.place (Source.ofText text).locate 0)
  taken : (start levels text).expression.2.taken = e.lexemes.length
  rest : (start levels text).expression.2.rest = rest
  diagnostics : (start levels text).expression.2.diagnostics = []
  invalidTrees : (start levels text).expression.2.invalidTrees = []

theorem returns_of_whole {levels : Nat} {text : Text} {e : Expr} {rest : List Lexeme}
    (he : e.whole = true) (hd : e.depth < levels) (hr : Ends extendsExpr rest)
    (ht : (Source.ofText text).lexemes = e.lexemes ++ rest) : Returns levels text e rest := by
  have hstart := standing_start levels text
  have hstarted := hstart.taken_add
  have hexpr : (start levels text).expression = _ := expression_eq he hd hr ht
  have hafter : (start levels text).expression.2.rest = rest := by rw [hexpr]
  have hstanding := ((step_answer (start levels text) .expression).goes hstart.depth).standing hstart
  have htaken : (start levels text).expression.2.taken + _ = _ := hstanding.taken_add
  have hzero : (start levels text).taken = 0 := by
    have hall : (start levels text).rest = (Source.ofText text).lexemes := rfl
    rw [hall] at hstarted
    omega
  constructor
  · rw [hexpr, hzero]
    rfl
  · have hleft : ((start levels text).answer .expression).2.rest = rest := hafter
    rw [hleft, ht, List.length_append] at htaken
    omega
  · exact hafter
  · rw [hexpr]
    rfl
  · rw [hexpr]
    rfl

end Session

/-- Expressions are given back from the lexemes they are written in, for every limit that they fit in
and whatever follows that does not extend them. So are chains of operands, as the operators between
them associate to the left, and choices of choices, which associate to the right. -/
theorem expression_returns {text : Text} {depth : Int} {rest : List Lexeme}
    (hr : Ends extendsExpr rest) :
    (∀ e : Expr, e.whole = true → e.depth < levelsFor depth →
      (Source.ofText text).lexemes = e.lexemes ++ rest →
      Session.Returns (levelsFor depth) text e rest) ∧
    (∀ (first : Expr) (others : List (BinaryOp × Expr)),
      (∀ e ∈ first :: others.map Prod.snd,
        e.isOperand = true ∧ e.canonical = true ∧ e.depth < levelsFor depth) →
      (Source.ofText text).lexemes =
        first.lexemes ++ (others.flatMap fun o => .punct o.1.punct :: o.2.lexemes) ++ rest →
      Session.Returns (levelsFor depth) text (first.chained others) rest) ∧
    (∀ (choices : List (Expr × Expr)) (last : Expr),
      (∀ c ∈ choices, c.1.isChain = true ∧ c.1.canonical = true ∧ c.2.whole = true) →
      last.whole = true → (Expr.chosen choices last).depth < levelsFor depth →
      (Source.ofText text).lexemes =
        (choices.flatMap fun c =>
          c.1.lexemes ++ .punct .question :: (c.2.lexemes ++ [.punct .colon])) ++
        last.lexemes ++ rest →
      Session.Returns (levelsFor depth) text (Expr.chosen choices last) rest) := by
  refine ⟨?_, ?_, ?_⟩
  · intro e he hd ht
    exact Session.returns_of_whole he hd hr ht
  · intro first others hall ht
    obtain ⟨⟨hop, hc, hd⟩, hothers⟩ := List.forall_mem_cons.mp hall
    have ho : ∀ o ∈ others, o.2.isOperand = true ∧ o.2.canonical = true ∧
        o.2.depth < levelsFor depth := fun o ho => hothers o.2 (List.mem_map_of_mem ho)
    refine Session.returns_of_whole ?_ ?_ hr ?_
    · exact Expr.whole_chained ⟨Expr.isChain_of_isOperand hop, hc⟩
        fun o hm => ⟨(ho o hm).1, (ho o hm).2.1⟩
    · exact Expr.depth_chained_lt hd fun o hm => (ho o hm).2.2
    · rw [ht, Expr.lexemes_chained]
  · intro choices last hc hl hd ht
    refine Session.returns_of_whole (Expr.whole_chosen hc hl) hd hr ?_
    rw [ht, Expr.lexemes_chosen]

/-- A call of a type, a product after a difference, which does not bind closer than it, and two
choices, of which the second belongs to the first. -/
theorem expression_returns_folds :
    let name (word : String) := Expr.name (.valid .plain (Text.ofString word))
    let one := Expr.number (.int (Text.ofString "1"))
    Session.Returns 2 (Text.ofString "vec2 ( 1 , out a ) )")
        (.call (.typeName (Text.ofString "vec2")) [one, .qualified (Text.ofString "out") (name "a")])
        [.punct .closeParen] ∧
      Session.Returns 8 (Text.ofString "- a [ 1 ] - b * ( c ) ; \x7d")
        (.binary .mul (.binary .sub (.unary .neg (.subscript (name "a") one)) (name "b"))
          (.paren (name "c"))) [.punct .semicolon, .punct .closeBrace] ∧
      Session.Returns 8 (Text.ofString "a - b ? c : d ? b : c , a")
        (.conditional (.binary .sub (name "a") (name "b")) (name "c")
          (.conditional (name "d") (name "b") (name "c")))
        [.punct .comma, .word (Text.ofString "a")] := by
  intro name one
  refine ⟨?_, ?_, ?_⟩
  · exact (@expression_returns _ 2 _ (ends_cons rfl)).1
      (.call (.typeName (Text.ofString "vec2")) [one, .qualified (Text.ofString "out") (name "a")])
      (by decide +kernel) (by decide +kernel) (by decide +kernel)
  · exact (@expression_returns _ 8 _ (ends_cons rfl)).2.1
      (.unary .neg (.subscript (name "a") one)) [(.sub, name "b"), (.mul, .paren (name "c"))]
      (by decide +kernel) (by decide +kernel)
  · exact (@expression_returns _ 8 _ (ends_cons rfl)).2.2
      [(.binary .sub (name "a") (name "b"), name "c"), (name "d", name "b")] (name "c")
      (by decide +kernel) (by decide +kernel) (by decide +kernel) (by decide +kernel)

end ShaderSyntax
