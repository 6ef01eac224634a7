import ShaderSyntax.Grammar.Declaration
import ShaderSyntax.Proofs.Confining
import ShaderSyntax.Proofs.Reading.Statement

/-!
# Statements stay between their braces

No production of expressions or statements comes past the brace that closes what surrounds it, and
each closes the braces it opens. The statements of a block therefore end at exactly the brace that
closes the block, whatever stands between.
-/
namespace ShaderSyntax

open ShaderSyntax.Parser ShaderSyntax.Outcome ShaderSyntax.Recovery

theorem UnaryOp.not_brace {p : Punct} {op : UnaryOp} (h : UnaryOp.ofPunct? p = some op) :
    isBrace (.punct p) = false := by
  cases p <;> first | rfl | cases h

theorem BinaryOp.not_brace {p : Punct} {op : BinaryOp} (h : BinaryOp.ofPunct? p = some op) :
    isBrace (.punct p) = false := by
  cases p <;> first | rfl | cases h

theorem AssignOp.not_brace {p : Punct} {op : AssignOp} (h : AssignOp.ofPunct? p = some op) :
    isBrace (.punct p) = false := by
  cases p <;> first | rfl | cases h

theorem AdjustOp.not_brace {p : Punct} {op : AdjustOp} (h : AdjustOp.ofPunct? p = some op) :
    isBrace (.punct p) = false := by
  cases p <;> first | rfl | cases h

namespace Grammar

section Specifiers

theorem name_confined : name.Confined 0 := by
  intro ts
  unfold name
  split
  · next w rest =>
    dsimp only
    split
    · exact (confined_stay rest).cons rfl
    · exact (confined_stay rest).cons rfl
  · exact confined_stuck ts

theorem baseType_confined : baseType.Confined 0 := by
  intro ts
  unfold baseType
  split
  · next w rest =>
    dsimp only
    split
    · exact (confined_stay rest).cons rfl
    · exact (confined_stay rest).cons rfl
    · exact (confined_stay rest).cons rfl
  · exact confined_stuck ts

theorem sizeSuffixes_outside (ts : List Lexeme) :
    (sizeSuffixes ts).2 <:+ ts ∧ outside 0 (sizeSuffixes ts).2 = outside 0 ts := by
  fun_induction sizeSuffixes ts with
  | case1 n rest sizes after h ih =>
    rw [h] at ih
    obtain ⟨hs, ho⟩ := ih
    refine ⟨hs.trans ⟨[.punct .openBracket, .int n, .punct .closeBracket], rfl⟩, ?_⟩
    rw [outside_cons rfl, outside_cons rfl, outside_cons rfl]
    exact ho
  | case2 ts => exact ⟨List.suffix_refl ts, rfl⟩

theorem typeRef_confined : typeRef.Confined 0 := by
  apply baseType_confined.andThen
  intro base ts
  obtain ⟨hs, ho⟩ := sizeSuffixes_outside ts
  exact confined_done hs ho

theorem arraySize_confined : arraySize.Confined 0 := by
  intro ts
  unfold arraySize
  split
  · next n rest => exact ((confined_require .afterArraySize rfl).map (fun _ => n) rest).cons rfl
  · exact confined_stuck ts

theorem markedLoop_arraySizesWithin : MarkedLoop .openBracket arraySize arraySizesWithin :=
  ⟨rfl, fun _ => rfl⟩

theorem arraySizes_confined : arraySizes.Confined 0 :=
  Confined.inRounds (markedLoop_arraySizesWithin.confined rfl arraySize_confined)

theorem specifier_confined : specifier.Confined 0 := by
  apply typeRef_confined.andThen
  intro t
  apply name_confined.andThen
  intro n
  exact arraySizes_confined.map fun sizes => Specifier.mk t n sizes

end Specifiers

section Expressions

variable {expr operand : Parser Expr}

theorem argument_confined (h : expr.Confined 0) : (argument expr).Confined 0 := by
  apply (confined_qualifier .paramQualifier).andThen
  intro q
  apply h.andThen
  intro e
  cases q with
  | none => exact confined_value e
  | some w => exact confined_value _

theorem arguments_confined (h : expr.Confined 0) : (arguments expr).Confined 0 := by
  apply Confined.onPunct .closeParen rfl
  · exact confined_value []
  · apply (argument_confined h).separated.andThen
    intro es
    exact (confined_require .closeArguments rfl).map fun _ => es

theorem parenthesized_confined (h : expr.Confined 0) : (parenthesized expr).Confined 0 := by
  apply (confined_require .beforeExpression rfl).andThen
  intro _
  apply h.andThen
  intro e
  exact (confined_require .afterExpression rfl).map fun _ => e

/-- The elements of an array literal close its brace. -/
theorem elements_confined (h : expr.Confined 0) : (elements expr).Confined 1 := by
  apply h.separated.andThen
  intro es
  exact (confined_close .closeArrayLiteral rfl).map fun _ => es

theorem wordExpr_confined (w : Text) (rest : List Lexeme) :
    (wordExpr w (.word w :: rest)).Confined 0 (.word w :: rest) := by
  unfold wordExpr
  split
  · exact (confined_stay rest).cons rfl
  · split
    · exact (confined_stay rest).cons rfl
    · exact name_confined.map Expr.name _

theorem strayExpr_confined {l : Lexeme} (hl : isBrace l = false) (rest : List Lexeme) :
    (strayExpr l (l :: rest)).Confined 0 (l :: rest) :=
  (confined_stay rest).cons hl

theorem isBrace_of_ne_punct {l : Lexeme} (h : ∀ p, l ≠ .punct p) : isBrace l = false := by
  simp only [isBrace, isPunct, Bool.or_eq_false_iff, decide_eq_false_iff_not]
  exact ⟨h _, h _⟩

/-- A closing brace ends what surrounds an expression, so neither brace is a stray lexeme. -/
theorem isBrace_of_not_endsExpression {p : Punct} (hbrace : p ≠ .openBrace)
    (hends : ¬endsExpression p = true) : isBrace (.punct p) = false := by
  cases p <;> first | rfl | exact absurd rfl hbrace | exact absurd rfl hends

theorem primary_confined (h : expr.Confined 0) : (primary expr).Confined 0 := by
  intro ts
  unfold primary
  split
  · exact confined_stuck _
  · exact (confined_stay _).cons rfl
  · exact (confined_stay _).cons rfl
  · exact wordExpr_confined _ _
  · exact (parenthesized_confined h).map Expr.paren _
  · exact ((elements_confined h).map Expr.array _).cons_openBrace
  · next p rest _ hbrace =>
    split
    · exact confined_stuck _
    · next hends => exact strayExpr_confined (isBrace_of_not_endsExpression hbrace hends) rest
  · next l rest _ _ _ _ _ hpunct => exact strayExpr_confined (isBrace_of_ne_punct hpunct) rest

theorem suffix_confined (h : expr.Confined 0) (e : Expr) (l : Lexeme) (q : Parser Expr)
    (hq : suffix expr e l = some q) : isBrace l = false ∧ q.Confined 0 := by
  unfold suffix at hq
  split at hq
  · cases hq
    exact ⟨rfl, (arguments_confined h).map fun es => Expr.call e es⟩
  · cases hq
    refine ⟨rfl, h.andThen fun i => ?_⟩
    exact (confined_require .afterIndex rfl).map fun _ => Expr.subscript e i
  · cases hq
    exact ⟨rfl, name_confined.map fun n => Expr.member e n⟩
  · cases hq

theorem suffixed_confined (h : expr.Confined 0) : (suffixed expr).Confined 0 :=
  (primary_confined h).andThen fun e => Confined.grow (suffix_confined h) e

theorem operation_confined (h : operand.Confined 0) (e : Expr) (l : Lexeme) (q : Parser Expr)
    (hq : operation operand e l = some q) : isBrace l = false ∧ q.Confined 0 := by
  unfold operation at hq
  split at hq
  · obtain ⟨op, hop, rfl⟩ := Option.map_eq_some_iff.mp hq
    exact ⟨BinaryOp.not_brace hop, h.map fun r => Expr.binary op e r⟩
  · cases hq

theorem chain_confined (h : operand.Confined 0) : (chain operand).Confined 0 :=
  h.andThen fun e => Confined.grow (operation_confined h) e

theorem conditional_confined (ho : operand.Confined 0) (h : expr.Confined 0) :
    (conditional operand expr).Confined 0 := by
  apply (chain_confined ho).andThen
  intro c
  apply Confined.onPunct .question rfl
  · apply h.andThen
    intro t
    apply (confined_require .conditionalBranch rfl).andThen
    intro _
    exact h.map fun e => Expr.conditional c t e
  · exact confined_value c

/-- A sign is no brace, so leaving it out changes no surroundings. -/
theorem signed_confined (h : operand.Confined 0) {p : Punct} {op : UnaryOp}
    (hp : UnaryOp.ofPunct? p = some op) (rest : List Lexeme) :
    (signed operand op (.punct p :: rest)).Confined 0 (.punct p :: rest) := by
  have hop : (operand.andThen fun e => value (Expr.unary op e)).Confined 0 :=
    h.map fun e => Expr.unary op e
  have hskip : (skip (.punct p :: rest)).Confined 0 (.punct p :: rest) :=
    (confined_stay rest).cons (UnaryOp.not_brace hp)
  exact hskip.bind fun _ mid => hop mid

theorem unsignedOr_confined {sign : UnaryOp → Parser Expr}
    (hs : ∀ p op rest, UnaryOp.ofPunct? p = some op →
      (sign op (.punct p :: rest)).Confined 0 (.punct p :: rest))
    (h : expr.Confined 0) : (unsignedOr sign expr).Confined 0 := by
  intro ts
  unfold unsignedOr
  split
  · split
    · next hop => exact hs _ _ _ hop
    · exact suffixed_confined h _
  · exact suffixed_confined h _

theorem ranked_confined (levels : Nat) :
    (expression levels).Confined 0 ∧ (Grammar.operand levels).Confined 0 := by
  induction levels with
  | zero =>
    exact ⟨confined_limit, unsignedOr_confined (fun _ _ _ _ => confined_limit _) confined_limit⟩
  | succ levels ih =>
    have he : (expression (levels + 1)).Confined 0 := conditional_confined ih.2 ih.1
    exact ⟨he, unsignedOr_confined (fun _ _ rest hop => signed_confined ih.2 hop rest) he⟩

end Expressions

section Statements

variable {expr : Parser Expr} {stmt : Parser Stmt}

theorem initializer_confined (h : expr.Confined 0) : (initializer expr).Confined 0 := by
  apply Confined.onPunct .assign rfl
  · exact h.map some
  · exact confined_value none

theorem variableThrough_confined (h : expr.Confined 0) (place : Place)
    (hp : isBrace (.punct place.punct) = false) : (variableThrough place expr).Confined 0 := by
  apply specifier_confined.andThen
  intro s
  apply (initializer_confined h).andThen
  intro v
  exact (confined_require place hp).map fun _ => Variable.mk s v

theorem constant_confined (h : expr.Confined 0) : (constant expr).Confined 0 := by
  apply (confined_qualifier .precision).andThen
  intro p
  exact (variableThrough_confined h .afterConstant rfl).map fun v => (p, v)

theorem adjusted_confined (h : expr.Confined 0) (op : AdjustOp) :
    (adjusted expr op).Confined 0 := by
  apply (suffixed_confined h).andThen
  intro t
  split
  · exact confined_value _
  · exact confined_fail _

theorem actionOn_confined (h : expr.Confined 0) (t : Expr) : (actionOn expr t).Confined 0 := by
  intro ts
  unfold actionOn
  split
  · next p rest =>
    split
    · next op hop =>
      split
      · exact (h.map (fun v => Action.assign t op v) rest).cons (AssignOp.not_brace hop)
      · exact confined_stuck _
    · next op _ hop =>
      split
      · exact (confined_stay rest).cons (AdjustOp.not_brace hop)
      · exact confined_stuck _
    · exact confined_stay _
  · exact confined_stay _

theorem action_confined (h : expr.Confined 0) : (action expr).Confined 0 := by
  have hplain : (plainAction expr).Confined 0 := h.andThen fun e => actionOn_confined h e
  intro ts
  unfold action
  split
  · next p rest =>
    split
    · next op hop => exact (adjusted_confined h op rest).cons (AdjustOp.not_brace hop)
    · exact hplain _
  · exact hplain _

theorem perform_confined (h : expr.Confined 0) : (perform expr).Confined 0 := by
  apply (action_confined h).andThen
  intro a
  exact (confined_require .afterStatement rfl).map fun _ => Stmt.perform a

theorem recoveredStmt_confined (h : stmt.Confined 0) (ts : List Lexeme)
    (hts : ts.head? ≠ some (.punct .closeBrace)) : (recoveredStmt stmt ts).Confined 0 ts :=
  h.recovering resumes_statement confines_statement .error ts hts

/-- The statements of a block, however they fail, leave the brace that closes it. -/
theorem body_confined (h : stmt.Confined 0) :
    (manyUntil (isPunct .closeBrace) (recoveredStmt stmt)).Confined 0 :=
  confined_manyUntil rfl (recoveredStmt_confined h)

theorem block_confined (h : stmt.Confined 0) : (block stmt).Confined 0 := by
  apply confined_open .openBlock rfl
  apply (body_confined h).andThen
  intro body
  exact (confined_close .closeBlock rfl).map fun _ => body

theorem branching_confined (he : expr.Confined 0) (h : stmt.Confined 0) :
    (branching expr stmt).Confined 0 := by
  apply (parenthesized_confined he).andThen
  intro c
  apply h.andThen
  intro t
  apply Confined.onKeyword
  · exact h.map fun e => Stmt.ifElse c t e
  · exact confined_value _

theorem whileLoop_confined (he : expr.Confined 0) (h : stmt.Confined 0) :
    (whileLoop expr stmt).Confined 0 := by
  apply (parenthesized_confined he).andThen
  intro c
  exact h.map fun b => Stmt.whileLoop c b

theorem forLoop_confined (he : expr.Confined 0) (h : stmt.Confined 0) :
    (forLoop expr stmt).Confined 0 := by
  apply (confined_require .afterFor rfl).andThen
  intro _
  apply (variableThrough_confined he .afterVariable rfl).andThen
  intro v
  apply he.andThen
  intro c
  apply (confined_require .afterLoopCondition rfl).andThen
  intro _
  apply (action_confined he).andThen
  intro u
  apply (confined_require .afterLoopUpdate rfl).andThen
  intro _
  exact h.map fun b => Stmt.forLoop v c u b

theorem clauseBody_confined (h : stmt.Confined 0) : (clauseBody stmt).Confined 0 := by
  apply (confined_require .afterCaseLabel rfl).andThen
  intro _
  exact confined_manyUntil rfl (recoveredStmt_confined h)

theorem clause_confined (he : expr.Confined 0) (h : stmt.Confined 0) :
    (clause expr stmt).Confined 0 := by
  apply Confined.onKeyword
  · apply he.andThen
    intro e
    exact (clauseBody_confined h).map fun body => Clause.onValue e body
  · apply Confined.onKeyword
    · exact (clauseBody_confined h).map Clause.otherwise
    · exact confined_fail _

theorem switchOn_confined (he : expr.Confined 0) (h : stmt.Confined 0) :
    (switchOn expr stmt).Confined 0 := by
  apply (confined_require .afterSwitch rfl).andThen
  intro _
  apply he.andThen
  intro e
  apply (confined_require .afterSwitchValue rfl).andThen
  intro _
  apply confined_open .openSwitch rfl
  have hclauses : (manyUntil (isPunct .closeBrace)
      (recovering resumeClause .error (clause expr stmt))).Confined 0 :=
    confined_manyUntil rfl
      ((clause_confined he h).recovering resumes_clause confines_clause .error)
  apply hclauses.andThen
  intro cs
  exact (confined_close .closeSwitch rfl).map fun _ => Stmt.switchOn e cs

theorem returnValue_confined (h : expr.Confined 0) : (returnValue expr).Confined 0 := by
  apply Confined.onPunct .semicolon rfl
  · exact confined_value _
  · apply h.andThen
    intro e
    exact (confined_require .afterReturn rfl).map fun _ => Stmt.returnValue (some e)

theorem plainStmt_confined (h : expr.Confined 0) : (plainStmt expr).Confined 0 := by
  intro ts
  unfold plainStmt
  split
  · exact (variableThrough_confined h .afterVariable rfl).map Stmt.declare ts
  · exact perform_confined h ts

theorem keywordStmt_confined (he : expr.Confined 0) (h : stmt.Confined 0) {k : Keyword}
    {p : Parser Stmt} (hp : keywordStmt expr stmt k = some p) : p.Confined 0 := by
  unfold keywordStmt at hp
  split at hp
  · cases hp
    exact branching_confined he h
  · cases hp
    exact whileLoop_confined he h
  · cases hp
    exact forLoop_confined he h
  · cases hp
    exact switchOn_confined he h
  · cases hp
    exact returnValue_confined he
  · cases hp
    exact (confined_require .afterBreak rfl).map fun _ => Stmt.breakOut
  · cases hp
    exact (confined_require .afterContinue rfl).map fun _ => Stmt.continueLoop
  · cases hp
    exact (constant_confined he).map fun c => Stmt.constant c.1 c.2
  · cases hp

theorem statementOf_confined (he : expr.Confined 0) (h : stmt.Confined 0) :
    (statementOf expr stmt).Confined 0 := by
  intro ts
  unfold statementOf
  split
  · exact (block_confined h).map Stmt.block _
  · next w rest =>
    split
    · next p hp =>
      obtain ⟨k, -, hk⟩ := Option.bind_eq_some_iff.mp hp
      exact (keywordStmt_confined he h hk rest).cons rfl
    · exact plainStmt_confined he _
  · exact plainStmt_confined he _

/-- Whatever levels are left, statements stay between the braces around them. -/
theorem statement_confined (levels : Nat) : Parser.Confined (statement levels) 0 := by
  induction levels with
  | zero => exact confined_limit
  | succ levels ih => exact statementOf_confined (ranked_confined levels).1 ih

/-- The body of a block between balanced braces ends at the brace that closes it: the block is done
right after, unless the limit on nesting is met. -/
theorem block_between (levels : Nat) {body : List Lexeme} (h : Balanced body) (rest : List Lexeme) :
    (∃ stmts found, block (statement levels)
        (.punct .openBrace :: (body ++ .punct .closeBrace :: rest)) = .done stmts rest found) ∨
      ∃ left found, block (statement levels)
        (.punct .openBrace :: (body ++ .punct .closeBrace :: rest)) = .tooDeep left found := by
  have hopen : require .openBlock (.punct .openBrace :: (body ++ .punct .closeBrace :: rest)) =
      .done () (body ++ .punct .closeBrace :: rest) [] := rfl
  rcases manyUntil_stops (isPunct .closeBrace)
      (recoveredStmt_reads (statement_reads levels))
      (fun ts => recovering_ne_failed _ _ _ ts) (body ++ .punct .closeBrace :: rest) with
    ⟨stmts, mid, found, hd, hstop⟩ | ⟨left, found, hd⟩
  · have hout : outside 0 mid = .punct .closeBrace :: rest :=
      ((body_confined (statement_confined levels) _).done stmts mid found hd).trans
        (h.outside_eq rest)
    have hmid : mid = .punct .closeBrace :: rest := by
      cases mid with
      | nil => cases hout
      | cons l mid =>
        have hl : l = .punct .closeBrace := by simpa [isPunct] using hstop l rfl
        subst hl
        exact hout
    subst hmid
    have hclose : require .closeBlock (.punct .closeBrace :: rest) = .done () rest [] := rfl
    refine .inl ⟨stmts, found, ?_⟩
    simp [block, bind_eq_andThen, Parser.andThen, hopen, hd, hclose, value, Outcome.after]
  · refine .inr ⟨left, found, ?_⟩
    simp [block, bind_eq_andThen, Parser.andThen, hopen, hd, Outcome.after]

end Statements

end Grammar

end ShaderSyntax
