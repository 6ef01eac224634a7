import ShaderSyntax.Proofs.Fidelity
import ShaderSyntax.Proofs.Sealing
import ShaderSyntax.Proofs.Yielding

/-!
# Braces of recovered nodes

An error inside a body or between clauses or members ends before the brace that closes what surrounds
it, and not inside a block that it opened. So the tokens of every node of a document have their
braces in pairs, but for the errors that stand for whole declarations.
-/
namespace ShaderSyntax

open ShaderSyntax.Parser ShaderSyntax.Outcome ShaderSyntax.Recovery

namespace Grammar

section Specifiers

/-- A word that is noted is no brace. -/
theorem sealed_word (problem : Problem) (k : Kind) (w : Text) (left : Nat) :
    Sealed [.single problem (.leaf k (.word w)) left] :=
  sealed_singleton (balanced_single rfl)

theorem name_seals : name.Seals := by
  intro ts
  unfold name
  split
  · dsimp only
    split
    · exact seals_done sealed_nil
    · exact seals_done (sealed_word _ _ _ _)
  · exact seals_failed

theorem baseType_seals : baseType.Seals := by
  intro ts
  unfold baseType
  split
  · dsimp only
    split
    · exact seals_done sealed_nil
    · exact seals_done sealed_nil
    · exact seals_done (sealed_word _ _ _ _)
  · exact seals_failed

theorem typeRef_seals : typeRef.Seals :=
  baseType_seals.andThen fun _ _ => seals_done sealed_nil

theorem arraySize_seals : arraySize.Seals := by
  intro ts
  unfold arraySize
  split
  · exact (seals_require .afterArraySize).andThen (fun _ => seals_value) _
  · exact seals_failed

theorem arraySizes_seals : arraySizes.Seals :=
  Seals.inRounds (markedLoop_arraySizesWithin.seals arraySize_seals)

theorem specifier_seals : specifier.Seals :=
  typeRef_seals.andThen fun _ => name_seals.andThen fun _ => arraySizes_seals.andThen fun _ =>
    seals_value

theorem term_seals (wanted : Wanted) (cls : WordClass) (good bad : Kind)
    (problem : Text → Problem) : (term wanted cls good bad problem).Seals := by
  intro ts
  unfold term
  split
  · split
    · exact seals_done sealed_nil
    · exact seals_done (sealed_word _ _ _ _)
  · exact seals_failed

end Specifiers

section Expressions

variable {expr operand : Parser Expr}

theorem argument_seals (h : expr.Seals) : (argument expr).Seals := by
  apply (seals_qualifier .paramQualifier).andThen
  intro q
  apply h.andThen
  intro e
  cases q with
  | none => exact seals_value
  | some w => exact seals_value

theorem arguments_seals (h : expr.Seals) : (arguments expr).Seals := by
  apply Seals.onPunct
  · exact seals_value
  · exact (argument_seals h).separated.andThen fun _ =>
      (seals_require .closeArguments).andThen fun _ => seals_value

theorem parenthesized_seals (h : expr.Seals) : (parenthesized expr).Seals :=
  (seals_require .beforeExpression).andThen fun _ => h.andThen fun _ =>
    (seals_require .afterExpression).andThen fun _ => seals_value

theorem elements_seals (h : expr.Seals) : (elements expr).Seals :=
  h.separated.andThen fun _ => (seals_require .closeArrayLiteral).andThen fun _ => seals_value

theorem wordExpr_seals (w : Text) : (wordExpr w).Seals := by
  intro ts
  unfold wordExpr
  split
  · exact seals_done sealed_nil
  · split
    · exact seals_done sealed_nil
    · exact name_seals.andThen (fun _ => seals_value) ts

theorem strayExpr_seals {l : Lexeme} (hl : isBrace l = false) : (strayExpr l).Seals :=
  fun _ => seals_done (sealed_singleton (balanced_single hl))

theorem primary_seals (h : expr.Seals) : (primary expr).Seals := by
  intro ts
  unfold primary
  split
  · exact seals_failed
  · exact seals_done sealed_nil
  · exact seals_done sealed_nil
  · exact wordExpr_seals _ _
  · exact (parenthesized_seals h).andThen (fun _ => seals_value) _
  · exact (elements_seals h).andThen (fun _ => seals_value) _
  · next p rest hopen hbrace =>
    split
    · exact seals_failed
    · next hends => exact strayExpr_seals (isBrace_of_not_endsExpression hbrace hends) _
  · next l rest _ _ _ _ _ hpunct => exact strayExpr_seals (isBrace_of_ne_punct hpunct) _

theorem suffix_seals (h : expr.Seals) (e : Expr) (l : Lexeme) (q : Parser Expr)
    (hq : suffix expr e l = some q) : q.Seals := by
  unfold suffix at hq
  split at hq <;> cases hq
  · exact (arguments_seals h).andThen fun _ => seals_value
  · exact h.andThen fun _ => (seals_require .afterIndex).andThen fun _ => seals_value
  · exact name_seals.andThen fun _ => seals_value

theorem suffixed_seals (h : expr.Seals) : (suffixed expr).Seals :=
  (primary_seals h).andThen (.grow (suffix_seals h))

theorem operation_seals (h : operand.Seals) (e : Expr) (l : Lexeme) (q : Parser Expr)
    (hq : operation operand e l = some q) : q.Seals := by
  unfold operation at hq
  split at hq
  · obtain ⟨op, -, rfl⟩ := Option.map_eq_some_iff.mp hq
    exact h.andThen fun _ => seals_value
  · cases hq

theorem chain_seals (h : operand.Seals) : (chain operand).Seals :=
  h.andThen (.grow (operation_seals h))

theorem conditional_seals (ho : operand.Seals) (h : expr.Seals) :
    (conditional operand expr).Seals := by
  apply (chain_seals ho).andThen
  intro c
  apply Seals.onPunct
  · exact h.andThen fun _ => (seals_require .conditionalBranch).andThen fun _ =>
      h.andThen fun _ => seals_value
  · exact seals_value

theorem signed_seals (h : operand.Seals) (op : UnaryOp) : (signed operand op).Seals := by
  -- Leaving out the sign computes at once, so the two steps are told apart before a rule is applied.
  rw [signed, bind_eq_andThen]
  exact seals_skip.andThen fun _ => h.andThen fun _ => seals_value

theorem unsignedOr_seals {sign : UnaryOp → Parser Expr} (hs : ∀ op, (sign op).Seals)
    (h : expr.Seals) : (unsignedOr sign expr).Seals := by
  intro ts
  unfold unsignedOr
  split
  · split
    · exact hs _ _
    · exact suffixed_seals h _
  · exact suffixed_seals h _

/-- Whatever levels are left, the errors inside expressions are no braces. -/
theorem ranked_seals (levels : Nat) :
    (expression levels).Seals ∧ (Grammar.operand levels).Seals := by
  induction levels with
  | zero => exact ⟨seals_limit, unsignedOr_seals (fun _ => seals_limit) seals_limit⟩
  | succ levels ih =>
    obtain ⟨he, ho⟩ := ih
    have hexpr : (expression (levels + 1)).Seals := conditional_seals ho he
    exact ⟨hexpr, unsignedOr_seals (signed_seals ho) hexpr⟩

end Expressions

section Statements

variable {expr : Parser Expr} {stmt : Parser Stmt}

theorem initializer_seals (h : expr.Seals) : (initializer expr).Seals := by
  apply Seals.onPunct
  · exact h.andThen fun _ => seals_value
  · exact seals_value

theorem variableThrough_seals (h : expr.Seals) (place : Place) :
    (variableThrough place expr).Seals :=
  specifier_seals.andThen fun _ => (initializer_seals h).andThen fun _ =>
    (seals_require place).andThen fun _ => seals_value

theorem constant_seals (h : expr.Seals) : (constant expr).Seals :=
  (seals_qualifier .precision).andThen fun _ =>
    (variableThrough_seals h .afterConstant).andThen fun _ => seals_value

theorem adjusted_seals (h : expr.Seals) (op : AdjustOp) : (adjusted expr op).Seals := by
  apply (suffixed_seals h).andThen
  intro t
  split
  · exact seals_value
  · exact seals_fail

theorem actionOn_seals (h : expr.Seals) (t : Expr) : (actionOn expr t).Seals := by
  intro ts
  unfold actionOn
  split
  · split
    · split
      · exact h.andThen (fun _ => seals_value) _
      · exact seals_failed
    · split
      · exact seals_done sealed_nil
      · exact seals_failed
    · exact seals_done sealed_nil
  · exact seals_done sealed_nil

theorem plainAction_seals (h : expr.Seals) : (plainAction expr).Seals :=
  h.andThen (actionOn_seals h)

theorem action_seals (h : expr.Seals) : (action expr).Seals := by
  intro ts
  unfold action
  split
  · split
    · exact adjusted_seals h _ _
    · exact plainAction_seals h _
  · exact plainAction_seals h _

theorem perform_seals (h : expr.Seals) : (perform expr).Seals :=
  (action_seals h).andThen fun _ => (seals_require .afterStatement).andThen fun _ => seals_value

/-- The statements of a body, up to a lexeme that stops them. -/
theorem body_seals (hc : stmt.Confined 0) (h : stmt.Seals) {stop : Lexeme → Bool}
    (hstop : stop (.punct .closeBrace) = true) :
    (manyUntil stop (recoveredStmt stmt)).SealsInside :=
  sealsInside_manyUntil hstop (recoveredStmt_confined hc)
    (h.inside.recovering hc resumes_statement confines_statement Stmt.error)

theorem block_seals (hc : stmt.Confined 0) (h : stmt.Seals) : (block stmt).Seals :=
  (seals_require .openBlock).andThen fun _ =>
    (body_seals hc h rfl).closed rfl fun _ => seals_value

theorem branching_seals (he : expr.Seals) (hs : stmt.Seals) : (branching expr stmt).Seals := by
  apply (parenthesized_seals he).andThen
  intro c
  apply hs.andThen
  intro t
  apply Seals.onKeyword
  · exact hs.andThen fun _ => seals_value
  · exact seals_value

theorem whileLoop_seals (he : expr.Seals) (hs : stmt.Seals) : (whileLoop expr stmt).Seals :=
  (parenthesized_seals he).andThen fun _ => hs.andThen fun _ => seals_value

theorem forLoop_seals (he : expr.Seals) (hs : stmt.Seals) : (forLoop expr stmt).Seals :=
  (seals_require .afterFor).andThen fun _ =>
    (variableThrough_seals he .afterVariable).andThen fun _ => he.andThen fun _ =>
      (seals_require .afterLoopCondition).andThen fun _ => (action_seals he).andThen fun _ =>
        (seals_require .afterLoopUpdate).andThen fun _ => hs.andThen fun _ => seals_value

/-- The statements of a clause end at a brace that the clause does not take. -/
theorem clauseBody_seals (hc : stmt.Confined 0) (h : stmt.Seals) :
    (clauseBody stmt).SealsInside :=
  (seals_require .afterCaseLabel).inside.andThen (fun _ => body_seals hc h rfl)
    fun _ => confined_manyUntil rfl (recoveredStmt_confined hc)

theorem clause_seals (he : expr.Seals) (hc : stmt.Confined 0) (hs : stmt.Seals) :
    (clause expr stmt).SealsInside := by
  have hbody := clauseBody_seals hc hs
  have hconfined := clauseBody_confined hc
  apply SealsInside.onKeyword
  · apply he.inside.andThen
    · exact fun _ => hbody.andThen (fun _ => seals_value.inside) fun _ => confined_value _
    · exact fun e => hconfined.map (Clause.onValue e)
  · apply SealsInside.onKeyword
    · exact hbody.andThen (fun _ => seals_value.inside) fun _ => confined_value _
    · exact seals_fail.inside

theorem switchOn_seals (hec : expr.Confined 0) (he : expr.Seals) (hc : stmt.Confined 0)
    (hs : stmt.Seals) : (switchOn expr stmt).Seals := by
  have hclause := clause_confined hec hc
  have hclauses : (manyUntil (isPunct .closeBrace)
      (recovering resumeClause .error (clause expr stmt))).SealsInside :=
    sealsInside_manyUntil rfl
      (hclause.recovering resumes_clause confines_clause Clause.error)
      ((clause_seals he hc hs).recovering hclause resumes_clause confines_clause Clause.error)
  exact (seals_require .afterSwitch).andThen fun _ => he.andThen fun _ =>
    (seals_require .afterSwitchValue).andThen fun _ => (seals_require .openSwitch).andThen fun _ =>
      hclauses.closed rfl fun _ => seals_value

theorem returnValue_seals (h : expr.Seals) : (returnValue expr).Seals := by
  apply Seals.onPunct
  · exact seals_value
  · exact h.andThen fun _ => (seals_require .afterReturn).andThen fun _ => seals_value

theorem plainStmt_seals (h : expr.Seals) : (plainStmt expr).Seals := by
  intro ts
  unfold plainStmt
  split
  · exact (variableThrough_seals h .afterVariable).andThen (fun _ => seals_value) ts
  · exact perform_seals h ts

theorem keywordStmt_seals (hec : expr.Confined 0) (he : expr.Seals) (hc : stmt.Confined 0)
    (hs : stmt.Seals) (k : Keyword) (q : Parser Stmt) (hq : keywordStmt expr stmt k = some q) :
    q.Seals := by
  unfold keywordStmt at hq
  split at hq <;> cases hq
  · exact branching_seals he hs
  · exact whileLoop_seals he hs
  · exact forLoop_seals he hs
  · exact switchOn_seals hec he hc hs
  · exact returnValue_seals he
  · exact (seals_require .afterBreak).andThen fun _ => seals_value
  · exact (seals_require .afterContinue).andThen fun _ => seals_value
  · exact (constant_seals he).andThen fun _ => seals_value

theorem statementOf_seals (hec : expr.Confined 0) (he : expr.Seals) (hc : stmt.Confined 0)
    (hs : stmt.Seals) : (statementOf expr stmt).Seals := by
  intro ts
  unfold statementOf
  split
  · exact (block_seals hc hs).andThen (fun _ => seals_value) _
  · split
    · next q hq =>
      obtain ⟨k, -, hk⟩ := Option.bind_eq_some_iff.mp hq
      exact keywordStmt_seals hec he hc hs k q hk _
    · exact plainStmt_seals he _
  · exact plainStmt_seals he ts

/-- Whatever levels are left, the errors inside a statement are sealed. -/
theorem statement_seals (levels : Nat) : Parser.Seals (statement levels) := by
  induction levels with
  | zero => exact seals_limit
  | succ levels ih =>
    exact statementOf_seals (ranked_confined levels).1 (ranked_seals levels).1
      (statement_confined levels) ih

end Statements

section Declarations

variable {expr : Parser Expr} {stmt : Parser Stmt}

theorem renderModeTerms_seals : renderModeTerms.Seals := by
  intro ts
  unfold renderModeTerms
  split
  · exact (term_seals _ _ _ _ _).separated _
  · exact seals_done sealed_nil

theorem varying_seals : varying.Seals :=
  (seals_qualifier .interpolation).andThen fun _ => (seals_qualifier .precision).andThen fun _ =>
    specifier_seals.andThen fun _ => (seals_require .afterVarying).andThen fun _ => seals_value

theorem name?_seals : name?.Seals := by
  intro ts
  unfold name?
  split
  · exact name_seals.andThen (fun _ => seals_value) _
  · exact seals_done sealed_nil

theorem groupUniforms_seals : groupUniforms.Seals := by
  apply name?_seals.andThen
  intro g
  apply Seals.andThen
  · apply Seals.onPunct .dot
    · exact name_seals.andThen fun _ => seals_value
    · exact seals_value
  · intro s
    exact (seals_require .afterGroupUniforms).andThen fun _ => seals_value

theorem hintNumber_seals : hintNumber.Seals := by
  intro ts
  unfold hintNumber
  split
  · exact seals_done sealed_nil
  · exact seals_done sealed_nil
  · exact seals_failed

theorem hintParam_seals : hintParam.Seals := by
  apply Seals.onPunct
  · exact hintNumber_seals.andThen fun _ => seals_value
  · exact hintNumber_seals.andThen fun _ => seals_value

theorem hintParams_seals : hintParams.Seals := by
  apply Seals.onPunct
  · exact seals_value
  · exact hintParam_seals.separated.andThen fun _ =>
      (seals_require .closeHintParameters).andThen fun _ => seals_value

theorem hint_seals : hint.Seals := by
  apply (term_seals _ _ _ _ _).andThen
  intro n
  apply Seals.onPunct
  · exact hintParams_seals.andThen fun _ => seals_value
  · exact seals_value

theorem uniform_seals (h : expr.Seals) (scope : Option Scope) : (uniform scope expr).Seals :=
  (seals_qualifier .precision).andThen fun _ => specifier_seals.andThen fun _ =>
    (hint_seals.separated.onPunct .colon seals_value).andThen fun _ =>
      (initializer_seals h).andThen fun _ =>
        (seals_require .afterUniform).andThen fun _ => seals_value

theorem scopedUniform_seals (h : expr.Seals) (scope : Scope) : (scopedUniform scope expr).Seals :=
  (uniform_seals h (some scope)).onKeyword .uniform seals_fail

theorem member_confined : member.Confined 0 := by
  apply specifier_confined.andThen
  intro s
  exact (confined_require .afterMember rfl).map fun _ => Member.field s

theorem member_seals : member.Seals :=
  specifier_seals.andThen fun _ => (seals_require .afterMember).andThen fun _ => seals_value

/-- The members of a struct end at a brace that is not theirs. -/
theorem members_seals (n : Name) : (members n).SealsInside := by
  intro ts
  unfold members
  split
  · exact seals_failed.inside
  · exact sealsInside_manyUntil rfl
      (member_confined.recovering resumes_statement confines_statement Member.error)
      (member_seals.inside.recovering member_confined resumes_statement confines_statement
        Member.error) ts

theorem struct_seals : struct.Seals :=
  name_seals.andThen fun n => (seals_require .openStruct).andThen fun _ =>
    (members_seals n).closed rfl fun _ => (seals_require .afterStruct).andThen fun _ => seals_value

theorem parameter_seals : parameter.Seals :=
  (seals_qualifier .paramQualifier).andThen fun _ => specifier_seals.andThen fun _ => seals_value

theorem parameters_seals : parameters.Seals := by
  apply Seals.onPunct
  · exact seals_value
  · exact parameter_seals.separated.andThen fun _ =>
      (seals_require .closeParameters).andThen fun _ => seals_value

theorem function_seals (hc : stmt.Confined 0) (h : stmt.Seals) : (function stmt).Seals :=
  typeRef_seals.andThen fun _ => name_seals.andThen fun _ =>
    (seals_require .afterFunctionName).andThen fun _ => parameters_seals.andThen fun _ =>
      (block_seals hc h).andThen fun _ => seals_value

theorem includes_seals : includes.Seals := by
  intro ts
  unfold includes
  split
  · split
    · unfold includePath
      split
      · exact seals_done sealed_nil
      · exact seals_failed
    · exact seals_failed
  · exact seals_failed

theorem keywordDecl_seals (h : expr.Seals) (k : Keyword) (q : Parser Decl)
    (hq : keywordDecl expr k = some q) : q.Seals := by
  unfold keywordDecl at hq
  split at hq <;> cases hq
  · exact (term_seals _ _ _ _ _).andThen fun _ =>
      (seals_require .afterShaderType).andThen fun _ => seals_value
  · exact renderModeTerms_seals.andThen fun _ =>
      (seals_require .afterRenderModes).andThen fun _ => seals_value
  · exact (constant_seals h).andThen fun _ => seals_value
  · exact varying_seals
  · exact groupUniforms_seals
  · exact uniform_seals h none
  · exact scopedUniform_seals h .wide
  · exact scopedUniform_seals h .perInstance
  · exact struct_seals

theorem declarationOf_seals (he : expr.Seals) (hc : stmt.Confined 0) (hs : stmt.Seals) :
    (declarationOf expr stmt).Seals := by
  intro ts
  unfold declarationOf
  split
  · exact includes_seals _
  · split
    · next q hq =>
      obtain ⟨k, -, hk⟩ := Option.bind_eq_some_iff.mp hq
      exact keywordDecl_seals he k q hk _
    · exact function_seals hc hs _
  · exact seals_failed

theorem declaration_seals (levels : Nat) : (declaration levels).Seals :=
  declarationOf_seals (ranked_seals levels).1 (statement_confined levels) (statement_seals levels)

/-- If a declaration is not an error as a whole, all its nodes are balanced. -/
theorem declaration_balanced (levels : Nat) :
    (declaration levels).Yields fun d _ => ∀ m ∈ d.node.subnodes, Balanced m.lexemes := by
  intro ts d rest found hd
  have hreads : (declaration levels).ReadsNode Decl.node :=
    declarationOf_reads (expression_reads levels) (statement_reads levels)
  obtain ⟨items, hspells, haccount⟩ := (hreads ts).done d rest found hd
  apply d.braced_node.subnodes rest.length
  intro site hsite
  rw [hspells.sites, ← haccount.findings] at hsite
  obtain ⟨f, hf, rfl⟩ := List.mem_map.mp hsite
  exact declaration_seals levels ts d rest found hd f hf

theorem declarations_balanced (levels : Nat) :
    (declarations levels).Yields fun ds _ =>
      ∀ d ∈ ds, (∃ s, d = .error s) ∨ ∀ m ∈ d.node.subnodes, Balanced m.lexemes := by
  have hrec : (recoveredDecl levels).Yields fun d _ =>
      (∃ s, d = .error s) ∨ ∀ m ∈ d.node.subnodes, Balanced m.lexemes :=
    ((declaration_balanced levels).mono fun _ _ h => .inr h).recovering fun s => .inl ⟨s, rfl⟩
  exact hrec.manyUntil _

end Declarations

end Grammar

/-- Whatever the text and the limit, the tokens in the span of a node have their braces in pairs,
unless the node is an error that stands for a whole declaration. -/
theorem nodes_balanced {levels : Nat} {text : Text} {d : Document}
    (h : Document.parse levels text = .ok d) :
    ∀ v ∈ Tree.walk (fun _ => true) d.trees, ¬(v.parent? = none ∧ v.tree.kind = .error) →
      Balanced (lexemes (tokensIn (written text) v.tree.span)) := by
  intro v hv hnot
  obtain ⟨decl, hdecl, start, run, hs, hrun, hvisit⟩ := Document.walk_root h v hv
  have hdecls := Grammar.declarations_balanced levels _ _ _ _ (Document.parse_eq_ok_iff.mp h).2
  rcases hdecls decl hdecl with ⟨s, rfl⟩ | hbalanced
  · rw [List.mem_singleton.mp hvisit] at hnot
    exact absurd ⟨rfl, rfl⟩ hnot
  · obtain ⟨m, hm, first, part, hsm, hpart, ht⟩ :=
      Node.visits_placed decl.node start none run hs hrun v hvisit
    rw [ht, Node.tokensIn_place hsm hpart, hpart.lexemes_run]
    exact hbalanced m hm

/-- A member, a statement and a clause that fail at an open brace, and a brace behind the function
that closes nothing. -/
theorem nodes_balanced_recovered :
    ∃ d, Document.parse 3 (Text.ofString
        "struct S { int { } }; void f() { if (a { b; } switch (x) { case { } } } \x7d") = .ok d ∧
      (((Tree.walk (fun _ => true) d.trees).filter fun v => v.tree.kind == .error).map
        fun v => v.parent?.isSome) = [true, true, true, false] ∧
      ∀ v ∈ Tree.walk (fun _ => true) d.trees, ¬(v.parent? = none ∧ v.tree.kind = .error) →
        Balanced (lexemes (tokensIn (written (Text.ofString
            "struct S { int { } }; void f() { if (a { b; } switch (x) { case { } } } \x7d"))
          v.tree.span)) := by
  obtain ⟨d, hd, herrors⟩ := Document.exists_parse 3 (Text.ofString
      "struct S { int { } }; void f() { if (a { b; } switch (x) { case { } } } \x7d")
    (fun d => (((Tree.walk (fun _ => true) d.trees).filter fun v => v.tree.kind == .error).map
      fun v => v.parent?.isSome) == [true, true, true, false]) (by decide +kernel)
  exact ⟨d, hd, eq_of_beq herrors, nodes_balanced hd⟩

end ShaderSyntax
