import Mathlib.Data.Nat.Find
import ShaderSyntax.Proofs.Deepening
import ShaderSyntax.Proofs.Placing
import ShaderSyntax.Proofs.Reading.Declaration

/-!
# The limit on nesting

Every production deepens with its parts. An expression that may nest `levels` deep meets the limit
on at least `levels` lexemes, and an operand on one more: each level is entered at a lexeme of its
own, but for the one that an expression takes at the start of a statement. So a text has a
threshold, no higher than the number of its tokens: below it every parse meets the limit, and from
it on all parses are the same.
-/
namespace ShaderSyntax

open ShaderSyntax.Parser

namespace Grammar

variable {need : Nat}

theorem name_deepens : Deepens need name name := by
  intro ts
  unfold name
  split
  · dsimp only
    split
    · exact ⟨rfl, by simp⟩
    · exact ⟨rfl, by simp⟩
  · exact ⟨rfl, Nat.le_refl _⟩

theorem baseType_deepens : Deepens need baseType baseType := by
  intro ts
  unfold baseType
  split
  · dsimp only
    split
    · exact ⟨rfl, by simp⟩
    · exact ⟨rfl, by simp⟩
    · exact ⟨rfl, by simp⟩
  · exact ⟨rfl, Nat.le_refl _⟩

theorem typeRef_deepens : Deepens need typeRef typeRef :=
  baseType_deepens.andThen fun _ ts => ⟨rfl, (account_sizeSuffixes ts).suffix.length_le⟩

theorem arraySize_deepens : Deepens need arraySize arraySize := by
  intro ts
  unfold arraySize
  split
  · next n rest =>
    exact ((deepens_require _).andThen (fun _ => deepens_value) rest).cons _
  · exact ⟨rfl, Nat.le_refl _⟩

theorem arraySizesWithin_deepens (rounds : Nat) :
    Deepens need (arraySizesWithin rounds) (arraySizesWithin rounds) := by
  induction rounds generalizing need with
  | zero => exact deepens_value
  | succ rounds ih =>
    apply Deepens.onPunct
    · exact arraySize_deepens.andThen fun _ => ih.andThen fun _ => deepens_value
    · exact deepens_value

theorem specifier_deepens : Deepens need specifier specifier :=
  typeRef_deepens.andThen fun _ => name_deepens.andThen fun _ =>
    (Deepens.inRounds arraySizesWithin_deepens).andThen fun _ => deepens_value

theorem term_deepens (wanted : Wanted) (cls : WordClass) (good bad : Kind)
    (problem : Text → Problem) :
    Deepens need (term wanted cls good bad problem) (term wanted cls good bad problem) := by
  intro ts
  unfold term
  split
  · split
    · exact ⟨rfl, by simp⟩
    · exact ⟨rfl, by simp⟩
  · exact ⟨rfl, Nat.le_refl _⟩

/-- What a word starts is related if what every keyword starts is. -/
theorem keyword_rel {α : Type} {r : Parser α → Parser α → Prop}
    {first second : Keyword → Option (Parser α)}
    (h : ∀ k, Option.Rel r (first k) (second k)) (w : Text) :
    Option.Rel r ((Keyword.ofText? w).bind first) ((Keyword.ofText? w).bind second) := by
  cases Keyword.ofText? w with
  | none => exact .none
  | some k => exact h k

section Expressions

variable {expr expr' operand operand' : Parser Expr}

theorem argument_deepens (h : Deepens need expr expr') :
    Deepens need (argument expr) (argument expr') := by
  apply Deepens.andThen (deepens_qualifier .paramQualifier)
  intro q
  apply Deepens.andThen h
  intro e
  cases q with
  | none => exact deepens_value
  | some w => exact deepens_value

theorem arguments_deepens (h : Deepens need expr expr') :
    Deepens need (arguments expr) (arguments expr') := by
  apply Deepens.onPunct
  · exact deepens_value
  · exact (argument_deepens h).separated.andThen fun _ =>
      (deepens_require .closeArguments).andThen fun _ => deepens_value

theorem parenthesized_deepens (h : Deepens (need - 1) expr expr') :
    Deepens need (parenthesized expr) (parenthesized expr') :=
  .afterRequire .beforeExpression
    (h.andThen fun _ => (deepens_require .afterExpression).andThen fun _ => deepens_value)

theorem elements_deepens (h : Deepens need expr expr') :
    Deepens need (elements expr) (elements expr') :=
  h.separated.andThen fun _ =>
    (deepens_require .closeArrayLiteral).andThen fun _ => deepens_value

theorem wordExpr_deepens (w : Text) : Deepens need (wordExpr w) (wordExpr w) := by
  intro ts
  unfold wordExpr
  split
  · exact ⟨rfl, by simp⟩
  · split
    · exact ⟨rfl, by simp⟩
    · exact name_deepens.andThen (fun _ => deepens_value) ts

theorem strayExpr_deepens (l : Lexeme) : Deepens need (strayExpr l) (strayExpr l) :=
  fun ts => ⟨rfl, by simp⟩

theorem primary_deepens (h : Deepens (need - 1) expr expr') :
    Deepens need (primary expr) (primary expr') := by
  intro ts
  unfold primary
  split
  · exact ⟨rfl, Nat.le_refl _⟩
  · exact ⟨rfl, by simp⟩
  · exact ⟨rfl, by simp⟩
  · exact wordExpr_deepens _ _
  · exact (parenthesized_deepens h).andThen (fun _ => deepens_value) _
  · next rest => exact ((elements_deepens h).andThen (fun _ => deepens_value) rest).cons _
  · split
    · exact ⟨rfl, Nat.le_refl _⟩
    · exact strayExpr_deepens _ _
  · exact strayExpr_deepens _ _

theorem suffix_deepens (h : Deepens need expr expr') (e : Expr) (l : Lexeme) :
    Option.Rel (Deepens need) (suffix expr e l) (suffix expr' e l) := by
  unfold suffix
  split
  · exact .some ((arguments_deepens h).andThen fun _ => deepens_value)
  · exact .some (h.andThen fun _ =>
      (deepens_require .afterIndex).andThen fun _ => deepens_value)
  · exact .some (name_deepens.andThen fun _ => deepens_value)
  · exact .none

theorem suffixed_deepens (h : Deepens (need - 1) expr expr') :
    Deepens need (suffixed expr) (suffixed expr') :=
  (primary_deepens h).andThen fun e => .grow (suffix_deepens h) e

theorem operation_deepens (h : Deepens need operand operand') (e : Expr) (l : Lexeme) :
    Option.Rel (Deepens need) (operation operand e l) (operation operand' e l) := by
  unfold operation
  split
  · next p =>
    cases BinaryOp.ofPunct? p with
    | none => exact .none
    | some op => exact .some (h.andThen fun _ => deepens_value)
  · exact .none

theorem chain_deepens (h : Deepens need operand operand') :
    Deepens need (chain operand) (chain operand') :=
  h.andThen fun e => .grow (operation_deepens (h.mono (Nat.sub_le need 1))) e

theorem conditional_deepens (ho : Deepens need operand operand')
    (h : Deepens (need - 1) expr expr') :
    Deepens need (conditional operand expr) (conditional operand' expr') := by
  apply Deepens.andThen (chain_deepens ho)
  intro c
  apply Deepens.onPunct
  · exact h.andThen fun _ => (deepens_require .conditionalBranch).andThen fun _ =>
      h.andThen fun _ => deepens_value
  · exact deepens_value

theorem signed_deepens (h : Deepens (need - 1) operand operand') (op : UnaryOp) (l : Lexeme)
    (rest : List Lexeme) :
    (signed operand op (l :: rest)).Repeated need (l :: rest) (signed operand' op (l :: rest)) :=
  ((h.andThen (fun _ => deepens_value) rest).after []).cons l

theorem unsignedOr_deepens {sign sign' : UnaryOp → Parser Expr}
    (hs : ∀ op l rest, (sign op (l :: rest)).Repeated need (l :: rest) (sign' op (l :: rest)))
    (h : Deepens (need - 1) expr expr') :
    Deepens need (unsignedOr sign expr) (unsignedOr sign' expr') := by
  intro ts
  unfold unsignedOr
  split
  · split
    · exact hs _ _ _
    · exact suffixed_deepens h _
  · exact suffixed_deepens h _

/-- One more level changes no expression and no operand that did not meet the limit. -/
theorem ranked_deepens (levels : Nat) :
    Deepens levels (expression levels) (expression (levels + 1)) ∧
      Deepens (levels + 1) (Grammar.operand levels) (Grammar.operand (levels + 1)) := by
  induction levels with
  | zero =>
    refine ⟨deepens_tooDeep, ?_⟩
    apply unsignedOr_deepens
    · intro op l rest
      exact (Nat.succ_le_succ (Nat.zero_le rest.length) : 1 ≤ (l :: rest).length)
    · exact deepens_tooDeep
  | succ levels ih =>
    obtain ⟨he, ho⟩ := ih
    have hexpr : Deepens (levels + 1) (expression (levels + 1)) (expression (levels + 1 + 1)) :=
      conditional_deepens ho he
    exact ⟨hexpr, unsignedOr_deepens (signed_deepens ho) hexpr⟩

theorem expression_deepens (levels : Nat) :
    Deepens levels (expression levels) (expression (levels + 1)) :=
  (ranked_deepens levels).1

end Expressions

section Statements

variable {expr expr' : Parser Expr} {stmt stmt' : Parser Stmt}

theorem initializer_deepens (h : Deepens need expr expr') :
    Deepens need (initializer expr) (initializer expr') := by
  apply Deepens.onPunct
  · exact (h.mono (Nat.sub_le need 1)).andThen fun _ => deepens_value
  · exact deepens_value

theorem variableThrough_deepens (h : Deepens need expr expr') (place : Place) :
    Deepens need (variableThrough place expr) (variableThrough place expr') :=
  specifier_deepens.andThen fun _ => (initializer_deepens h).andThen fun _ =>
    (deepens_require place).andThen fun _ => deepens_value

theorem constant_deepens (h : Deepens need expr expr') :
    Deepens need (constant expr) (constant expr') :=
  (deepens_qualifier .precision).andThen fun _ =>
    (variableThrough_deepens h .afterConstant).andThen fun _ => deepens_value

theorem adjusted_deepens (h : Deepens need expr expr') (op : AdjustOp) :
    Deepens need (adjusted expr op) (adjusted expr' op) := by
  apply Deepens.andThen (suffixed_deepens (h.mono (Nat.sub_le need 1)))
  intro t
  split
  · exact deepens_value
  · exact deepens_fail _

theorem actionOn_deepens (h : Deepens need expr expr') (t : Expr) :
    Deepens need (actionOn expr t) (actionOn expr' t) := by
  intro ts
  unfold actionOn
  split
  · next p rest =>
    split
    · next op _ =>
      split
      · have hv : ∀ v, Deepens need (value (Action.assign t op v)) (value (Action.assign t op v)) :=
          fun _ => deepens_value
        exact ((h.andThen hv rest).mono (Nat.sub_le need 1)).cons _
      · exact ⟨rfl, Nat.le_refl _⟩
    · split
      · exact ⟨rfl, by simp⟩
      · exact ⟨rfl, Nat.le_refl _⟩
    · exact ⟨rfl, Nat.le_refl _⟩
  · exact ⟨rfl, Nat.le_refl _⟩

theorem plainAction_deepens (h : Deepens need expr expr') :
    Deepens need (plainAction expr) (plainAction expr') :=
  h.andThen (actionOn_deepens h)

theorem action_deepens (h : Deepens need expr expr') :
    Deepens need (action expr) (action expr') := by
  intro ts
  unfold action
  split
  · next p rest =>
    split
    · next op _ =>
      exact ((adjusted_deepens h op rest).mono (Nat.sub_le need 1)).cons _
    · exact plainAction_deepens h _
  · exact plainAction_deepens h _

theorem perform_deepens (h : Deepens need expr expr') :
    Deepens need (perform expr) (perform expr') :=
  (action_deepens h).andThen fun _ =>
    (deepens_require .afterStatement).andThen fun _ => deepens_value

theorem recoveredStmt_deepens (h : Deepens need stmt stmt') :
    Deepens need (recoveredStmt stmt) (recoveredStmt stmt') :=
  Deepens.recovering Recovery.resumes_statement Stmt.error h

theorem block_deepens (h : Deepens (need - 1) stmt stmt') :
    Deepens need (block stmt) (block stmt') :=
  .afterRequire .openBlock (((recoveredStmt_deepens h).manyUntil _).andThen fun _ =>
    (deepens_require .closeBlock).andThen fun _ => deepens_value)

theorem branching_deepens (he : Deepens need expr expr') (hs : Deepens need stmt stmt') :
    Deepens need (branching expr stmt) (branching expr' stmt') := by
  apply Deepens.andThen (parenthesized_deepens (he.mono (Nat.sub_le need 1)))
  intro c
  apply Deepens.andThen hs
  intro t
  apply Deepens.onKeyword
  · exact (hs.mono (Nat.sub_le need 1)).andThen fun _ => deepens_value
  · exact deepens_value

theorem whileLoop_deepens (he : Deepens need expr expr') (hs : Deepens need stmt stmt') :
    Deepens need (whileLoop expr stmt) (whileLoop expr' stmt') :=
  (parenthesized_deepens (he.mono (Nat.sub_le need 1))).andThen fun _ =>
    hs.andThen fun _ => deepens_value

theorem forLoop_deepens (he : Deepens need expr expr') (hs : Deepens need stmt stmt') :
    Deepens need (forLoop expr stmt) (forLoop expr' stmt') := by
  apply Deepens.andThen (deepens_require .afterFor)
  intro _
  apply Deepens.andThen (variableThrough_deepens he .afterVariable)
  intro v
  apply Deepens.andThen he
  intro c
  apply Deepens.andThen (deepens_require .afterLoopCondition)
  intro _
  apply Deepens.andThen (action_deepens he)
  intro u
  apply Deepens.andThen (deepens_require .afterLoopUpdate)
  intro _
  exact hs.andThen fun _ => deepens_value

theorem clauseBody_deepens (h : Deepens need stmt stmt') :
    Deepens need (clauseBody stmt) (clauseBody stmt') :=
  (deepens_require .afterCaseLabel).andThen fun _ => (recoveredStmt_deepens h).manyUntil _

theorem clause_deepens (he : Deepens need expr expr') (hs : Deepens need stmt stmt') :
    Deepens need (clause expr stmt) (clause expr' stmt') := by
  apply Deepens.onKeyword
  · apply Deepens.mono (Nat.sub_le need 1)
    exact he.andThen fun _ => (clauseBody_deepens hs).andThen fun _ => deepens_value
  · apply Deepens.onKeyword
    · apply Deepens.mono (Nat.sub_le need 1)
      exact (clauseBody_deepens hs).andThen fun _ => deepens_value
    · exact deepens_fail _

theorem switchOn_deepens (he : Deepens need expr expr') (hs : Deepens need stmt stmt') :
    Deepens need (switchOn expr stmt) (switchOn expr' stmt') := by
  have hc := Deepens.recovering Recovery.resumes_clause Clause.error (clause_deepens he hs)
  apply Deepens.andThen (deepens_require .afterSwitch)
  intro _
  apply Deepens.andThen he
  intro e
  apply Deepens.andThen (deepens_require .afterSwitchValue)
  intro _
  apply Deepens.andThen (deepens_require .openSwitch)
  intro _
  apply Deepens.andThen (hc.manyUntil _)
  intro cs
  exact (deepens_require .closeSwitch).andThen fun _ => deepens_value

theorem returnValue_deepens (h : Deepens need expr expr') :
    Deepens need (returnValue expr) (returnValue expr') := by
  apply Deepens.onPunct
  · exact deepens_value
  · exact h.andThen fun _ =>
      (deepens_require .afterReturn).andThen fun _ => deepens_value

theorem plainStmt_deepens (h : Deepens need expr expr') :
    Deepens need (plainStmt expr) (plainStmt expr') := by
  intro ts
  unfold plainStmt
  split
  · exact (variableThrough_deepens h .afterVariable).andThen (fun _ => deepens_value) ts
  · exact perform_deepens h ts

theorem keywordStmt_deepens (he : Deepens need expr expr') (hs : Deepens need stmt stmt')
    (k : Keyword) :
    Option.Rel (Deepens need) (keywordStmt expr stmt k) (keywordStmt expr' stmt' k) := by
  unfold keywordStmt
  split
  · exact .some (branching_deepens he hs)
  · exact .some (whileLoop_deepens he hs)
  · exact .some (forLoop_deepens he hs)
  · exact .some (switchOn_deepens he hs)
  · exact .some (returnValue_deepens he)
  · exact .some ((deepens_require .afterBreak).andThen fun _ => deepens_value)
  · exact .some ((deepens_require .afterContinue).andThen fun _ => deepens_value)
  · exact .some ((constant_deepens he).andThen fun _ => deepens_value)
  · exact .none

/-- The statements inside a statement start at least one lexeme after it, its expressions may start
with it. -/
theorem statementOf_deepens (he : Deepens need expr expr') (hs : Deepens (need - 1) stmt stmt') :
    Deepens need (statementOf expr stmt) (statementOf expr' stmt') := by
  intro ts
  unfold statementOf
  split
  · exact (block_deepens hs).andThen (fun _ => deepens_value) _
  · next w rest =>
    have hk := keyword_rel (keywordStmt_deepens (he.mono (Nat.sub_le need 1)) hs) w
    generalize (Keyword.ofText? w).bind (keywordStmt expr stmt) = q,
      (Keyword.ofText? w).bind (keywordStmt expr' stmt') = q' at hk
    cases hk with
    | none => exact plainStmt_deepens he _
    | some h => exact (h rest).cons _
  · exact plainStmt_deepens he ts

/-- One more level changes no statement that did not meet the limit. -/
theorem statement_deepens (levels : Nat) :
    Deepens (levels - 1) (statement levels) (statement (levels + 1)) := by
  induction levels with
  | zero => exact deepens_tooDeep
  | succ levels ih => exact statementOf_deepens (expression_deepens levels) ih

end Statements

section Declarations

variable {expr expr' : Parser Expr} {stmt stmt' : Parser Stmt}

theorem shaderType_deepens : Deepens need shaderType shaderType :=
  (term_deepens _ _ _ _ _).andThen fun _ =>
    (deepens_require .afterShaderType).andThen fun _ => deepens_value

theorem renderModeTerms_deepens : Deepens need renderModeTerms renderModeTerms := by
  intro ts
  unfold renderModeTerms
  split
  · exact (term_deepens _ _ _ _ _).separated _
  · exact ⟨rfl, Nat.le_refl _⟩

theorem renderMode_deepens : Deepens need renderMode renderMode :=
  renderModeTerms_deepens.andThen fun _ =>
    (deepens_require .afterRenderModes).andThen fun _ => deepens_value

theorem constantDecl_deepens (h : Deepens need expr expr') :
    Deepens need (constantDecl expr) (constantDecl expr') :=
  (constant_deepens h).andThen fun _ => deepens_value

theorem varying_deepens : Deepens need varying varying :=
  (deepens_qualifier .interpolation).andThen fun _ =>
    (deepens_qualifier .precision).andThen fun _ => specifier_deepens.andThen fun _ =>
      (deepens_require .afterVarying).andThen fun _ => deepens_value

theorem name?_deepens : Deepens need name? name? := by
  intro ts
  unfold name?
  split
  · exact name_deepens.andThen (fun _ => deepens_value) _
  · exact ⟨rfl, Nat.le_refl _⟩

theorem groupUniforms_deepens : Deepens need groupUniforms groupUniforms := by
  apply Deepens.andThen name?_deepens
  intro g
  apply Deepens.andThen
  · apply Deepens.onPunct .dot
    · exact name_deepens.andThen fun _ => deepens_value
    · exact deepens_value
  · intro s
    exact (deepens_require .afterGroupUniforms).andThen fun _ => deepens_value

theorem hintNumber_deepens : Deepens need hintNumber hintNumber := by
  intro ts
  unfold hintNumber
  split
  · exact ⟨rfl, by simp⟩
  · exact ⟨rfl, by simp⟩
  · exact ⟨rfl, Nat.le_refl _⟩

theorem hintParam_deepens : Deepens need hintParam hintParam := by
  apply Deepens.onPunct
  · exact hintNumber_deepens.andThen fun _ => deepens_value
  · exact hintNumber_deepens.andThen fun _ => deepens_value

theorem hintParams_deepens : Deepens need hintParams hintParams := by
  apply Deepens.onPunct
  · exact deepens_value
  · exact hintParam_deepens.separated.andThen fun _ =>
      (deepens_require .closeHintParameters).andThen fun _ => deepens_value

theorem hint_deepens : Deepens need hint hint := by
  apply Deepens.andThen (term_deepens _ _ _ _ _)
  intro n
  apply Deepens.onPunct
  · exact hintParams_deepens.andThen fun _ => deepens_value
  · exact deepens_value

theorem hints_deepens : Deepens need hints hints := by
  apply Deepens.onPunct
  · exact hint_deepens.separated
  · exact deepens_value

theorem uniform_deepens (h : Deepens need expr expr') (scope : Option Scope) :
    Deepens need (uniform scope expr) (uniform scope expr') :=
  (deepens_qualifier .precision).andThen fun _ => specifier_deepens.andThen fun _ =>
    hints_deepens.andThen fun _ => (initializer_deepens h).andThen fun _ =>
      (deepens_require .afterUniform).andThen fun _ => deepens_value

theorem scopedUniform_deepens (h : Deepens need expr expr') (scope : Scope) :
    Deepens need (scopedUniform scope expr) (scopedUniform scope expr') := by
  apply Deepens.onKeyword
  · exact uniform_deepens (h.mono (Nat.sub_le need 1)) (some scope)
  · exact deepens_fail _

theorem member_deepens : Deepens need member member :=
  specifier_deepens.andThen fun _ => (deepens_require .afterMember).andThen fun _ => deepens_value

theorem members_deepens (n : Name) : Deepens need (members n) (members n) := by
  intro ts
  unfold members
  split
  · exact ⟨rfl, Nat.le_refl _⟩
  · exact (member_deepens.recovering Recovery.resumes_statement Member.error).manyUntil _ ts

theorem struct_deepens : Deepens need struct struct :=
  name_deepens.andThen fun n => (deepens_require .openStruct).andThen fun _ =>
    (members_deepens n).andThen fun _ => (deepens_require .closeStruct).andThen fun _ =>
      (deepens_require .afterStruct).andThen fun _ => deepens_value

theorem parameter_deepens : Deepens need parameter parameter :=
  (deepens_qualifier .paramQualifier).andThen fun _ =>
    specifier_deepens.andThen fun _ => deepens_value

theorem parameters_deepens : Deepens need parameters parameters := by
  apply Deepens.onPunct
  · exact deepens_value
  · exact parameter_deepens.separated.andThen fun _ =>
      (deepens_require .closeParameters).andThen fun _ => deepens_value

/-- The body of a function starts at least one lexeme after it. -/
theorem function_deepens (h : Deepens (need - 1) stmt stmt') :
    Deepens need (function stmt) (function stmt') :=
  typeRef_deepens.andThen fun _ => name_deepens.andThen fun _ =>
    (deepens_require .afterFunctionName).andThen fun _ => parameters_deepens.andThen fun _ =>
      (block_deepens h).andThen fun _ => deepens_value

theorem includePath_deepens : Deepens need includePath includePath := by
  intro ts
  unfold includePath
  split
  · exact ⟨rfl, by simp⟩
  · exact ⟨rfl, Nat.le_refl _⟩

theorem includes_deepens : Deepens need includes includes := by
  intro ts
  unfold includes
  split
  · split
    · exact (includePath_deepens _).cons _
    · exact ⟨rfl, Nat.le_refl _⟩
  · exact ⟨rfl, Nat.le_refl _⟩

theorem keywordDecl_deepens (h : Deepens need expr expr') (k : Keyword) :
    Option.Rel (Deepens need) (keywordDecl expr k) (keywordDecl expr' k) := by
  unfold keywordDecl
  split
  · exact .some shaderType_deepens
  · exact .some renderMode_deepens
  · exact .some (constantDecl_deepens h)
  · exact .some varying_deepens
  · exact .some groupUniforms_deepens
  · exact .some (uniform_deepens h none)
  · exact .some (scopedUniform_deepens h .wide)
  · exact .some (scopedUniform_deepens h .perInstance)
  · exact .some struct_deepens
  · exact .none

theorem declarationOf_deepens (he : Deepens (need - 1) expr expr')
    (hs : Deepens (need - 1) stmt stmt') :
    Deepens need (declarationOf expr stmt) (declarationOf expr' stmt') := by
  intro ts
  unfold declarationOf
  split
  · exact (includes_deepens _).cons _
  · next w rest =>
    have hk := keyword_rel (keywordDecl_deepens he) w
    generalize (Keyword.ofText? w).bind (keywordDecl expr) = q,
      (Keyword.ofText? w).bind (keywordDecl expr') = q' at hk
    cases hk with
    | none => exact function_deepens hs _
    | some h => exact (h rest).cons _
  · exact ⟨rfl, Nat.le_refl _⟩

/-- One more level changes no file that did not meet the limit. -/
theorem declarations_deepens (levels : Nat) :
    Deepens levels (declarations levels) (declarations (levels + 1)) := by
  apply Deepens.manyUntil
  apply Deepens.recovering Recovery.resumes_declaration
  apply declarationOf_deepens
  · exact (expression_deepens levels).mono (Nat.sub_le levels 1)
  · exact statement_deepens levels

end Declarations

end Grammar

namespace Document

variable {text : Text} {d : Document}

theorem parse_succ {levels : Nat} (h : parse levels text = .ok d) :
    parse (levels + 1) text = .ok d := by
  have hd := Grammar.declarations_deepens levels (Source.ofText text).lexemes
  unfold parse ofSource at h ⊢
  cases ho : Grammar.declarations levels (Source.ofText text).lexemes with
  | done ds rest found =>
    rw [ho] at h hd
    rw [hd.1]
    exact h
  | failed problem rest found =>
    rw [ho] at h hd
    rw [hd.1]
    exact h
  | tooDeep rest found =>
    rw [ho] at h
    cases h

/-- What is parsed within a limit is parsed to the same document within every higher limit. -/
theorem parse_of_le {levels more : Nat} (hle : levels ≤ more) (h : parse levels text = .ok d) :
    parse more text = .ok d := by
  induction hle with
  | refl => exact h
  | step _ ih => exact parse_succ ih

/-- A text of fewer lexemes than levels does not meet the limit. -/
theorem exists_parse_of_length_lt {levels : Nat}
    (h : (Source.ofText text).lexemes.length < levels) : ∃ d, parse levels text = .ok d := by
  have hd := Grammar.declarations_deepens levels (Source.ofText text).lexemes
  unfold parse ofSource
  cases ho : Grammar.declarations levels (Source.ofText text).lexemes with
  | done ds rest found => exact ⟨_, rfl⟩
  | failed problem rest found => exact ⟨_, rfl⟩
  | tooDeep rest found =>
    rw [ho] at hd
    have hneed : levels ≤ (Source.ofText text).lexemes.length := hd
    omega

end Document

theorem levelsFor_of_pos {depth : Int} (h : 0 < depth) : (levelsFor depth : Int) = depth := by
  unfold levelsFor
  rw [if_neg (by omega)]
  omega

/-- The document is what parsing gives from a limit of `threshold` on, and below there is none. -/
structure ParsedFrom (text : Text) (threshold : Nat) (d : Document) : Prop where
  below : ∀ depth : Int, 0 < depth → depth < threshold →
    ∃ e, Document.parse (levelsFor depth) text = .error e
  above : ∀ depth : Int, 0 < depth → threshold ≤ depth →
    Document.parse (levelsFor depth) text = .ok d

/-- Every text has one document and a threshold that is at most the number of its tokens, the end
token among them. A limit below the threshold is met, and any other limit leaves no trace. -/
theorem parse_threshold (text : Text) :
    ∃ threshold d, threshold ≤ (tokenize text).length ∧ ParsedFrom text threshold d := by
  have htokens : (tokenize text).length = (Source.ofText text).lexemes.length + 1 := by
    obtain ⟨last, ht, -⟩ := tokenize_scan text
    rw [ht, List.length_append, List.length_singleton, (Source.run_lexemes text).length_eq]
  have hsome : ∃ levels d, Document.parse levels text = .ok d :=
    ⟨(tokenize text).length, Document.exists_parse_of_length_lt (by omega)⟩
  classical
  obtain ⟨d, hd⟩ := Nat.find_spec hsome
  refine ⟨Nat.find hsome, d, ?_, ?_, ?_⟩
  · exact Nat.find_min' hsome (Document.exists_parse_of_length_lt (by omega))
  · intro depth hpos hlt
    have hlevels := levelsFor_of_pos hpos
    have hnone := Nat.find_min hsome (m := levelsFor depth) (by omega)
    cases hp : Document.parse (levelsFor depth) text with
    | error e => exact ⟨e, rfl⟩
    | ok d' => exact absurd ⟨d', hp⟩ hnone
  · intro depth hpos hle
    have hlevels := levelsFor_of_pos hpos
    exact Document.parse_of_le (by omega) hd

end ShaderSyntax
