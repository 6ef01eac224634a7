import ShaderSyntax.Proofs.Coverage
import ShaderSyntax.Proofs.Noting

/-!
# Diagnostics and the nodes they belong to

The diagnostics of a document and its invalid trees are two lists of the same things. A word outside
its vocabulary is reported where its leaf stands. An error node starts no later than the problem
that made it, and the next invalid tree starts no earlier than that problem. So the diagnostics come
in source order, however the failures were nested.
-/
namespace ShaderSyntax

open ShaderSyntax.Parser

namespace Grammar

theorem name_notes : name.Notes := by
  intro ts
  unfold name
  split
  · dsimp only
    split
    · exact .of_done (by simp)
    · exact .of_finding (.word _ .invalidIdent _ _ rfl rfl (by decide)) (by simp)
  · exact .of_failed rfl (Nat.le_refl _)

theorem baseType_notes : baseType.Notes := by
  intro ts
  unfold baseType
  split
  · dsimp only
    split
    · exact .of_done (by simp)
    · exact .of_done (by simp)
    · exact .of_finding (.word _ .invalidType _ _ rfl rfl (by decide)) (by simp)
  · exact .of_failed rfl (Nat.le_refl _)

theorem typeRef_notes : typeRef.Notes :=
  baseType_notes.andThen fun _ ts => .of_done (account_sizeSuffixes ts).suffix.length_le

theorem arraySize_notes : arraySize.Notes := by
  intro ts
  unfold arraySize
  split
  · exact ((notes_require _).andThen (fun _ => notes_value) _).cons _
  · exact .of_failed rfl (Nat.le_refl _)

theorem arraySizesWithin_notes (rounds : Nat) : (arraySizesWithin rounds).Notes := by
  induction rounds with
  | zero => exact notes_value
  | succ rounds ih =>
    apply Notes.onPunct
    · exact arraySize_notes.andThen fun _ => ih.andThen fun _ => notes_value
    · exact notes_value

theorem specifier_notes : specifier.Notes :=
  typeRef_notes.andThen fun _ => name_notes.andThen fun _ =>
    (Notes.inRounds arraySizesWithin_notes).andThen fun _ => notes_value

theorem term_notes (wanted : Wanted) (cls : WordClass) (good : Kind) {bad : Kind}
    {problem : Text → Problem} (hk : bad.isInvalid = true) (hne : bad ≠ .error)
    (hp : ∀ w, (problem w).kind = .invalidVocabulary) :
    (term wanted cls good bad problem).Notes := by
  intro ts
  unfold term
  split
  · split
    · exact .of_done (by simp)
    · exact .of_finding (.word _ _ _ _ (hp _) hk hne) (by simp)
  · exact .of_failed rfl (Nat.le_refl _)

section Expressions

variable {expr operand : Parser Expr}

theorem argument_notes (h : expr.Notes) : (argument expr).Notes := by
  apply Notes.andThen (notes_qualifier .paramQualifier)
  intro q
  apply Notes.andThen h
  intro e
  cases q with
  | none => exact notes_value
  | some w => exact notes_value

theorem arguments_notes (h : expr.Notes) : (arguments expr).Notes := by
  apply Notes.onPunct
  · exact notes_value
  · exact (argument_notes h).separated.andThen fun _ =>
      (notes_require .closeArguments).andThen fun _ => notes_value

theorem parenthesized_notes (h : expr.Notes) : (parenthesized expr).Notes :=
  (notes_require .beforeExpression).andThen fun _ => h.andThen fun _ =>
    (notes_require .afterExpression).andThen fun _ => notes_value

theorem elements_notes (h : expr.Notes) : (elements expr).Notes :=
  h.separated.andThen fun _ => (notes_require .closeArrayLiteral).andThen fun _ => notes_value

theorem wordExpr_notes (w : Text) : (wordExpr w).Notes := by
  intro ts
  unfold wordExpr
  split
  · exact .of_done (by simp)
  · split
    · exact .of_done (by simp)
    · exact name_notes.andThen (fun _ => notes_value) ts

theorem strayExpr_notes (l : Lexeme) : (strayExpr l).Notes := by
  intro ts
  refine .of_finding (.skipped (.unexpected l) [l] 0 ts.length ts.length rfl ?_ ?_) ?_
  · exact Nat.le_refl _
  · exact Nat.le_add_right _ _
  · simp

theorem primary_notes (h : expr.Notes) : (primary expr).Notes := by
  intro ts
  unfold primary
  split
  · exact .of_failed rfl (Nat.le_refl _)
  · exact .of_done (by simp)
  · exact .of_done (by simp)
  · exact wordExpr_notes _ _
  · exact (parenthesized_notes h).andThen (fun _ => notes_value) _
  · exact ((elements_notes h).andThen (fun _ => notes_value) _).cons _
  · split
    · exact .of_failed rfl (Nat.le_refl _)
    · exact strayExpr_notes _ _
  · exact strayExpr_notes _ _

theorem suffix_notes (h : expr.Notes) (e : Expr) (l : Lexeme) (q : Parser Expr)
    (hq : suffix expr e l = some q) : q.Notes := by
  unfold suffix at hq
  split at hq <;> cases hq
  · exact (arguments_notes h).andThen fun _ => notes_value
  · exact h.andThen fun _ => (notes_require .afterIndex).andThen fun _ => notes_value
  · exact name_notes.andThen fun _ => notes_value

theorem suffixed_notes (h : expr.Notes) : (suffixed expr).Notes :=
  (primary_notes h).andThen (.grow (suffix_notes h))

theorem operation_notes (h : operand.Notes) (e : Expr) (l : Lexeme) (q : Parser Expr)
    (hq : operation operand e l = some q) : q.Notes := by
  unfold operation at hq
  split at hq
  · obtain ⟨op, -, rfl⟩ := Option.map_eq_some_iff.mp hq
    exact h.andThen fun _ => notes_value
  · cases hq

theorem chain_notes (h : operand.Notes) : (chain operand).Notes :=
  h.andThen (.grow (operation_notes h))

theorem conditional_notes (ho : operand.Notes) (h : expr.Notes) :
    (conditional operand expr).Notes := by
  apply Notes.andThen (chain_notes ho)
  intro c
  apply Notes.onPunct
  · exact h.andThen fun _ => (notes_require .conditionalBranch).andThen fun _ =>
      h.andThen fun _ => notes_value
  · exact notes_value

theorem signed_notes (h : operand.Notes) (op : UnaryOp) : (signed operand op).Notes := by
  -- Leaving out the sign computes at once, so the two steps are told apart before a rule is applied.
  rw [signed, bind_eq_andThen]
  exact notes_skip.andThen fun _ => h.andThen fun _ => notes_value

theorem unsignedOr_notes {sign : UnaryOp → Parser Expr} (hs : ∀ op, (sign op).Notes)
    (h : expr.Notes) : (unsignedOr sign expr).Notes := by
  intro ts
  unfold unsignedOr
  split
  · split
    · exact hs _ _
    · exact suffixed_notes h _
  · exact suffixed_notes h _

/-- Whatever levels are left, expressions and operands note findings that fit. -/
theorem ranked_notes (levels : Nat) :
    (expression levels).Notes ∧ (Grammar.operand levels).Notes := by
  induction levels with
  | zero => exact ⟨notes_tooDeep, unsignedOr_notes (fun _ => notes_tooDeep) notes_tooDeep⟩
  | succ levels ih =>
    obtain ⟨he, ho⟩ := ih
    have hexpr : (expression (levels + 1)).Notes := conditional_notes ho he
    exact ⟨hexpr, unsignedOr_notes (signed_notes ho) hexpr⟩

end Expressions

section Statements

variable {expr : Parser Expr} {stmt : Parser Stmt}

theorem initializer_notes (h : expr.Notes) : (initializer expr).Notes := by
  apply Notes.onPunct
  · exact h.andThen fun _ => notes_value
  · exact notes_value

theorem variableThrough_notes (h : expr.Notes) (place : Place) :
    (variableThrough place expr).Notes :=
  specifier_notes.andThen fun _ => (initializer_notes h).andThen fun _ =>
    (notes_require place).andThen fun _ => notes_value

theorem constant_notes (h : expr.Notes) : (constant expr).Notes :=
  (notes_qualifier .precision).andThen fun _ =>
    (variableThrough_notes h .afterConstant).andThen fun _ => notes_value

theorem adjusted_notes (h : expr.Notes) (op : AdjustOp) : (adjusted expr op).Notes := by
  apply Notes.andThen (suffixed_notes h)
  intro t
  split
  · exact notes_value
  · exact notes_fail fun _ => rfl

theorem actionOn_notes (h : expr.Notes) (t : Expr) : (actionOn expr t).Notes := by
  intro ts
  unfold actionOn
  split
  · split
    · split
      · exact (h.andThen (fun _ => notes_value) _).cons _
      · exact .of_failed rfl (Nat.le_refl _)
    · split
      · exact .of_done (by simp)
      · exact .of_failed rfl (Nat.le_refl _)
    · exact .of_done (Nat.le_refl _)
  · exact .of_done (Nat.le_refl _)

theorem plainAction_notes (h : expr.Notes) : (plainAction expr).Notes :=
  h.andThen (actionOn_notes h)

theorem action_notes (h : expr.Notes) : (action expr).Notes := by
  intro ts
  unfold action
  split
  · split
    · exact (adjusted_notes h _ _).cons _
    · exact plainAction_notes h _
  · exact plainAction_notes h _

theorem perform_notes (h : expr.Notes) : (perform expr).Notes :=
  (action_notes h).andThen fun _ => (notes_require .afterStatement).andThen fun _ => notes_value

theorem recoveredStmt_notes (h : stmt.Notes) : (recoveredStmt stmt).Notes :=
  h.recovering Recovery.resumes_statement Stmt.error

theorem block_notes (h : stmt.Notes) : (block stmt).Notes :=
  (notes_require .openBlock).andThen fun _ => ((recoveredStmt_notes h).manyUntil _).andThen fun _ =>
    (notes_require .closeBlock).andThen fun _ => notes_value

theorem branching_notes (he : expr.Notes) (hs : stmt.Notes) : (branching expr stmt).Notes := by
  apply Notes.andThen (parenthesized_notes he)
  intro c
  apply Notes.andThen hs
  intro t
  apply Notes.onKeyword
  · exact hs.andThen fun _ => notes_value
  · exact notes_value

theorem whileLoop_notes (he : expr.Notes) (hs : stmt.Notes) : (whileLoop expr stmt).Notes :=
  (parenthesized_notes he).andThen fun _ => hs.andThen fun _ => notes_value

theorem forLoop_notes (he : expr.Notes) (hs : stmt.Notes) : (forLoop expr stmt).Notes :=
  (notes_require .afterFor).andThen fun _ =>
    (variableThrough_notes he .afterVariable).andThen fun _ => he.andThen fun _ =>
      (notes_require .afterLoopCondition).andThen fun _ => (action_notes he).andThen fun _ =>
        (notes_require .afterLoopUpdate).andThen fun _ => hs.andThen fun _ => notes_value

theorem clauseBody_notes (h : stmt.Notes) : (clauseBody stmt).Notes :=
  (notes_require .afterCaseLabel).andThen fun _ => (recoveredStmt_notes h).manyUntil _

theorem clause_notes (he : expr.Notes) (hs : stmt.Notes) : (clause expr stmt).Notes := by
  apply Notes.onKeyword
  · exact he.andThen fun _ => (clauseBody_notes hs).andThen fun _ => notes_value
  · apply Notes.onKeyword
    · exact (clauseBody_notes hs).andThen fun _ => notes_value
    · exact notes_fail fun _ => rfl

theorem switchOn_notes (he : expr.Notes) (hs : stmt.Notes) : (switchOn expr stmt).Notes := by
  have hc := (clause_notes he hs).recovering Recovery.resumes_clause Clause.error
  exact (notes_require .afterSwitch).andThen fun _ => he.andThen fun _ =>
    (notes_require .afterSwitchValue).andThen fun _ => (notes_require .openSwitch).andThen fun _ =>
      (hc.manyUntil _).andThen fun _ => (notes_require .closeSwitch).andThen fun _ => notes_value

theorem returnValue_notes (h : expr.Notes) : (returnValue expr).Notes := by
  apply Notes.onPunct
  · exact notes_value
  · exact h.andThen fun _ => (notes_require .afterReturn).andThen fun _ => notes_value

theorem plainStmt_notes (h : expr.Notes) : (plainStmt expr).Notes := by
  intro ts
  unfold plainStmt
  split
  · exact (variableThrough_notes h .afterVariable).andThen (fun _ => notes_value) ts
  · exact perform_notes h ts

theorem keywordStmt_notes (he : expr.Notes) (hs : stmt.Notes) (k : Keyword) (q : Parser Stmt)
    (hq : keywordStmt expr stmt k = some q) : q.Notes := by
  unfold keywordStmt at hq
  split at hq <;> cases hq
  · exact branching_notes he hs
  · exact whileLoop_notes he hs
  · exact forLoop_notes he hs
  · exact switchOn_notes he hs
  · exact returnValue_notes he
  · exact (notes_require .afterBreak).andThen fun _ => notes_value
  · exact (notes_require .afterContinue).andThen fun _ => notes_value
  · exact (constant_notes he).andThen fun _ => notes_value

theorem statementOf_notes (he : expr.Notes) (hs : stmt.Notes) : (statementOf expr stmt).Notes := by
  intro ts
  unfold statementOf
  split
  · exact (block_notes hs).andThen (fun _ => notes_value) _
  · split
    · next q hq =>
      obtain ⟨k, -, hk⟩ := Option.bind_eq_some_iff.mp hq
      exact (keywordStmt_notes he hs k q hk _).cons _
    · exact plainStmt_notes he _
  · exact plainStmt_notes he ts

theorem statement_notes (levels : Nat) : Parser.Notes (statement levels) := by
  induction levels with
  | zero => exact notes_tooDeep
  | succ levels ih => exact statementOf_notes (ranked_notes levels).1 ih

end Statements

section Declarations

variable {expr : Parser Expr} {stmt : Parser Stmt}

theorem shaderType_notes : shaderType.Notes :=
  (term_notes _ _ _ rfl (by decide) fun _ => rfl).andThen fun _ =>
    (notes_require .afterShaderType).andThen fun _ => notes_value

theorem renderModeTerms_notes : renderModeTerms.Notes := by
  intro ts
  unfold renderModeTerms
  split
  · exact (term_notes _ _ _ rfl (by decide) fun _ => rfl).separated _
  · exact .of_done (Nat.le_refl _)

theorem renderMode_notes : renderMode.Notes :=
  renderModeTerms_notes.andThen fun _ =>
    (notes_require .afterRenderModes).andThen fun _ => notes_value

theorem constantDecl_notes (h : expr.Notes) : (constantDecl expr).Notes :=
  (constant_notes h).andThen fun _ => notes_value

theorem varying_notes : varying.Notes :=
  (notes_qualifier .interpolation).andThen fun _ => (notes_qualifier .precision).andThen fun _ =>
    specifier_notes.andThen fun _ => (notes_require .afterVarying).andThen fun _ => notes_value

theorem name?_notes : name?.Notes := by
  intro ts
  unfold name?
  split
  · exact name_notes.andThen (fun _ => notes_value) _
  · exact .of_done (Nat.le_refl _)

theorem groupUniforms_notes : groupUniforms.Notes := by
  apply Notes.andThen name?_notes
  intro g
  apply Notes.andThen
  · apply Notes.onPunct .dot
    · exact name_notes.andThen fun _ => notes_value
    · exact notes_value
  · intro s
    exact (notes_require .afterGroupUniforms).andThen fun _ => notes_value

theorem hintNumber_notes : hintNumber.Notes := by
  intro ts
  unfold hintNumber
  split
  · exact .of_done (by simp)
  · exact .of_done (by simp)
  · exact .of_failed rfl (Nat.le_refl _)

theorem hintParam_notes : hintParam.Notes := by
  apply Notes.onPunct
  · exact hintNumber_notes.andThen fun _ => notes_value
  · exact hintNumber_notes.andThen fun _ => notes_value

theorem hintParams_notes : hintParams.Notes := by
  apply Notes.onPunct
  · exact notes_value
  · exact hintParam_notes.separated.andThen fun _ =>
      (notes_require .closeHintParameters).andThen fun _ => notes_value

theorem hint_notes : hint.Notes := by
  apply Notes.andThen (term_notes _ _ _ rfl (by decide) fun _ => rfl)
  intro n
  apply Notes.onPunct
  · exact hintParams_notes.andThen fun _ => notes_value
  · exact notes_value

theorem hints_notes : hints.Notes :=
  hint_notes.separated.onPunct .colon notes_value

theorem uniform_notes (h : expr.Notes) (scope : Option Scope) : (uniform scope expr).Notes :=
  (notes_qualifier .precision).andThen fun _ => specifier_notes.andThen fun _ =>
    hints_notes.andThen fun _ => (initializer_notes h).andThen fun _ =>
      (notes_require .afterUniform).andThen fun _ => notes_value

theorem scopedUniform_notes (h : expr.Notes) (scope : Scope) : (scopedUniform scope expr).Notes :=
  (uniform_notes h (some scope)).onKeyword .uniform (notes_fail fun _ => rfl)

theorem member_notes : member.Notes :=
  specifier_notes.andThen fun _ => (notes_require .afterMember).andThen fun _ => notes_value

theorem members_notes (n : Name) : (members n).Notes := by
  intro ts
  unfold members
  split
  · exact .of_failed rfl (Nat.le_refl _)
  · exact (member_notes.recovering Recovery.resumes_statement Member.error).manyUntil _ ts

theorem struct_notes : struct.Notes :=
  name_notes.andThen fun n => (notes_require .openStruct).andThen fun _ =>
    (members_notes n).andThen fun _ => (notes_require .closeStruct).andThen fun _ =>
      (notes_require .afterStruct).andThen fun _ => notes_value

theorem parameter_notes : parameter.Notes :=
  (notes_qualifier .paramQualifier).andThen fun _ => specifier_notes.andThen fun _ => notes_value

theorem parameters_notes : parameters.Notes := by
  apply Notes.onPunct
  · exact notes_value
  · exact parameter_notes.separated.andThen fun _ =>
      (notes_require .closeParameters).andThen fun _ => notes_value

theorem function_notes (h : stmt.Notes) : (function stmt).Notes :=
  typeRef_notes.andThen fun _ => name_notes.andThen fun _ =>
    (notes_require .afterFunctionName).andThen fun _ => parameters_notes.andThen fun _ =>
      (block_notes h).andThen fun _ => notes_value

theorem includePath_notes : includePath.Notes := by
  intro ts
  unfold includePath
  split
  · exact .of_done (by simp)
  · exact .of_failed rfl (Nat.le_refl _)

theorem includes_notes : includes.Notes := by
  intro ts
  unfold includes
  split
  · split
    · exact (includePath_notes _).cons _
    · exact .of_failed rfl (Nat.le_refl _)
  · exact .of_failed rfl (Nat.le_refl _)

theorem keywordDecl_notes (h : expr.Notes) (k : Keyword) (q : Parser Decl)
    (hq : keywordDecl expr k = some q) : q.Notes := by
  unfold keywordDecl at hq
  split at hq <;> cases hq
  · exact shaderType_notes
  · exact renderMode_notes
  · exact constantDecl_notes h
  · exact varying_notes
  · exact groupUniforms_notes
  · exact uniform_notes h none
  · exact scopedUniform_notes h .wide
  · exact scopedUniform_notes h .perInstance
  · exact struct_notes

theorem declarationOf_notes (he : expr.Notes) (hs : stmt.Notes) :
    (declarationOf expr stmt).Notes := by
  intro ts
  unfold declarationOf
  split
  · exact (includes_notes _).cons _
  · split
    · next q hq =>
      obtain ⟨k, -, hk⟩ := Option.bind_eq_some_iff.mp hq
      exact (keywordDecl_notes he k q hk _).cons _
    · exact function_notes hs _
  · exact .of_failed rfl (Nat.le_refl _)

theorem declarations_notes (levels : Nat) : (declarations levels).Notes := by
  have hdecl : (declaration levels).Notes :=
    declarationOf_notes (ranked_notes levels).1 (statement_notes levels)
  exact (hdecl.recovering Recovery.resumes_declaration Decl.error).manyUntil _

end Declarations

end Grammar

mutual

/-- The sites of a node that `after` lexemes follow are inside it. -/
theorem Node.sites_inside : ∀ (n : Node) (after : Nat), ∀ site ∈ n.sites after,
    after + site.2.size ≤ site.1 ∧ site.1 ≤ after + n.size
  | .leaf k l, after, site, h => by
    by_cases hk : k.isInvalid = true
    · simp only [Node.sites, hk, if_true, List.mem_singleton] at h
      subst h
      exact ⟨Nat.le_refl _, Nat.le_refl _⟩
    · simp [Node.sites, hk] at h
  | .error s, after, site, h => by
    simp only [Node.sites, List.mem_singleton] at h
    subst h
    exact ⟨Nat.le_refl _, Nat.le_refl _⟩
  | .branch _ items, after, site, h => Item.sites_inside items after site h

theorem Item.sites_inside : ∀ (items : List Item) (after : Nat), ∀ site ∈ Item.sites after items,
    after + site.2.size ≤ site.1 ∧ site.1 ≤ after + Item.size items
  | [], _, _, h => absurd h List.not_mem_nil
  | .token _ :: rest, after, site, h => by
    have := Item.sites_inside rest after site h
    simp only [Item.size]
    omega
  | .attribute _ _ :: rest, after, site, h => by
    have := Item.sites_inside rest after site h
    simp only [Item.size]
    omega
  | .child _ n :: rest, after, site, h => by
    simp only [Item.size]
    rcases List.mem_append.mp h with hn | hr
    · have := Node.sites_inside n (after + Item.size rest) site hn
      omega
    · have := Item.sites_inside rest after site hr
      omega

end

mutual

/-- One site ends before the next starts. -/
theorem Node.sites_ordered : ∀ (n : Node) (after : Nat),
    (n.sites after).Pairwise fun a b => b.1 + a.2.size ≤ a.1
  | .leaf k l, after => by
    by_cases hk : k.isInvalid = true <;> simp [Node.sites, hk]
  | .error s, after => by simp [Node.sites]
  | .branch _ items, after => Item.sites_ordered items after

theorem Item.sites_ordered : ∀ (items : List Item) (after : Nat),
    (Item.sites after items).Pairwise fun a b => b.1 + a.2.size ≤ a.1
  | [], _ => .nil
  | .token _ :: rest, after => Item.sites_ordered rest after
  | .attribute _ _ :: rest, after => Item.sites_ordered rest after
  | .child _ n :: rest, after => by
    refine List.pairwise_append.mpr
      ⟨Node.sites_ordered n _, Item.sites_ordered rest after, ?_⟩
    -- The child ends where the other items start, and every site is inside its own part.
    intro a ha b hb
    have := Node.sites_inside n (after + Item.size rest) a ha
    have := Item.sites_inside rest after b hb
    omega

end

namespace Finding.Fits

variable {f : Finding}

theorem left_le (h : f.Fits) : f.left ≤ f.nodeLeft := by
  cases h with
  | word => exact Nat.le_refl _
  | skipped _ _ _ _ _ _ hle _ => exact hle

theorem nodeLeft_le (h : f.Fits) : f.nodeLeft ≤ f.left + f.node.size := by
  cases h with
  | word => exact Nat.le_add_right _ _
  | skipped _ _ _ _ _ _ _ hreach => exact hreach

end Finding.Fits

namespace Document

variable {levels : Nat} {text : Text} {d : Document}

theorem findings_fit (h : parse levels text = .ok d) : ∀ f ∈ d.findings, f.Fits := by
  have hnotes := Grammar.declarations_notes levels (Source.ofText text).lexemes
  unfold parse ofSource at h
  split at h
  · next decls rest found hd =>
    cases h
    rw [hd] at hnotes
    exact hnotes.fits
  · next problem rest found hd =>
    cases h
    rw [hd] at hnotes
    exact hnotes.fits
  · cases h

/-- No later finding has its node before the place where an earlier problem was met. -/
theorem findings_ordered (h : parse levels text = .ok d) :
    d.findings.Pairwise fun f g => g.nodeLeft ≤ f.left := by
  obtain ⟨-, ha⟩ := Document.account h .value
  have hsites := Item.sites_ordered (Item.children .value (d.decls.map Decl.node)) 0
  have hfindings := ha.findings
  rw [List.length_nil] at hfindings
  rw [← hfindings, List.pairwise_map] at hsites
  refine hsites.imp_of_mem ?_
  intro f g hf _ hfg
  have := (findings_fit h f hf).nodeLeft_le
  simp only [Finding.site] at hfg
  omega

end Document

/-- Where fewer lexemes are left, the next one starts later. -/
theorem Source.start_tokenLeft_le {text : Text} {m n : Nat} (h : m ≤ n) :
    ((Source.ofText text).tokenLeft n).span.start ≤
      ((Source.ofText text).tokenLeft m).span.start := by
  simp only [Source.tokenLeft, Source.index, Source.size_ofText]
  rcases Nat.eq_or_lt_of_le (by omega : (written text).length - n ≤ (written text).length - m) with
    he | hlt
  · exact Nat.le_of_eq (by rw [he])
  · have := Source.token_before hlt (Nat.sub_le _ _)
    omega

/-- The tree is the one that a diagnostic is about: a word outside its vocabulary, reported where it
stands, or skipped text that the problem was met in or after. -/
inductive Diagnostic.Matches (e : Diagnostic) : Tree → Prop
  | word (k : Kind) (text : Text) (hkind : e.kind = .invalidVocabulary)
      (hk : k.isInvalid = true) (hne : k ≠ .error) : Matches e (.leaf k e.span text)
  | skipped (span : Span Nat) (hkind : e.kind = .structural)
      (hle : span.start ≤ e.span.start) : Matches e (.error span e.message)

theorem Finding.Fits.matches {f : Finding} (h : f.Fits) (text : Text) :
    ((Source.ofText text).diagnose f.problem f.left).Matches
      ((Source.ofText text).place f.nodeLeft f.node) := by
  cases h with
  | word problem k l left hp hk hne => exact .word k l.text hp hk hne
  | skipped problem lexemes reached nodeLeft left hp hle hreach =>
    exact .skipped _ hp (Source.start_tokenLeft_le hle)

/-- The trees are those that the diagnostics are about, one for each, and both are in source
order. -/
structure Parallel (diagnostics : List Diagnostic) (trees : List Tree) : Prop where
  length_eq : diagnostics.length = trees.length
  matched : List.Forall₂ Diagnostic.Matches diagnostics trees
  next : ∀ (i : Nat) e t, diagnostics[i]? = some e → trees[i + 1]? = some t →
    e.span.start ≤ t.span.start
  ordered : diagnostics.Pairwise fun a b => a.span.start ≤ b.span.start

/-- Whatever the text and the limit, the diagnostics of a document and its invalid trees are
parallel. -/
theorem diagnostics_parallel {levels : Nat} {text : Text} {d : Document}
    (h : Document.parse levels text = .ok d) : Parallel d.diagnostics d.invalidTrees := by
  have hfits := Document.findings_fit h
  have hordered := Document.findings_ordered h
  rw [Document.diagnostics, Document.invalidTrees, (Document.account h .value).1]
  simp only [Source.diagnostics, Source.invalidTrees]
  refine ⟨?_, ?_, ?_, ?_⟩
  · rw [List.length_map, List.length_map]
  · rw [List.forall₂_map_left_iff, List.forall₂_map_right_iff, List.forall₂_same]
    exact fun f hf => (hfits f hf).matches text
  · intro i e t he ht
    rw [List.getElem?_map, Option.map_eq_some_iff] at he ht
    obtain ⟨f, hf, rfl⟩ := he
    obtain ⟨g, hg, rfl⟩ := ht
    obtain ⟨hi, rfl⟩ := List.getElem?_eq_some_iff.mp hf
    obtain ⟨hj, rfl⟩ := List.getElem?_eq_some_iff.mp hg
    have hleft := List.pairwise_iff_getElem.mp hordered i (i + 1) hi hj (Nat.lt_succ_self i)
    rw [Source.place, Node.span_place]
    exact Source.start_tokenLeft_le hleft
  · rw [List.pairwise_map]
    refine hordered.imp_of_mem ?_
    intro f g _ hg hfg
    exact Source.start_tokenLeft_le (Nat.le_trans (hfits g hg).left_le hfg)

/-- An unknown word, a statement that fails before its block, a stray character, and a uniform that
fails at the end of the text and takes its own unknown word with it. -/
theorem diagnostics_parallel_nested :
    let text := Text.ofString "shader_type nope;void f()\x7bif(a\x7bb=;\x7dc=@;\x7duniform if d"
    ∃ d, Document.parse 8 text = .ok d ∧
      d.diagnostics.map (fun e => (e.kind, e.span.start)) =
        [(.invalidVocabulary, 12), (.structural, 30), (.structural, 37), (.structural, 52)] ∧
      d.invalidTrees.map (fun t => (t.kind, t.span.start)) =
        [(.invalidShaderType, 12), (.error, 26), (.error, 37), (.error, 40)] ∧
      Parallel d.diagnostics d.invalidTrees := by
  intro text
  obtain ⟨d, hd, hlists⟩ := Document.exists_parse 8 text (fun d =>
    d.diagnostics.map (fun e => (e.kind, e.span.start)) ==
        [(.invalidVocabulary, 12), (.structural, 30), (.structural, 37), (.structural, 52)] &&
      d.invalidTrees.map (fun t => (t.kind, t.span.start)) ==
        [(.invalidShaderType, 12), (.error, 26), (.error, 37), (.error, 40)]) (by decide +kernel)
  obtain ⟨hdiagnostics, htrees⟩ := Bool.and_eq_true_iff.mp hlists
  exact ⟨d, hd, eq_of_beq hdiagnostics, eq_of_beq htrees, diagnostics_parallel hd⟩

end ShaderSyntax
