import ShaderSyntax.Document
import ShaderSyntax.Proofs.Reading.Statement

/-!
# Declarations are read

Every declaration reads its node, and a file reads the nodes of its declarations in a row and leaves
nothing. A file is never refused: it is done, or it meets the limit on nesting.
-/
namespace ShaderSyntax

open ShaderSyntax.Parser

namespace Grammar

variable {expr : Parser Expr} {stmt : Parser Stmt}

theorem shaderType_reads :
    shaderType.Reads fun d items => d.node.Spells (.keyword .shaderType :: items) := by
  have ht : Parser.ReadsNode _ (Term.node .shaderType .invalidShaderType) :=
    term_reads .shaderType .shaderType rfl rfl .unknownShaderType
  refine Reads.andThen (ht.child .shaderType) ?_
  rintro t _ rfl
  refine Reads.andThen (reads_require .afterShaderType) ?_
  rintro _ _ rfl
  exact reads_value (Node.spells_branch rfl (List.cons_ne_nil _ _))

theorem renderModeTerm_reads :
    renderModeTerm.ReadsNode (Term.node .renderMode .invalidRenderMode) :=
  term_reads .renderMode .renderMode rfl rfl .unknownRenderMode

theorem renderModeTerms_reads :
    renderModeTerms.Reads fun ts items =>
      items = Item.separated .renderMode (ts.map (Term.node .renderMode .invalidRenderMode)) := by
  intro ts
  unfold renderModeTerms
  split
  · refine ((renderModeTerm_reads.separated .renderMode).mono ?_) _
    rintro _ _ ⟨-, rfl⟩
    rfl
  · exact .of_account rfl (.nil _)

theorem renderMode_reads :
    renderMode.Reads fun d items => d.node.Spells (.keyword .renderMode :: items) := by
  refine Reads.andThen renderModeTerms_reads ?_
  rintro ts _ rfl
  refine Reads.andThen (reads_require .afterRenderModes) ?_
  rintro _ _ rfl
  exact reads_value (Node.spells_branch rfl (List.cons_ne_nil _ _))

theorem constantDecl_reads (h : expr.ReadsNode Expr.node) :
    (constantDecl expr).Reads fun d items => d.node.Spells (.keyword .const :: items) := by
  refine Reads.andThen (constant_reads h) ?_
  rintro ⟨p, v⟩ _ rfl
  apply reads_value
  rw [List.append_nil]
  exact Node.spells_branch rfl (List.cons_ne_nil _ _)

theorem varying_reads :
    varying.Reads fun d items => d.node.Spells (.keyword .varying :: items) := by
  have hi := reads_qualifier .interpolation .interpolation (k := .interpolationQualifier) rfl
  have hp := reads_qualifier .precision .precision (k := .precisionQualifier) rfl
  refine Reads.andThen hi ?_
  rintro i _ rfl
  refine Reads.andThen hp ?_
  rintro p _ rfl
  refine Reads.andThen (specifier_readsNode.child .specifier) ?_
  rintro s _ rfl
  refine Reads.andThen (reads_require .afterVarying) ?_
  rintro _ _ rfl
  apply reads_value
  rw [Decl.node, List.append_assoc]
  exact Node.spells_branch rfl (List.cons_ne_nil _ _)

theorem name?_reads (label : Label) :
    name?.Reads fun n items => items = Item.child? label (n.map Name.node) := by
  intro ts
  unfold name?
  split
  · refine Outcome.Reads.bind (name_reads.child label _) ?_
    rintro n _ rfl
    exact reads_value rfl
  · exact .of_account rfl (.nil _)

theorem groupUniforms_reads :
    groupUniforms.Reads fun d items => d.node.Spells (.keyword .groupUniforms :: items) := by
  have hsub : (onPunct .dot (name.andThen fun n => value (some n)) (value none)).Reads
      fun n items => items = Item.marked? .dot .subgroupName (n.map Name.node) := by
    refine Reads.onPunct .dot ?_ (reads_value rfl)
    refine Reads.andThen (name_reads.child .subgroupName) ?_
    rintro n _ rfl
    exact reads_value rfl
  refine Reads.andThen (name?_reads .groupName) ?_
  rintro g _ rfl
  refine Reads.andThen hsub ?_
  rintro s _ rfl
  refine Reads.andThen (reads_require .afterGroupUniforms) ?_
  rintro _ _ rfl
  apply reads_value
  rw [Decl.node, List.append_assoc]
  exact Node.spells_branch rfl (List.cons_ne_nil _ _)

theorem hintNumber_reads : hintNumber.ReadsNode Number.node := by
  intro ts
  unfold hintNumber
  split
  · next n rest => exact .of_account (Node.spells_child .value _) (account_leaf rfl _ _ rest)
  · next n rest => exact .of_account (Node.spells_child .value _) (account_leaf rfl _ _ rest)
  · exact .of_failed _ [] (List.suffix_refl ts)

theorem hintParam_reads : hintParam.ReadsNode HintParam.node := by
  refine Reads.onPunct .minus ?_ ?_
  · refine Reads.andThen (hintNumber_reads.child .argument) ?_
    rintro n _ rfl
    exact reads_value ⟨rfl, fun _ => rfl, fun h => ⟨rfl, List.cons_ne_nil _ _, h⟩⟩
  · refine Reads.andThen (hintNumber_reads.child .argument) ?_
    rintro n _ rfl
    exact reads_value (Node.spells_child .argument n.node)

theorem hintParams_reads :
    hintParams.Reads fun ps items => .mark .openParen :: items = Hint.paramItems (some ps) := by
  refine Reads.onPunct .closeParen (reads_value rfl) ?_
  refine Reads.andThen (hintParam_reads.separated .param) ?_
  rintro ps _ ⟨-, rfl⟩
  refine Reads.andThen (reads_require .closeHintParameters) ?_
  rintro _ _ rfl
  exact reads_value rfl

theorem hint_reads : hint.ReadsNode Hint.node := by
  have ht : Parser.ReadsNode _ (Term.node .hintName .invalidHint) :=
    term_reads .hint .hint rfl rfl .unknownHint
  refine Reads.andThen (ht.child .named) ?_
  rintro n _ rfl
  refine Reads.onPunct .openParen ?_ (reads_value (Node.spells_branch rfl (List.cons_ne_nil _ _)))
  refine Reads.andThen hintParams_reads ?_
  intro ps items hps
  apply reads_value
  rw [List.append_nil, Hint.node, ← hps]
  exact Node.spells_branch rfl (List.cons_ne_nil _ _)

/-- Hints in a row are one child, if there are any. -/
theorem hints_reads :
    hints.Reads fun hs items => items = Item.marked? .colon .hints (Hint.listNode? hs) := by
  refine Reads.onPunct .colon ?_ (reads_value rfl)
  refine fun ts => ((hint_reads.separated .hint) ts).convert ?_
  rintro hs _ ⟨hne, rfl⟩
  obtain ⟨h, hs, rfl⟩ := List.exists_cons_of_ne_nil hne
  refine ⟨[.child .hints (.branch .hintList (Item.separated .hint ((h :: hs).map Hint.node)))], rfl,
    ?_⟩
  intro rest found ha
  have hn : Item.separated .hint ((h :: hs).map Hint.node) ≠ [] := by
    rw [List.map_cons, separated_cons]
    exact List.cons_ne_nil _ _
  exact (Node.spells_branch rfl hn).child .hints ha

theorem uniform_reads (h : expr.ReadsNode Expr.node) (scope : Option Scope) :
    (uniform scope expr).Reads fun d items =>
      d.node.Spells (Decl.scopeItems scope ++ .keyword .uniform :: items) := by
  have hp := reads_qualifier .precision .precision (k := .precisionQualifier) rfl
  refine Reads.andThen hp ?_
  rintro p _ rfl
  refine Reads.andThen (specifier_readsNode.child .specifier) ?_
  rintro s _ rfl
  refine Reads.andThen hints_reads ?_
  rintro hs _ rfl
  refine Reads.andThen (initializer_reads h) ?_
  rintro v _ rfl
  refine Reads.andThen (reads_require .afterUniform) ?_
  rintro _ _ rfl
  apply reads_value
  simpa [Decl.node, Place.punct] using Node.spells_branch (k := .uniformDeclaration) rfl (by simp)

theorem scopedUniform_reads (h : expr.ReadsNode Expr.node) (scope : Scope) :
    (scopedUniform scope expr).Reads fun d items =>
      d.node.Spells (.keyword scope.keyword :: items) := by
  refine Reads.onKeyword .uniform ?_ (reads_fail _)
  refine (uniform_reads h (some scope)).mono ?_
  intro d items hd
  exact ⟨hd.lexemes, hd.sites, hd.solid⟩

theorem member_reads : member.ReadsNode Member.node := by
  refine Reads.andThen specifier_reads ?_
  rintro s _ rfl
  refine Reads.andThen (reads_require .afterMember) ?_
  rintro _ _ rfl
  exact reads_value (Node.spells_branch rfl (List.cons_ne_nil _ _))

theorem members_reads (n : Name) :
    (members n).Reads fun ms items => items = Item.children .member (ms.map Member.node) := by
  intro ts
  unfold members
  split
  · exact .of_failed _ [] (List.suffix_refl ts)
  · exact reads_manyUntil _ .member
      (member_reads.recovering Recovery.resumes_statement fun _ => rfl) ts

theorem struct_reads :
    struct.Reads fun d items => d.node.Spells (.keyword .struct :: items) := by
  refine Reads.andThen (name_reads.child .named) ?_
  rintro n _ rfl
  refine Reads.andThen (reads_require .openStruct) ?_
  rintro _ _ rfl
  refine Reads.andThen (members_reads n) ?_
  rintro ms _ rfl
  refine Reads.andThen (reads_require .closeStruct) ?_
  rintro _ _ rfl
  refine Reads.andThen (reads_require .afterStruct) ?_
  rintro _ _ rfl
  exact reads_value (Node.spells_branch rfl (List.cons_ne_nil _ _))

theorem parameter_reads : parameter.ReadsNode Parameter.node := by
  refine Reads.andThen (reads_qualifier .paramQualifier .qualifier (k := .paramQualifier) rfl) ?_
  rintro q _ rfl
  refine Reads.andThen specifier_reads ?_
  rintro s _ rfl
  apply reads_value
  rw [List.append_nil]
  exact Node.spells_branch rfl (by simp [Specifier.items])

theorem parameters_reads :
    parameters.Reads fun ps items =>
      items = Item.separated .parameter (ps.map Parameter.node) ++ [Item.mark .closeParen] := by
  refine Reads.onPunct .closeParen (reads_value rfl) ?_
  refine Reads.andThen (parameter_reads.separated .parameter) ?_
  rintro ps _ ⟨-, rfl⟩
  refine Reads.andThen (reads_require .closeParameters) ?_
  rintro _ _ rfl
  exact reads_value rfl

theorem function_reads (h : stmt.ReadsNode Stmt.node) : (function stmt).ReadsNode Decl.node := by
  refine Reads.andThen (typeRef_reads.child .functionType) ?_
  rintro t _ rfl
  refine Reads.andThen (name_reads.child .named) ?_
  rintro n _ rfl
  refine Reads.andThen (reads_require .afterFunctionName) ?_
  rintro _ _ rfl
  refine Reads.andThen parameters_reads ?_
  rintro ps _ rfl
  refine Reads.andThen ((block_reads h).child .body) ?_
  rintro body _ rfl
  apply reads_value
  simpa [Decl.node, Place.punct] using Node.spells_branch (k := .functionDeclaration) rfl (by simp)

theorem includePath_reads :
    includePath.Reads fun d items =>
      d.node.Spells (.mark .hash :: .token (.word includeWord) :: items) := by
  intro ts
  unfold includePath
  split
  · next raw rest =>
    have hn : (Decl.includes raw).node.Spells (.mark .hash :: .token (.word includeWord) ::
        [.child .file (.leaf .string (.string raw))]) :=
      Node.spells_branch rfl (List.cons_ne_nil _ _)
    exact .of_account hn (account_leaf rfl _ _ rest)
  · exact .of_failed _ [] (List.suffix_refl ts)

theorem includes_reads : includes.Reads fun d items => d.node.Spells (.mark .hash :: items) := by
  intro ts
  unfold includes
  split
  · next w rest =>
    split
    · next hw =>
      subst hw
      exact Outcome.Reads.following (.token _ rest) (includePath_reads rest)
    · exact .of_failed _ [] (List.suffix_refl _)
  · exact .of_failed _ [] (List.suffix_refl ts)

theorem keywordDecl_reads (h : expr.ReadsNode Expr.node) (k : Keyword) (q : Parser Decl)
    (hq : keywordDecl expr k = some q) :
    q.Reads fun d items => d.node.Spells (.keyword k :: items) := by
  unfold keywordDecl at hq
  split at hq <;> cases hq
  · exact shaderType_reads
  · exact renderMode_reads
  · exact constantDecl_reads h
  · exact varying_reads
  · exact groupUniforms_reads
  · exact uniform_reads h none
  · exact scopedUniform_reads h .wide
  · exact scopedUniform_reads h .perInstance
  · exact struct_reads

theorem declarationOf_reads (he : expr.ReadsNode Expr.node) (hs : stmt.ReadsNode Stmt.node) :
    (declarationOf expr stmt).ReadsNode Decl.node := by
  intro ts
  unfold declarationOf
  split
  · next rest => exact Outcome.Reads.following (.token _ rest) (includes_reads rest)
  · next w rest =>
    split
    · next q hq =>
      obtain ⟨k, hk, hkq⟩ := Option.bind_eq_some_iff.mp hq
      have hw := Keyword.spelling_of_ofText? hk
      subst hw
      exact Outcome.Reads.following (.token _ rest) (keywordDecl_reads he k q hkq rest)
    · exact function_reads hs _
  · exact .of_failed _ [] (List.suffix_refl ts)

theorem recoveredDecl_reads (levels : Nat) (ts : List Lexeme) (hts : ts ≠ []) :
    (recoveredDecl levels ts).Reads ts fun d items => d.node.Spells items :=
  (declarationOf_reads (expression_reads levels) (statement_reads levels)).recovering
    Recovery.resumes_declaration (fun _ => rfl) ts hts

/-- The label is that of no field: the declarations of a file have no owner. -/
theorem declarations_reads (levels : Nat) (label : Label) :
    (declarations levels).Reads fun ds items =>
      items = Item.children label (ds.map Decl.node) :=
  reads_manyUntil _ label (recoveredDecl_reads levels)

/-- All declarations are done with nothing left, unless the limit on nesting is met. -/
theorem declarations_total (levels : Nat) (ts : List Lexeme) :
    (∃ ds found, declarations levels ts = .done ds [] found) ∨
      ∃ rest found, declarations levels ts = .tooDeep rest found :=
  manyUntil_total (recoveredDecl_reads levels) (fun ts => recovering_ne_failed _ _ _ ts) ts

/-- The whole input is accounted for by the declarations of a file. -/
theorem declarations_account {levels : Nat} {ts rest : List Lexeme} {ds : List Decl}
    {found : List Finding} (h : declarations levels ts = .done ds rest found) (label : Label) :
    Item.Account (Item.children label (ds.map Decl.node)) ts [] found := by
  have hrest : rest = [] := by
    rcases declarations_total levels ts with ⟨ds', found', h'⟩ | ⟨rest', found', h'⟩
    · rw [h] at h'
      cases h'
      rfl
    · rw [h] at h'
      cases h'
  obtain ⟨items, rfl, ha⟩ := (declarations_reads levels label ts).done ds rest found h
  rwa [hrest] at ha

end Grammar

/-- A text is parsed where its declarations are read to its end. -/
theorem Document.parse_eq_ok_iff {levels : Nat} {text : Text} {d : Document} :
    parse levels text = .ok d ↔
      d.source = .ofText text ∧
        Grammar.declarations levels (Source.ofText text).lexemes = .done d.decls [] d.findings := by
  unfold parse ofSource
  rcases Grammar.declarations_total levels (Source.ofText text).lexemes with
    ⟨ds, found, h⟩ | ⟨rest, found, h⟩
  · rw [h]
    constructor
    · intro hd
      cases hd
      exact ⟨rfl, rfl⟩
    · rintro ⟨hs, hd⟩
      cases d
      cases hs
      cases hd
      rfl
  · rw [h]
    constructor
    · intro hd
      cases hd
    · rintro ⟨-, hd⟩
      cases hd

/-- A document accounts for all lexemes of its text, and its findings are its invalid nodes. -/
theorem Document.account {levels : Nat} {text : Text} {d : Document} (h : parse levels text = .ok d)
    (label : Label) :
    d.source = .ofText text ∧
      Item.Account (Item.children label (d.decls.map Decl.node)) (Source.ofText text).lexemes []
        d.findings := by
  unfold parse ofSource at h
  split at h
  · next ds rest found hd =>
    cases h
    exact ⟨rfl, Grammar.declarations_account hd label⟩
  · next problem rest found hd =>
    rcases Grammar.declarations_total levels (Source.ofText text).lexemes with
      ⟨ds, found', ht⟩ | ⟨rest', found', ht⟩
    · rw [hd] at ht
      cases ht
    · rw [hd] at ht
      cases ht
  · cases h

end ShaderSyntax
