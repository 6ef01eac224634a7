import ShaderSyntax.Grammar.Declaration
import ShaderSyntax.Proofs.Completeness.Statement

/-!
# Declarations come back

Each declaration ends with a mark or a string of its own, so it comes back whatever follows it.
-/
namespace ShaderSyntax.Grammar

open ShaderSyntax.Parser

/-- The parser gives the declaration back. -/
def BringsDecl (decl : Parser Decl) (d : Decl) : Prop :=
  ∀ rest, decl (d.node.lexemes ++ rest) = .done d rest []

section Dispatch

variable {expr : Parser Expr} {stmt : Parser Stmt}

theorem declarationOf_keyword {k : Keyword} {p : Parser Decl} (h : keywordDecl expr k = some p)
    (rest : List Lexeme) : declarationOf expr stmt (.word k.spelling :: rest) = p rest := by
  simp [declarationOf, h]

theorem declarationOf_word {w : Text} (h : classify w ≠ .keyword) (rest : List Lexeme) :
    declarationOf expr stmt (.word w :: rest) = function stmt (.word w :: rest) := by
  simp [declarationOf, Keyword.ofText?_eq_none h]

end Dispatch

theorem lexemes_children_map {α : Type} (label : Label) (node : α → Node) (as : List α) :
    Item.lexemes (Item.children label (as.map node)) = as.flatMap fun a => (node a).lexemes := by
  rw [Item.lexemes_children, List.flatMap_map]

theorem lexemes_separated_map {α : Type} (label : Label) (node : α → Node) (a : α) (as : List α) :
    Item.lexemes (Item.separated label ((a :: as).map node)) =
      (node a).lexemes ++ as.flatMap fun b => .punct .comma :: (node b).lexemes := by
  rw [List.map_cons, Item.lexemes_separated, List.flatMap_map]

section Forms

variable {expr : Parser Expr} {stmt : Parser Stmt} {levels : Nat}

theorem brings_shaderType {t : Term} (h : t.canonical .shaderType = true) :
    BringsDecl (declarationOf expr stmt) (.shaderType t) := by
  intro rest
  have hlex : (Decl.shaderType t).node.lexemes ++ rest = .word Keyword.shaderType.spelling ::
      ((t.node .shaderType .invalidShaderType).lexemes ++ .punct .semicolon :: rest) := by
    simp [Decl.node, Node.lexemes, Item.keyword, Item.mark, Item.lexemes]
  rw [hlex, declarationOf_keyword rfl, shaderType, bind_done (term_done h _)]
  exact bind_done (require_done .afterShaderType rest)

theorem renderModeTerms_done {ts : List Term} (h : ts.all (Term.canonical .renderMode) = true)
    (rest : List Lexeme) :
    renderModeTerms (Item.lexemes (Item.separated .renderMode
      (ts.map (Term.node .renderMode .invalidRenderMode))) ++ .punct .semicolon :: rest) =
      .done ts (.punct .semicolon :: rest) [] := by
  cases ts with
  | nil => rfl
  | cons t ts =>
    have hitem : ∀ b ∈ t :: ts, ∀ mid, Ends (fun _ => false) mid →
        renderModeTerm ((b.node .renderMode .invalidRenderMode).lexemes ++ mid) =
          .done b mid [] :=
      fun b hb mid _ => term_done (List.all_eq_true.mp h b hb) mid
    have hlist := separated_done t ts (.punct .semicolon :: rest) hitem rfl (ends_cons rfl)
      (ends_cons rfl)
    rw [lexemes_separated_map, List.append_assoc]
    cases t <;> exact hlist

theorem brings_renderMode {ts : List Term} (h : ts.all (Term.canonical .renderMode) = true) :
    BringsDecl (declarationOf expr stmt) (.renderMode ts) := by
  intro rest
  have hlex : (Decl.renderMode ts).node.lexemes ++ rest = .word Keyword.renderMode.spelling ::
      (Item.lexemes (Item.separated .renderMode
        (ts.map (Term.node .renderMode .invalidRenderMode))) ++ .punct .semicolon :: rest) := by
    simp [Decl.node, Node.lexemes, Item.keyword, Item.mark, Item.lexemes]
  rw [hlex, declarationOf_keyword rfl, renderMode, bind_done (renderModeTerms_done h rest)]
  exact bind_done (require_done .afterRenderModes rest)

theorem brings_constantDecl {p : Option Text} {v : Variable}
    (hp : canonicalQualifier .precision p = true) (h : v.canonical = true)
    (hd : v.depth ≤ levels) :
    BringsDecl (declarationOf (expression levels) stmt) (.constant p v) := by
  intro rest
  have hconst := constant_done hp h hd rest
  change declarationOf _ _ ((v.constantNode .constDeclaration p).lexemes ++ rest) = _
  rw [lexemes_constant, List.cons_append, List.append_assoc, declarationOf_keyword rfl]
  exact bind_done hconst

theorem brings_varying {i p : Option Text} {s : Specifier}
    (hi : canonicalQualifier .interpolation i = true)
    (hp : canonicalQualifier .precision p = true) (hs : s.canonical = true) :
    BringsDecl (declarationOf expr stmt) (.varying i p s) := by
  intro rest
  have hlex : (Decl.varying i p s).node.lexemes ++ rest = .word Keyword.varying.spelling ::
      (i.toList.map .word ++ (p.toList.map .word ++
        (Item.lexemes s.items ++ .punct .semicolon :: rest))) := by
    cases i <;> cases p <;> simp [Decl.node, Node.lexemes, Item.keyword, Item.mark, Item.lexemes,
      Item.child?, qualifierNode, Specifier.node]
  have hprecision := qualifier_specifier (by decide) hp hs (.punct .semicolon :: rest)
  have hinterpolation : qualifier .interpolation (i.toList.map .word ++ (p.toList.map .word ++
      (Item.lexemes s.items ++ .punct .semicolon :: rest))) =
      .done i (p.toList.map .word ++ (Item.lexemes s.items ++ .punct .semicolon :: rest)) [] := by
    cases p with
    | none => exact qualifier_specifier (by decide) hi hs _
    | some w =>
      have hw : classify w = .precision := by simpa [canonicalQualifier] using hp
      exact qualifier_done hi (by simp [hw]) _
  have hspec := specifier_done hs
    (ends_cons rfl : Ends (Recovery.isPunct .openBracket) (.punct .semicolon :: rest))
  rw [hlex, declarationOf_keyword rfl, varying, bind_done hinterpolation, bind_done hprecision,
    bind_done hspec]
  exact bind_done (require_done .afterVarying rest)

theorem name?_done {g : Option Name} (h : g.all Name.canonical = true) {p : Punct}
    (rest : List Lexeme) :
    name? (Item.lexemes (Item.child? .groupName (g.map Name.node)) ++ .punct p :: rest) =
      .done g (.punct p :: rest) [] := by
  cases g with
  | none => rfl
  | some n => exact andThen_done (name_done (by simpa using h) _)

theorem brings_groupUniforms {g s : Option Name} (hg : g.all Name.canonical = true)
    (hs : s.all Name.canonical = true) :
    BringsDecl (declarationOf expr stmt) (.groupUniforms g s) := by
  intro rest
  have hlex : (Decl.groupUniforms g s).node.lexemes ++ rest =
      .word Keyword.groupUniforms.spelling ::
        (Item.lexemes (Item.child? .groupName (g.map Name.node)) ++
          (Item.lexemes (Item.marked? .dot .subgroupName (s.map Name.node)) ++
            .punct .semicolon :: rest)) := by
    simp [Decl.node, Node.lexemes, Item.keyword, Item.mark, Item.lexemes]
  rw [hlex, declarationOf_keyword rfl, groupUniforms]
  cases s with
  | none =>
    refine (bind_done (name?_done hg rest)).trans ?_
    exact (bind_done rfl).trans (bind_done (require_done .afterGroupUniforms rest))
  | some n =>
    have hn := name_done (n := n) (by simpa using hs) (.punct .semicolon :: rest)
    refine (bind_done (name?_done hg _)).trans ?_
    exact (bind_done (bind_done hn)).trans (bind_done (require_done .afterGroupUniforms rest))

theorem hintNumber_done (n : Number) (rest : List Lexeme) :
    hintNumber (n.node.lexemes ++ rest) = .done n rest [] := by
  cases n <;> rfl

theorem hintParam_done (p : HintParam) (rest : List Lexeme) :
    hintParam (p.node.lexemes ++ rest) = .done p rest [] := by
  obtain ⟨negated, number⟩ := p
  cases negated with
  | true =>
    have hlex : (HintParam.mk true number).node.lexemes ++ rest =
        .punct .minus :: (number.node.lexemes ++ rest) := by
      simp [HintParam.node, Node.lexemes, Item.lexemes, UnaryOp.punct]
    rw [hlex, hintParam, onPunct_same]
    exact bind_done (hintNumber_done number rest)
  | false =>
    have hends : Ends (Recovery.isPunct .minus) (number.node.lexemes ++ rest) := by
      cases number <;> exact ends_cons rfl
    change hintParam (number.node.lexemes ++ rest) = _
    rw [hintParam, onPunct_other _ _ hends]
    exact bind_done (hintNumber_done number rest)

theorem hintParams_done (ps : List HintParam) (rest : List Lexeme) :
    hintParams (Item.lexemes (Item.separated .param (ps.map HintParam.node)) ++
      .punct .closeParen :: rest) = .done ps rest [] := by
  cases ps with
  | nil => rfl
  | cons p ps =>
    have hitem : ∀ b ∈ p :: ps, ∀ mid, Ends (fun _ => false) mid →
        hintParam (b.node.lexemes ++ mid) = .done b mid [] :=
      fun b _ mid _ => hintParam_done b mid
    have hlist := separated_done p ps (.punct .closeParen :: rest) hitem rfl (ends_cons rfl)
      (ends_cons rfl)
    rw [lexemes_separated_map, List.append_assoc]
    have hends : Ends (Recovery.isPunct .closeParen) (p.node.lexemes ++
        (ps.flatMap (fun b => .punct .comma :: b.node.lexemes) ++
          .punct .closeParen :: rest)) := by
      obtain ⟨negated, number⟩ := p
      cases negated <;> cases number <;> exact ends_cons rfl
    rw [hintParams, onPunct_other _ _ hends, bind_done hlist]
    exact bind_done (require_done .closeHintParameters rest)

/-- A hint comes back if no parenthesis follows it. -/
theorem hint_done {h : Hint} (hc : h.canonical = true) {rest : List Lexeme}
    (hr : Ends (Recovery.isPunct .openParen) rest) :
    hint (h.node.lexemes ++ rest) = .done h rest [] := by
  obtain ⟨name, params⟩ := h
  cases params with
  | none =>
    have hlex : (Hint.mk name none).node.lexemes ++ rest =
        (name.node .hintName .invalidHint).lexemes ++ rest := by
      simp [Hint.node, Hint.paramItems, Node.lexemes, Item.lexemes]
    rw [hlex, hint, bind_done (term_done hc rest)]
    exact onPunct_other _ _ hr
  | some ps =>
    have hlex : (Hint.mk name (some ps)).node.lexemes ++ rest =
        (name.node .hintName .invalidHint).lexemes ++ .punct .openParen ::
          (Item.lexemes (Item.separated .param (ps.map HintParam.node)) ++
            .punct .closeParen :: rest) := by
      simp [Hint.node, Hint.paramItems, Node.lexemes, Item.mark, Item.lexemes]
    rw [hlex, hint, bind_done (term_done hc _), onPunct_same]
    exact bind_done (hintParams_done ps rest)

/-- The lexemes of hints after a colon, or none. -/
def hintLexemes : List Hint → List Lexeme
  | [] => []
  | h :: hs => .punct .colon ::
    (h.node.lexemes ++ hs.flatMap fun b => .punct .comma :: b.node.lexemes)

theorem lexemes_marked_hints (hs : List Hint) :
    Item.lexemes (Item.marked? .colon .hints (Hint.listNode? hs)) = hintLexemes hs := by
  cases hs with
  | nil => rfl
  | cons h hs =>
    simp only [Hint.listNode?, Item.marked?, Item.mark, Item.lexemes, Node.lexemes,
      lexemes_separated_map, List.append_nil, hintLexemes]

theorem hints_done {hs : List Hint} (hc : hs.all Hint.canonical = true) {rest : List Lexeme}
    (hcolon : Ends (Recovery.isPunct .colon) rest) (hcomma : Ends (Recovery.isPunct .comma) rest)
    (hopen : Ends (Recovery.isPunct .openParen) rest) :
    hints (hintLexemes hs ++ rest) = .done hs rest [] := by
  cases hs with
  | nil => exact onPunct_other _ _ hcolon
  | cons h hs =>
    have hitem : ∀ b ∈ h :: hs, ∀ mid, Ends (Recovery.isPunct .openParen) mid →
        hint (b.node.lexemes ++ mid) = .done b mid [] :=
      fun b hb mid hmid => hint_done (List.all_eq_true.mp hc b hb) hmid
    rw [hintLexemes, List.cons_append, List.append_assoc, hints, onPunct_same]
    exact separated_done h hs rest hitem rfl hopen hcomma

theorem uniform_done {scope : Option Scope} {p : Option Text} {s : Specifier} {hs : List Hint}
    {v : Option Expr} (hp : canonicalQualifier .precision p = true) (hc : s.canonical = true)
    (hh : hs.all Hint.canonical = true) (hv : v.all Expr.whole = true)
    (hd : Expr.depth? v ≤ levels) (rest : List Lexeme) :
    uniform scope (expression levels) (p.toList.map .word ++ (Item.lexemes s.items ++
      (hintLexemes hs ++ (valueLexemes v ++ .punct .semicolon :: rest)))) =
      .done (.uniform scope p s hs v) rest [] := by
  have hq := qualifier_specifier (by decide) hp hc
    (hintLexemes hs ++ (valueLexemes v ++ .punct .semicolon :: rest))
  have hends : ∀ q : Punct, q ≠ .assign → q ≠ .semicolon →
      Ends (Recovery.isPunct q) (valueLexemes v ++ .punct .semicolon :: rest) := by
    intro q hassign hsemi
    cases v with
    | none => exact ends_cons (by simpa [Recovery.isPunct] using hsemi.symm)
    | some e => exact ends_cons (by simpa [Recovery.isPunct] using hassign.symm)
  have hbracket : Ends (Recovery.isPunct .openBracket)
      (hintLexemes hs ++ (valueLexemes v ++ .punct .semicolon :: rest)) := by
    cases hs with
    | nil => exact hends .openBracket (by decide) (by decide)
    | cons h hs => exact ends_cons rfl
  have hhints := hints_done hh (hends .colon (by decide) (by decide))
    (hends .comma (by decide) (by decide)) (hends .openParen (by decide) (by decide))
  rw [uniform, bind_done hq, bind_done (specifier_done hc hbracket), bind_done hhints,
    bind_done (initializer_done hv hd rest)]
  exact bind_done (require_done .afterUniform rest)

theorem brings_uniform {scope : Option Scope} {p : Option Text} {s : Specifier} {hs : List Hint}
    {v : Option Expr} (hp : canonicalQualifier .precision p = true) (hc : s.canonical = true)
    (hh : hs.all Hint.canonical = true) (hv : v.all Expr.whole = true)
    (hd : Expr.depth? v ≤ levels) :
    BringsDecl (declarationOf (expression levels) stmt) (.uniform scope p s hs v) := by
  intro rest
  have huniform : ∀ scope, uniform scope (expression levels) (p.toList.map .word ++
      (Item.lexemes s.items ++ (hintLexemes hs ++ (valueLexemes v ++ .punct .semicolon :: rest)))) =
      .done (.uniform scope p s hs v) rest [] := fun scope => uniform_done hp hc hh hv hd rest
  have hlex : (Decl.uniform scope p s hs v).node.lexemes ++ rest =
      Item.lexemes (Decl.scopeItems scope) ++ Lexeme.word Keyword.uniform.spelling ::
        (p.toList.map .word ++ (Item.lexemes s.items ++
          (hintLexemes hs ++ (valueLexemes v ++ .punct .semicolon :: rest)))) := by
    simp [Decl.node, Node.lexemes, Item.keyword, Item.mark, Item.lexemes, lexemes_precision,
      lexemes_marked_hints, lexemes_marked_value, Specifier.node]
  rw [hlex]
  cases scope with
  | none => exact (declarationOf_keyword rfl _).trans (huniform none)
  | some c =>
    cases c with
    | wide =>
      refine (declarationOf_keyword (k := .globalScope) rfl _).trans ?_
      exact (onKeyword_same _ _ _ _).trans (huniform (some .wide))
    | perInstance =>
      refine (declarationOf_keyword (k := .instanceScope) rfl _).trans ?_
      exact (onKeyword_same _ _ _ _).trans (huniform (some .perInstance))

theorem member_done {s : Specifier} (h : s.canonical = true) (rest : List Lexeme) :
    member ((Member.field s).node.lexemes ++ rest) = .done (.field s) rest [] := by
  have hlex : (Member.field s).node.lexemes ++ rest =
      Item.lexemes s.items ++ .punct .semicolon :: rest := by
    simp [Member.node, Node.lexemes, Item.mark, Item.lexemes]
  have hspec := specifier_done h
    (ends_cons rfl : Ends (Recovery.isPunct .openBracket) (.punct .semicolon :: rest))
  rw [hlex, member, bind_done hspec]
  exact bind_done (require_done .afterMember rest)

theorem head_member {m : Member} (h : m.canonical = true) :
    ∃ w tail, m.node.lexemes = .word w :: tail := by
  cases m with
  | field s =>
    obtain ⟨w, tail, hl, -⟩ := specifier_head h
    refine ⟨w, tail ++ [Lexeme.punct .semicolon], ?_⟩
    simp [Member.node, Node.lexemes, Item.mark, Item.lexemes, hl]
  | error s => cases h

theorem members_done (n : Name) {ms : List Member} (hne : ms ≠ [])
    (h : ms.all Member.canonical = true) (rest : List Lexeme) :
    members n (ms.flatMap (fun m => m.node.lexemes) ++ .punct .closeBrace :: rest) =
      .done ms (.punct .closeBrace :: rest) [] := by
  have hhead : ∀ m ∈ ms, ∃ l tail, m.node.lexemes = l :: tail ∧
      Recovery.isPunct .closeBrace l = false ∧ (fun _ : Lexeme => false) l = false := by
    intro m hm
    obtain ⟨w, tail, hl⟩ := head_member (List.all_eq_true.mp h m hm)
    exact ⟨.word w, tail, hl, rfl, rfl⟩
  have hitem : ∀ m ∈ ms, ∀ mid, Ends (fun _ => false) mid →
      recovering Recovery.resumeStatement .error member (m.node.lexemes ++ mid) =
        .done m mid [] := by
    intro m hm mid _
    have hc := List.all_eq_true.mp h m hm
    cases m with
    | field s => exact recovering_done (member_done hc mid)
    | error s => cases hc
  have hmany := manyUntil_done ms (.punct .closeBrace :: rest) hitem hhead (ends_cons rfl)
    (fun l hl => by cases hl; rfl)
  obtain ⟨m, more, rfl⟩ := List.exists_cons_of_ne_nil hne
  obtain ⟨w, tail, hl⟩ := head_member (List.all_eq_true.mp h m (by simp))
  rw [members, if_neg (by simp [hl]), hmany]

theorem brings_struct {n : Name} {ms : List Member} (hn : n.canonical = true) (hne : ms ≠ [])
    (h : ms.all Member.canonical = true) :
    BringsDecl (declarationOf expr stmt) (.struct n ms) := by
  intro rest
  have hlex : (Decl.struct n ms).node.lexemes ++ rest = .word Keyword.struct.spelling ::
      .word n.word :: .punct .openBrace :: (ms.flatMap (fun m => m.node.lexemes) ++
        .punct .closeBrace :: .punct .semicolon :: rest) := by
    simp [Decl.node, Node.lexemes, Item.keyword, Item.mark, Item.lexemes, lexemes_children_map,
      Name.node]
  rw [hlex, declarationOf_keyword rfl, struct, bind_done (name_done hn _)]
  refine (bind_done (require_done .openStruct _)).trans ?_
  refine (bind_done (members_done n hne h _)).trans ?_
  refine (bind_done (require_done .closeStruct _)).trans ?_
  exact bind_done (require_done .afterStruct rest)

/-- A parameter comes back if no size follows it. -/
theorem parameter_done {p : Parameter} (h : p.canonical = true) {rest : List Lexeme}
    (hr : Ends (Recovery.isPunct .openBracket) rest) :
    parameter (p.node.lexemes ++ rest) = .done p rest [] := by
  simp only [Parameter.canonical, Bool.and_eq_true] at h
  have hlex : p.node.lexemes ++ rest =
      p.qualifier.toList.map .word ++ (Item.lexemes p.specifier.items ++ rest) := by
    cases hq : p.qualifier <;>
      simp [Parameter.node, Node.lexemes, Item.child?, Item.lexemes, qualifierNode, hq]
  rw [hlex, parameter, bind_done (qualifier_specifier (by decide) h.1 h.2 rest),
    bind_done (specifier_done h.2 hr)]
  rfl

theorem head_parameter {p : Parameter} (h : p.canonical = true) :
    ∃ w tail, p.node.lexemes = .word w :: tail := by
  simp only [Parameter.canonical, Bool.and_eq_true] at h
  obtain ⟨w, tail, hl, -⟩ := specifier_head h.2
  cases hq : p.qualifier with
  | none => exact ⟨w, tail, by simp [Parameter.node, Node.lexemes, Item.child?, hq, hl]⟩
  | some q =>
    exact ⟨q, .word w :: tail, by
      simp [Parameter.node, Node.lexemes, Item.child?, Item.lexemes, qualifierNode, hq, hl]⟩

theorem parameters_done {ps : List Parameter} (h : ps.all Parameter.canonical = true)
    (rest : List Lexeme) :
    parameters (Item.lexemes (Item.separated .parameter (ps.map Parameter.node)) ++
      .punct .closeParen :: rest) = .done ps rest [] := by
  cases ps with
  | nil => rfl
  | cons p ps =>
    have hitem : ∀ b ∈ p :: ps, ∀ mid, Ends (Recovery.isPunct .openBracket) mid →
        parameter (b.node.lexemes ++ mid) = .done b mid [] :=
      fun b hb mid hmid => parameter_done (List.all_eq_true.mp h b hb) hmid
    have hlist := separated_done p ps (.punct .closeParen :: rest) hitem rfl (ends_cons rfl)
      (ends_cons rfl)
    have hends : Ends (Recovery.isPunct .closeParen) (p.node.lexemes ++
        (ps.flatMap (fun b => .punct .comma :: b.node.lexemes) ++ .punct .closeParen :: rest)) := by
      obtain ⟨w, tail, hl⟩ := head_parameter (List.all_eq_true.mp h p (by simp))
      rw [hl]
      exact ends_cons rfl
    rw [lexemes_separated_map, List.append_assoc, parameters, onPunct_other _ _ hends,
      bind_done hlist]
    exact bind_done (require_done .closeParameters rest)

theorem brings_function {t : TypeRef} {n : Name} {ps : List Parameter} {body : List Stmt}
    (ht : t.canonical = true) (hn : n.canonical = true)
    (hps : ps.all Parameter.canonical = true) (hb : ∀ s ∈ body, Brings stmt s)
    (hc : Stmt.canonicals body = true) :
    BringsDecl (declarationOf expr stmt) (.function t n ps body) := by
  intro rest
  have hlex : (Decl.function t n ps body).node.lexemes ++ rest = t.node.lexemes ++
      .word n.word :: .punct .openParen ::
        (Item.lexemes (Item.separated .parameter (ps.map Parameter.node)) ++
          .punct .closeParen :: ((Stmt.block body).node.lexemes ++ rest)) := by
    simp [Decl.node, Node.lexemes, Item.mark, Item.lexemes, Name.node]
  have hfunction : function stmt (t.node.lexemes ++ .word n.word :: .punct .openParen ::
      (Item.lexemes (Item.separated .parameter (ps.map Parameter.node)) ++
        .punct .closeParen :: ((Stmt.block body).node.lexemes ++ rest))) =
      .done (.function t n ps body) rest [] := by
    rw [function, bind_done (typeRef_done ht _ _), bind_done (name_done hn _)]
    refine (bind_done (require_done .afterFunctionName _)).trans ?_
    refine (bind_done (parameters_done hps _)).trans ?_
    exact bind_done (block_done hb hc rest)
  obtain ⟨w, tail, hl, hcls⟩ := typeRef_head ht
  have hword : classify w ≠ .keyword := by rcases hcls with h | h <;> simp [h]
  rw [hlex]
  rw [hl, List.cons_append] at hfunction ⊢
  rw [declarationOf_word hword, hfunction]

theorem brings_includes (path : Text) :
    BringsDecl (declarationOf expr stmt) (.includes path) := by
  intro rest
  change includes (.word includeWord :: .string path :: rest) = _
  simp [includes, includePath]

end Forms

/-- Every canonical declaration comes back, given as many levels as it is deep. -/
theorem declaration_brings {levels : Nat} {d : Decl} (h : d.canonical = true)
    (hd : d.depth ≤ levels) : BringsDecl (declaration levels) d := by
  unfold declaration
  cases d with
  | shaderType t => exact brings_shaderType h
  | renderMode ts => exact brings_renderMode h
  | constant p v =>
    simp only [Decl.canonical, Bool.and_eq_true] at h
    exact brings_constantDecl h.1 h.2 hd
  | varying i p s =>
    simp only [Decl.canonical, Bool.and_eq_true] at h
    exact brings_varying h.1.1 h.1.2 h.2
  | groupUniforms g s =>
    simp only [Decl.canonical, Bool.and_eq_true] at h
    exact brings_groupUniforms h.1 h.2
  | uniform c p s hs v =>
    simp only [Decl.canonical, Bool.and_eq_true] at h
    obtain ⟨⟨⟨hp, hs⟩, hh⟩, hv⟩ := h
    exact brings_uniform hp hs hh hv hd
  | struct n ms =>
    simp only [Decl.canonical, Bool.and_eq_true, Bool.not_eq_true', List.isEmpty_eq_false_iff] at h
    exact brings_struct h.1.1 h.1.2 h.2
  | function t n ps body =>
    simp only [Decl.canonical, Bool.and_eq_true] at h
    obtain ⟨⟨⟨ht, hn⟩, hps⟩, hc⟩ := h
    exact brings_function ht hn hps (statements_bring body levels hc hd) hc
  | includes path => exact brings_includes path
  | error s => cases h

/-- Nothing is not a declaration. -/
theorem lexemes_ne_nil {levels : Nat} {d : Decl} (h : BringsDecl (declaration levels) d) :
    d.node.lexemes ≠ [] := by
  intro hl
  have hnil := h []
  rw [hl] at hnil
  simp [declaration, declarationOf] at hnil

/-- Canonical declarations come back from their lexemes. -/
theorem declarations_done {levels : Nat} {ds : List Decl} (h : ∀ d ∈ ds, d.canonical = true)
    (hd : ∀ d ∈ ds, d.depth ≤ levels) :
    declarations levels (ds.flatMap fun d => d.node.lexemes) = .done ds [] [] := by
  have hitem : ∀ d ∈ ds, ∀ mid, Ends (fun _ => false) mid →
      recoveredDecl levels (d.node.lexemes ++ mid) = .done d mid [] :=
    fun d hds mid _ => recovering_done (declaration_brings (h d hds) (hd d hds) mid)
  have hhead : ∀ d ∈ ds, ∃ l tail, d.node.lexemes = l :: tail ∧
      (fun _ : Lexeme => false) l = false ∧ (fun _ : Lexeme => false) l = false := by
    intro d hds
    obtain ⟨l, tail, hl⟩ := List.exists_cons_of_ne_nil
      (lexemes_ne_nil (declaration_brings (h d hds) (hd d hds)))
    exact ⟨l, tail, hl, rfl, rfl⟩
  have hmany := manyUntil_done ds [] hitem hhead (ends_nil _) nofun
  rw [List.append_nil] at hmany
  exact hmany

end ShaderSyntax.Grammar
