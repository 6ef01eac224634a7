import ShaderSyntax.Grammar.Declaration
import ShaderSyntax.Proofs.Shape.Statement

/-!
# Declarations are in shape

A struct has a member, or the closing brace that it needs would be missing. A list of hints starts
with a hint, and the parameters of a hint are numbers with at most one sign.
-/
namespace ShaderSyntax

open ShaderSyntax.Parser ShaderSyntax.Outcome

/-- A word of a vocabulary is a leaf, so its kind is all that matters. -/
theorem Term.shaped_node (t : Term) (good bad : Kind) (hg : good.looseness = 0 ∧ good.required = [])
    (hb : bad.looseness = 0 ∧ bad.required = []) :
    (t.node good bad).kind.looseness ≤ 3 ∧ (t.node good bad).Shaped := by
  cases t with
  | known w => exact ⟨by simp [Term.node, Node.kind, hg.1], hg.2⟩
  | unknown w => exact ⟨by simp [Term.node, Node.kind, hb.1], hb.2⟩

theorem HintParam.shaped_node (p : HintParam) : p.node.kind.looseness ≤ 3 ∧ p.node.Shaped := by
  have hn := p.number.shaped_node
  unfold HintParam.node
  split
  · have ha : Kind.admits .unaryExpr .argument p.number.node.kind = true :=
      Kind.admits_of_looseness hn.1 nofun nofun
    exact ⟨(by decide : 1 ≤ 3), Node.shaped_branch rfl ⟨⟨ha, hn.2⟩, trivial⟩⟩
  · exact ⟨by omega, hn.2⟩

namespace Hint

/-- The children that are parameters are among the written ones. -/
theorem exists_param_of_mem {h : Hint} {n : Node}
    (hn : Item.child .param n ∈ paramItems h.params) : ∃ p : HintParam, n = p.node := by
  cases hp : h.params with
  | none => simp [hp, paramItems] at hn
  | some ps =>
    have hmem : Item.child .param n ∈ Item.separated .param (ps.map HintParam.node) := by
      simpa [hp, paramItems, Item.mark] using hn
    obtain ⟨p, -, rfl⟩ := List.mem_map.mp (Item.mem_of_child_mem_separated hmem)
    exact ⟨p, rfl⟩

theorem shaped_node (h : Hint) : h.node.Shaped := by
  have hname := h.name.shaped_node .hintName .invalidHint ⟨rfl, rfl⟩ ⟨rfl, rfl⟩
  refine ⟨?_, ?_⟩
  · constructor
    · simp [Kind.required]
    · intro _ n hn
      have hmem : Item.child .param n ∈ paramItems h.params := by simpa using hn
      exact exists_param_of_mem hmem
    · exact fun hk => absurd hk (by decide)
  · refine ⟨Node.admitted hname.1 hname.2 fun _ => rfl, ?_⟩
    cases h.params with
    | none => trivial
    | some ps =>
      have hps : ∀ p ∈ ps, Kind.admits .hint .param p.node.kind = true ∧ p.node.Shaped :=
        fun p _ => Node.admitted p.shaped_node.1 p.shaped_node.2 fun _ => rfl
      simpa [paramItems] using hps

/-- Written hints hold a hint. -/
theorem shaped_listNode (hs : List Hint) : ∀ n ∈ listNode? hs, n.kind.looseness ≤ 3 ∧ n.Shaped := by
  intro n hn
  cases hs with
  | nil => cases hn
  | cons h hs =>
    cases hn
    refine ⟨Nat.zero_le 3, ?_, ?_⟩
    · constructor
      · intro label hl
        obtain rfl := List.mem_singleton.mp hl
        exact ⟨h.node, Item.child_mem_separated (by simp)⟩
      · exact fun hk => absurd hk (by decide)
      · exact fun hk => absurd hk (by decide)
    · rw [Item.shaped_separated]
      intro n hn
      obtain ⟨h, -, rfl⟩ := List.mem_map.mp hn
      exact Node.admitted (Nat.zero_le 3) h.shaped_node fun _ => rfl

end Hint

theorem Member.shaped_node (m : Member) : m.node.kind.looseness ≤ 3 ∧ m.node.Shaped := by
  cases m with
  | field s =>
    have hs : Item.Shaped .structMember s.items :=
      s.shaped_items (fun _ => rfl) (fun _ => rfl) fun _ => rfl
    exact ⟨Nat.zero_le 3, Node.shaped_branch rfl ((Item.shaped_append _ _).mpr ⟨hs, trivial⟩)⟩
  | error s => exact ⟨Nat.zero_le 3, trivial⟩

theorem Parameter.shaped_node (p : Parameter) : p.node.Shaped := by
  have hs : Item.Shaped .parameter p.specifier.items :=
    p.specifier.shaped_items (fun _ => rfl) (fun _ => rfl) fun _ => rfl
  exact Node.shaped_branch rfl
    ((Item.shaped_append _ _).mpr ⟨shaped_qualifier rfl rfl p.qualifier, hs⟩)

namespace Decl

/-- No declaration is an operation. -/
theorem looseness_node (d : Decl) : d.node.kind.looseness = 0 := by
  cases d <;> rfl

theorem shaped_shaderType (t : Term) : (shaderType t).node.Shaped := by
  have ht := t.shaped_node .shaderType .invalidShaderType ⟨rfl, rfl⟩ ⟨rfl, rfl⟩
  exact Node.shaped_branch rfl ⟨Node.admitted ht.1 ht.2 fun _ => rfl, trivial⟩

theorem shaped_renderMode (ts : List Term) : (renderMode ts).node.Shaped := by
  apply Node.shaped_branch rfl
  simp only [List.cons_append, Item.shaped_keyword, Item.shaped_append, Item.shaped_separated]
  refine ⟨?_, trivial⟩
  intro n hn
  obtain ⟨t, -, rfl⟩ := List.mem_map.mp hn
  have ht := t.shaped_node .renderMode .invalidRenderMode ⟨rfl, rfl⟩ ⟨rfl, rfl⟩
  exact Node.admitted ht.1 ht.2 fun _ => rfl

theorem shaped_varying (i p : Option Text) (s : Specifier) : (varying i p s).node.Shaped := by
  apply Node.shaped_branch rfl
  have hs : Item.Shaped .varyingDeclaration [.child .specifier s.node, .mark .semicolon] :=
    ⟨Node.admitted (Nat.zero_le 3) s.shaped_node fun _ => rfl, trivial⟩
  simp only [List.cons_append, Item.shaped_keyword, Item.shaped_append]
  exact ⟨⟨shaped_qualifier rfl rfl i, shaped_qualifier rfl rfl p⟩, hs⟩

theorem shaped_groupUniforms (g s : Option Name) : (groupUniforms g s).node.Shaped := by
  apply Node.shaped_branch rfl
  have hname : ∀ (m : Option Name), ∀ n ∈ m.map Name.node, n.kind.looseness ≤ 3 ∧ n.Shaped := by
    intro m n hn
    obtain ⟨name, -, rfl⟩ := Option.map_eq_some_iff.mp hn
    exact ⟨by rw [name.shaped_node.1]; omega, name.shaped_node.2⟩
  simp only [List.cons_append, Item.shaped_keyword, Item.shaped_append, Item.shaped_child?,
    Item.shaped_marked?]
  exact ⟨⟨fun n hn => Node.admitted (hname g n hn).1 (hname g n hn).2 fun _ => rfl,
    fun n hn => Node.admitted (hname s n hn).1 (hname s n hn).2 fun _ => rfl⟩, trivial⟩

theorem shaped_uniform {v : Option Expr} (hv : ∀ e ∈ v, e.Binds 3) (c : Option Scope)
    (p : Option Text) (s : Specifier) (hs : List Hint) : (uniform c p s hs v).node.Shaped := by
  apply Node.shaped_branch rfl
  have hscope : Item.Shaped .uniformDeclaration (scopeItems c) := by cases c <;> trivial
  have hspec : Kind.admits .uniformDeclaration .specifier s.node.kind = true ∧ s.node.Shaped :=
    Node.admitted (Nat.zero_le 3) s.shaped_node fun _ => rfl
  have hhints : ∀ n ∈ Hint.listNode? hs,
      Kind.admits .uniformDeclaration .hints n.kind = true ∧ n.Shaped := fun n hn =>
    Node.admitted (Hint.shaped_listNode hs n hn).1 (Hint.shaped_listNode hs n hn).2 fun _ => rfl
  have hvalue : ∀ n ∈ v.map Expr.node,
      Kind.admits .uniformDeclaration .value n.kind = true ∧ n.Shaped := by
    intro n hn
    obtain ⟨e, he, rfl⟩ := Option.map_eq_some_iff.mp hn
    exact (hv e he).admitted fun _ => rfl
  simp only [List.cons_append, List.append_assoc, Item.shaped_keyword, Item.shaped_append,
    Item.shaped_child, Item.shaped_marked?]
  exact ⟨hscope, shaped_qualifier rfl rfl p, hspec, hhints, hvalue, trivial⟩

theorem shaped_struct (n : Name) {ms : List Member} (hne : ms ≠ []) :
    (struct n ms).node.Shaped := by
  obtain ⟨m, ms, rfl⟩ := List.exists_cons_of_ne_nil hne
  constructor
  · constructor
    · intro label hl
      obtain rfl := List.mem_singleton.mp hl
      refine ⟨m.node, ?_⟩
      have hm : Item.child .member m.node ∈ Item.children .member ((m :: ms).map Member.node) :=
        Item.child_mem_children (by simp)
      simp only [List.cons_append, List.mem_cons, List.mem_append]
      exact .inr (.inr (.inr (.inl hm)))
    · exact fun hk => absurd hk (by decide)
    · exact fun hk => absurd hk (by decide)
  · have hname : Kind.admits .structDeclaration .named n.node.kind = true ∧ n.node.Shaped :=
      Node.admitted (by rw [n.shaped_node.1]; omega) n.shaped_node.2 fun _ => rfl
    have hmembers : ∀ c ∈ (m :: ms).map Member.node,
        Kind.admits .structDeclaration .member c.kind = true ∧ c.Shaped := by
      intro c hc
      obtain ⟨m, -, rfl⟩ := List.mem_map.mp hc
      exact Node.admitted m.shaped_node.1 m.shaped_node.2 fun _ => rfl
    simp only [List.cons_append, Item.shaped_keyword, Item.shaped_child, Item.shaped_mark,
      Item.shaped_append, Item.shaped_children]
    exact ⟨hname, hmembers, trivial⟩

theorem shaped_function (t : TypeRef) (n : Name) (ps : List Parameter) {body : List Stmt}
    (h : (Stmt.block body).node.Shaped) : (function t n ps body).node.Shaped := by
  apply Node.shaped_branch rfl
  have htype : Kind.admits .functionDeclaration .functionType t.node.kind = true ∧ t.node.Shaped :=
    ⟨bne_iff_ne.mpr t.shaped_node.1, t.shaped_node.2⟩
  have hname : Kind.admits .functionDeclaration .named n.node.kind = true ∧ n.node.Shaped :=
    Node.admitted (by rw [n.shaped_node.1]; omega) n.shaped_node.2 fun _ => rfl
  have hparams : ∀ c ∈ ps.map Parameter.node,
      Kind.admits .functionDeclaration .parameter c.kind = true ∧ c.Shaped := by
    intro c hc
    obtain ⟨p, -, rfl⟩ := List.mem_map.mp hc
    exact Node.admitted (Nat.zero_le 3) p.shaped_node fun _ => rfl
  have hbody : Item.Shaped .functionDeclaration
      [.mark .closeParen, .child .body (Stmt.block body).node] :=
    ⟨Stmt.admitted h fun _ => rfl, trivial⟩
  simp only [List.cons_append, Item.shaped_child, Item.shaped_mark, Item.shaped_append,
    Item.shaped_separated]
  exact ⟨htype, hname, hparams, hbody⟩

end Decl

namespace Grammar

variable {expr : Parser Expr} {stmt : Parser Stmt}

theorem uniform_yields (h : expr.Yields fun e _ => e.Binds 3) (scope : Option Scope) :
    (uniform scope expr).Yields fun d _ => d.node.Shaped := by
  refine yields_after (qualifier .precision) fun p => ?_
  refine yields_after specifier fun s => ?_
  refine yields_after hints fun hs => ?_
  refine Yields.andThen (initializer_yields h) ?_
  intro v mid hv
  exact yields_after _ (fun _ => yields_value fun _ => Decl.shaped_uniform hv scope p s hs) mid

/-- Where the members end before a brace, there is one. -/
theorem members_yields (n : Name) :
    (members n).Yields fun ms rest => ms ≠ [] ∨ rest = [] := by
  intro ts
  unfold members
  split
  · exact yields_failed
  · next hts =>
    intro ms rest found he
    apply manyUntil_ne_nil _ he
    intro l hl
    have hne : l ≠ .punct .closeBrace := fun hc => hts (hc ▸ hl)
    simpa [Recovery.isPunct] using hne

theorem struct_yields : struct.Yields fun d _ => d.node.Shaped := by
  refine yields_after name fun n => ?_
  refine yields_after (require .openStruct) fun _ => ?_
  refine Yields.andThen (members_yields n) ?_
  rintro ms mid (hne | rfl)
  · refine yields_after (require .closeStruct) (fun _ => ?_) mid
    exact yields_after _ fun _ => yields_value fun _ => Decl.shaped_struct n hne
  · exact yields_failed

theorem function_yields (h : stmt.Yields Settled) :
    (function stmt).Yields fun d _ => d.node.Shaped := by
  refine yields_after typeRef fun t => ?_
  refine yields_after name fun n => ?_
  refine yields_after (require .afterFunctionName) fun _ => ?_
  refine yields_after parameters fun ps => ?_
  exact (block_yields h).andThen fun body mid hbody =>
    yields_done (Decl.shaped_function t n ps hbody)

theorem includes_yields : includes.Yields fun d _ => d.node.Shaped := by
  intro ts
  unfold includes
  split
  · split
    · unfold includePath
      split
      · exact yields_done (Node.shaped_branch rfl ⟨⟨rfl, rfl⟩, trivial⟩)
      · exact yields_failed
    · exact yields_failed
  · exact yields_failed

theorem keywordDecl_yields (h : expr.Yields fun e _ => e.Binds 3) {k : Keyword} {p : Parser Decl}
    (hp : keywordDecl expr k = some p) : p.Yields fun d _ => d.node.Shaped := by
  have hscoped : ∀ scope, (scopedUniform scope expr).Yields fun d _ => d.node.Shaped := fun scope =>
    Yields.onKeyword .uniform (uniform_yields h (some scope)) (yields_fail _)
  unfold keywordDecl at hp
  split at hp
  · cases hp
    refine yields_after (term _ _ _ _ _) fun t => ?_
    exact yields_after _ fun _ => yields_value fun _ => Decl.shaped_shaderType t
  · cases hp
    refine yields_after renderModeTerms fun ts => ?_
    exact yields_after _ fun _ => yields_value fun _ => Decl.shaped_renderMode ts
  · cases hp
    exact (constant_yields h).andThen fun c mid hc =>
      yields_done (hc.constantNode rfl (fun _ => rfl) (fun _ => rfl) rfl c.1)
  · cases hp
    refine yields_after (qualifier .interpolation) fun i => ?_
    refine yields_after (qualifier .precision) fun p => ?_
    refine yields_after specifier fun s => ?_
    exact yields_after _ fun _ => yields_value fun _ => Decl.shaped_varying i p s
  · cases hp
    refine yields_after name? fun g => ?_
    refine yields_after (onPunct .dot _ _) fun s => ?_
    exact yields_after _ fun _ => yields_value fun _ => Decl.shaped_groupUniforms g s
  · cases hp
    exact uniform_yields h none
  · cases hp
    exact hscoped .wide
  · cases hp
    exact hscoped .perInstance
  · cases hp
    exact struct_yields
  · cases hp

theorem declarationOf_yields (he : expr.Yields fun e _ => e.Binds 3) (h : stmt.Yields Settled) :
    (declarationOf expr stmt).Yields fun d _ => d.node.Shaped := by
  intro ts
  unfold declarationOf
  split
  · exact includes_yields _
  · split
    · next p hp =>
      obtain ⟨k, -, hk⟩ := Option.bind_eq_some_iff.mp hp
      exact keywordDecl_yields he hk _
    · exact function_yields h _
  · exact yields_failed

/-- All declarations of a file are in shape. -/
theorem declarations_yields (levels : Nat) :
    (declarations levels).Yields fun ds _ => ∀ d ∈ ds, d.node.Shaped := by
  have hdecl : (declaration levels).Yields fun d _ => d.node.Shaped :=
    declarationOf_yields (expression_yields levels) (statement_yields levels)
  have hrec : (recoveredDecl levels).Yields fun d _ => d.node.Shaped :=
    hdecl.recovering fun _ => trivial
  exact hrec.manyUntil _

end Grammar

end ShaderSyntax
