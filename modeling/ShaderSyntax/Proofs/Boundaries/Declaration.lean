import ShaderSyntax.Proofs.Boundaries.Statement
import ShaderSyntax.Proofs.Reading.Declaration

/-!
# Errors among declarations

The members of a struct are recovered as statements are. What is wrong with the rest of a
declaration makes an error of the whole, and that error ends where a statement may end, before the
next declaration, or with the file.
-/
namespace ShaderSyntax

open ShaderSyntax.Parser ShaderSyntax.Outcome

theorem Term.firm_node (t : Term) {good bad : Kind} (hg : good ≠ .error) (hb : bad ≠ .error) :
    (t.node good bad).Firm := by
  cases t with
  | known w => exact Node.firm_leaf hg _
  | unknown w => exact Node.firm_leaf hb _

theorem HintParam.firm_node (p : HintParam) : p.node.Firm := by
  unfold HintParam.node
  split
  · exact Item.Mild.firm (by simpa using p.number.firm_node _) (by decide)
  · exact p.number.firm_node

namespace Hint

theorem mild_paramItems (ps : Option (List HintParam)) : Item.Mild (paramItems ps) := by
  cases ps with
  | none => simp [paramItems]
  | some ps =>
    have hps : ∀ p ∈ ps, p.node.Held .param := fun p _ => p.firm_node _
    simpa [paramItems] using hps

theorem firm_node (h : Hint) : h.node.Firm := by
  have hname : (h.name.node .hintName .invalidHint).Firm := h.name.firm_node (by decide) (by decide)
  exact Item.Mild.firm ((Item.mild_child _ _).mpr ⟨hname _, mild_paramItems h.params⟩) (by decide)

theorem firm_listNode? (hs : List Hint) : ∀ n ∈ listNode? hs, n.Firm := by
  intro n hn
  cases hs with
  | nil => cases hn
  | cons h hs =>
    cases hn
    apply Item.Mild.firm _ (by decide)
    rw [Item.mild_separated]
    intro n hn
    obtain ⟨h, -, rfl⟩ := List.mem_map.mp hn
    exact h.firm_node _

end Hint

theorem Member.firm_field (s : Specifier) : (field s).node.Firm :=
  Item.Mild.firm (by simpa using s.mild_items) (by decide)

theorem Parameter.firm_node (p : Parameter) : p.node.Firm := by
  apply Item.Mild.firm _ (by decide)
  have hq : Item.Mild (Item.child? .qualifier (p.qualifier.map (qualifierNode .paramQualifier))) :=
    (Item.mild_child? _).mpr (held_qualifierNode (by decide) _)
  exact (Item.mild_append _ _).mpr ⟨hq, p.specifier.mild_items⟩

namespace Decl

theorem firm_shaderType (t : Term) : (shaderType t).node.Firm := by
  have ht : (t.node .shaderType .invalidShaderType).Firm := t.firm_node (by decide) (by decide)
  exact Item.Mild.firm (by simpa using ht _) (by decide)

theorem firm_renderMode (ts : List Term) : (renderMode ts).node.Firm := by
  have hts : ∀ t ∈ ts, (t.node .renderMode .invalidRenderMode).Held .renderMode :=
    fun t _ => t.firm_node (by decide) (by decide) _
  exact Item.Mild.firm (by simpa using hts) (by decide)

theorem firm_varying (i p : Option Text) (s : Specifier) : (varying i p s).node.Firm := by
  apply Item.Mild.firm _ (by decide)
  simp only [List.cons_append, Item.mild_keyword, Item.mild_append, Item.mild_child?,
    Item.mild_child, Item.mild_mark, Item.mild_nil, and_true]
  exact ⟨⟨held_qualifierNode (by decide) i, held_qualifierNode (by decide) p⟩, s.firm_node _⟩

theorem firm_groupUniforms (g s : Option Name) : (groupUniforms g s).node.Firm := by
  have hname : ∀ (m : Option Name), ∀ n ∈ m.map Name.node, n.Firm := by
    intro m n hn
    obtain ⟨name, -, rfl⟩ := Option.map_eq_some_iff.mp hn
    exact name.firm_node
  apply Item.Mild.firm _ (by decide)
  simp only [List.cons_append, Item.mild_keyword, Item.mild_append, Item.mild_child?,
    Item.mild_marked?, Item.mild_mark, Item.mild_nil, and_true]
  exact ⟨fun n hn => hname g n hn _, fun n hn => hname s n hn _⟩

theorem firm_uniform {v : Option Expr} (hv : ∀ e ∈ v, e.node.Mild) (c : Option Scope)
    (p : Option Text) (s : Specifier) (hs : List Hint) : (uniform c p s hs v).node.Firm := by
  have hscope : Item.Mild (scopeItems c) := by cases c <;> simp [scopeItems]
  apply Item.Mild.firm _ (by decide)
  simp only [List.cons_append, List.append_assoc, Item.mild_keyword, Item.mild_append,
    Item.mild_child?, Item.mild_marked?, Item.mild_child, Item.mild_mark, Item.mild_nil, and_true]
  exact ⟨hscope, held_qualifierNode (by decide) p, s.firm_node _,
    fun n hn => Hint.firm_listNode? hs n hn _, Expr.held_value? hv⟩

/-- A struct whose members are in order up to its closing brace. -/
theorem firm_struct (n : Name) {ms : List Member}
    (h : Item.Fenced .structDeclaration (Item.children .member (ms.map Member.node) ++
      [.mark .closeBrace, .mark .semicolon])) : (struct n ms).node.Firm := by
  have hhead : Item.Mild [.keyword .struct, .child .named n.node, .mark .openBrace] := by
    simpa using n.firm_node _
  exact Node.firm_branch (by decide) (hhead.fenced_append h)

theorem firm_function (t : TypeRef) (n : Name) (ps : List Parameter) {body : List Stmt}
    (h : (Stmt.block body).node.Firm) : (function t n ps body).node.Firm := by
  have hps : ∀ m ∈ ps.map Parameter.node, m.Held .parameter := by
    intro m hm
    obtain ⟨p, -, rfl⟩ := List.mem_map.mp hm
    exact p.firm_node _
  apply Item.Mild.firm _ (by decide)
  simp only [List.cons_append, Item.mild_child, Item.mild_mark, Item.mild_append,
    Item.mild_separated, Item.mild_nil, and_true]
  exact ⟨t.firm_node _, n.firm_node _, hps, h _⟩

theorem firm_includes (path : Text) : (includes path).node.Firm := by
  have hfile : (Node.leaf .string (.string path)).Firm := Node.firm_leaf (by decide) _
  exact Item.Mild.firm (by simpa using hfile _) (by decide)

end Decl

namespace Grammar

variable {expr : Parser Expr} {stmt : Parser Stmt}

theorem uniform_firm (h : expr.Yields fun e _ => e.node.Mild) (scope : Option Scope) :
    (uniform scope expr).Yields fun d _ => d.node.Firm := by
  refine yields_after (qualifier .precision) fun p => ?_
  refine yields_after specifier fun s => ?_
  refine yields_after hints fun hs => ?_
  refine Yields.andThen (initializer_mild h) ?_
  intro v mid hv
  exact yields_after _ (fun _ => yields_value fun _ => Decl.firm_uniform hv scope p s hs) mid

/-- A member that fails ends at a boundary. -/
theorem members_fenced (n : Name) :
    (members n).Yields fun ms _ => Item.Fenced .structDeclaration
      (Item.children .member (ms.map Member.node) ++ [.mark .closeBrace, .mark .semicolon]) := by
  have hmember : member.Yields fun m after => m.node.Recovered after :=
    yields_after specifier fun s => yields_after _ fun _ =>
      yields_value fun _ => .inl (Member.firm_field s)
  have hrec : (recovering Recovery.resumeStatement .error member).Yields
      fun m after => m.node.Recovered after :=
    yields_recovering_reaches hmember (fun ts => (member_reads ts).suffix)
      Recovery.reaches_statement fun s after ht => .inr ⟨s, rfl, ht⟩
  intro ts
  unfold members
  split
  · exact yields_failed
  · exact yields_manyUntil_fenced .structDeclaration .member
      (member_reads.recovering Recovery.resumes_statement fun _ => rfl) rfl (.inr rfl) rfl trivial
      hrec ts

theorem struct_firm : struct.Yields fun d _ => d.node.Firm := by
  refine yields_after name fun n => ?_
  refine yields_after (require .openStruct) fun _ => ?_
  refine Yields.andThen (members_fenced n) ?_
  intro ms mid hms
  refine yields_after (require .closeStruct) (fun _ => ?_) mid
  exact yields_after _ fun _ => yields_value fun _ => Decl.firm_struct n hms

theorem function_firm (hr : stmt.ReadsNode Stmt.node) (h : stmt.Yields fun s _ => s.node.Firm) :
    (function stmt).Yields fun d _ => d.node.Firm := by
  refine yields_after typeRef fun t => ?_
  refine yields_after name fun n => ?_
  refine yields_after (require .afterFunctionName) fun _ => ?_
  refine yields_after parameters fun ps => ?_
  exact (block_firm hr h).andThen fun body mid hbody =>
    yields_done (Decl.firm_function t n ps hbody)

theorem includes_firm : includes.Yields fun d _ => d.node.Firm := by
  intro ts
  unfold includes
  split
  · split
    · unfold includePath
      split
      · exact yields_done (Decl.firm_includes _)
      · exact yields_failed
    · exact yields_failed
  · exact yields_failed

theorem keywordDecl_firm (h : expr.Yields fun e _ => e.node.Mild) {k : Keyword} {p : Parser Decl}
    (hp : keywordDecl expr k = some p) : p.Yields fun d _ => d.node.Firm := by
  have hscoped : ∀ scope, (scopedUniform scope expr).Yields fun d _ => d.node.Firm := fun scope =>
    Yields.onKeyword .uniform (uniform_firm h (some scope)) (yields_fail _)
  unfold keywordDecl at hp
  split at hp <;> cases hp
  · refine yields_after (term _ _ _ _ _) fun t => ?_
    exact yields_after _ fun _ => yields_value fun _ => Decl.firm_shaderType t
  · refine yields_after renderModeTerms fun ts => ?_
    exact yields_after _ fun _ => yields_value fun _ => Decl.firm_renderMode ts
  · exact (constant_mild h).andThen fun c mid hc =>
      yields_done (Variable.firm_constantNode (by decide) hc c.1)
  · refine yields_after (qualifier .interpolation) fun i => ?_
    refine yields_after (qualifier .precision) fun p => ?_
    refine yields_after specifier fun s => ?_
    exact yields_after _ fun _ => yields_value fun _ => Decl.firm_varying i p s
  · refine yields_after name? fun g => ?_
    refine yields_after (onPunct .dot _ _) fun s => ?_
    exact yields_after _ fun _ => yields_value fun _ => Decl.firm_groupUniforms g s
  · exact uniform_firm h none
  · exact hscoped .wide
  · exact hscoped .perInstance
  · exact struct_firm

theorem declaration_firm (levels : Nat) :
    (declaration levels).Yields fun d _ => d.node.Firm := by
  have he := (ranked_mild levels).1
  have hr : Parser.ReadsNode (statement levels) Stmt.node := statement_reads levels
  intro ts
  unfold declaration declarationOf
  split
  · exact includes_firm _
  · split
    · next p hp =>
      obtain ⟨k, -, hk⟩ := Option.bind_eq_some_iff.mp hp
      exact keywordDecl_firm he hk _
    · exact function_firm hr (statement_firm levels) _
  · exact yields_failed

/-- The declarations of a file: firm, or an error up to a boundary. -/
theorem declarations_recovered (levels : Nat) (label : Label) :
    (declarations levels).Yields fun ds _ => ∀ before d after, ds = before ++ d :: after →
      d.node.Firm ∨ ∃ s, d = .error s ∧ (s.EndsStatement ∨
        ∀ l ∈ (Item.lexemes (Item.children label (after.map Decl.node))).head?,
          Recovery.startsDeclaration l = true) := by
  have hrec : (recoveredDecl levels).Yields fun d mid => d.node.Firm ∨
      ∃ s, d = .error s ∧ Recovery.Through Recovery.startsDeclaration s.lexemes mid :=
    yields_recovering_reaches ((declaration_firm levels).mono fun _ _ hd => .inl hd)
      (fun ts => (declarationOf_reads (expression_reads levels) (statement_reads levels) ts).suffix)
      Recovery.reaches_declaration fun s after ht => .inr ⟨s, rfl, ht⟩
  have heach : (recoveredDecl levels).Yields fun d mid => ∀ rest,
      Follows (fun _ => false) [] mid rest → d.node.Firm ∨ ∃ s, d = .error s ∧ (s.EndsStatement ∨
        ∀ l ∈ (Item.lexemes rest).head?, Recovery.startsDeclaration l = true) := by
    refine hrec.mono ?_
    rintro d mid (hd | ⟨s, rfl, ht⟩) rest hf
    · exact .inl hd
    · refine .inr ⟨s, rfl, ht.imp_right fun hmid => ?_⟩
      rcases hf with rfl | ⟨l, hl, -, hrest⟩
      · simp [Item.lexemes]
      · rw [hrest]
        simpa using hmid l hl
  intro ts ds rest found hd before d after heq
  simpa using yields_manyUntil_each label (recoveredDecl_reads levels) heach ts ds rest found hd
    before d after heq

end Grammar

end ShaderSyntax
