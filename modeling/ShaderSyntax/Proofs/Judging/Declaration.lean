import ShaderSyntax.Grammar.Declaration
import ShaderSyntax.Proofs.Judging.Statement

/-!
# Declarations are judged

Every declaration of a file is judged, whatever else is wrong with the file, and it uses no more
levels than the limit.
-/
namespace ShaderSyntax

open ShaderSyntax.Parser ShaderSyntax.Outcome

structure Decl.Within (levels : Nat) (d : Decl) : Prop where
  judged : d.Judged
  depth : d.depth ≤ levels

namespace Grammar

variable {expr : Parser Expr} {stmt : Parser Stmt} {levels : Nat}

theorem renderModeTerms_judged :
    renderModeTerms.Yields fun ts _ => ∀ t ∈ ts, t.Judged .renderMode := by
  intro ts
  unfold renderModeTerms
  split
  · exact (((term_judged _ _ _ _ _).separated).mono fun _ _ h => h.2) _
  · exact yields_done (by simp)

theorem name?_judged : name?.Yields fun n _ => ∀ m ∈ n, m.Judged := by
  intro ts
  unfold name?
  split
  · exact (name_judged _).bind fun n mid hn => yields_done (by simpa using hn)
  · exact yields_done (by simp)

theorem subgroup_judged :
    (onPunct .dot (name.andThen fun n => value (some n)) (value none)).Yields
      fun n _ => ∀ m ∈ n, m.Judged := by
  apply Yields.onPunct
  · exact name_judged.andThen fun n mid hn => yields_done (by simpa using hn)
  · exact yields_value fun _ => by simp

theorem hint_judged : hint.Yields fun h _ => h.Judged := by
  refine Yields.andThen (term_judged _ .hint _ _ _) ?_
  intro n mid hn
  refine Yields.onPunct .openParen ?_ (yields_value fun _ => hn) mid
  exact yields_after hintParams fun _ => yields_value fun _ => hn

theorem hints_judged : hints.Yields fun hs _ => ∀ h ∈ hs, h.Judged :=
  Yields.onPunct .colon (hint_judged.separated.mono fun _ _ h => h.2)
    (yields_value fun _ => by simp)

theorem uniform_judged (h : expr.Yields fun e _ => e.Inside levels) (scope : Option Scope) :
    (uniform scope expr).Yields fun d _ => d.Within levels := by
  refine Yields.andThen (yields_qualifier .precision) ?_
  intro p mid hp
  refine (specifier_judged mid).bind ?_
  intro s mid hs
  refine (hints_judged mid).bind ?_
  intro hs' mid hhs
  refine (initializer_judged h mid).bind ?_
  intro v mid hv
  refine yields_after _ (fun _ => yields_value fun _ => ⟨?_, ?_⟩) mid
  · exact ⟨hp, hs, hhs, fun e he => (hv e he).judged⟩
  · exact (Expr.depth?_le_iff v levels).mpr fun e he => (hv e he).depth

theorem varying_judged : varying.Yields fun d _ => d.Within levels := by
  refine Yields.andThen (yields_qualifier .interpolation) ?_
  intro i mid hi
  refine (yields_qualifier .precision mid).bind ?_
  intro p mid hp
  refine (specifier_judged mid).bind ?_
  intro s mid hs
  exact yields_after _ (fun _ => yields_value fun _ => ⟨⟨hi, hp, hs⟩, Nat.zero_le _⟩) mid

theorem groupUniforms_judged : groupUniforms.Yields fun d _ => d.Within levels := by
  refine Yields.andThen name?_judged ?_
  intro g mid hg
  refine (subgroup_judged mid).bind ?_
  intro s mid hs
  exact yields_after _ (fun _ => yields_value fun _ => ⟨⟨hg, hs⟩, Nat.zero_le _⟩) mid

theorem members_judged (n : Name) : (members n).Yields fun ms _ => ∀ m ∈ ms, m.Judged := by
  have hmember : member.Yields fun m _ => m.Judged :=
    specifier_judged.andThen fun s mid hs =>
      yields_after (require .afterMember) (fun _ => yields_value fun _ => hs) mid
  have hrec : (recovering Recovery.resumeStatement .error member).Yields fun m _ => m.Judged :=
    hmember.recovering fun _ => trivial
  intro ts
  unfold members
  split
  · exact yields_failed
  · exact hrec.manyUntil _ ts

theorem struct_judged : struct.Yields fun d _ => d.Within levels := by
  refine Yields.andThen name_judged ?_
  intro n mid hn
  refine yields_after (require .openStruct) (fun _ => ?_) mid
  refine Yields.andThen (members_judged n) ?_
  intro ms mid hms
  refine yields_after (require .closeStruct) (fun _ => ?_) mid
  exact yields_after _ fun _ => yields_value fun _ => ⟨⟨hn, hms⟩, Nat.zero_le _⟩

theorem parameter_judged : parameter.Yields fun p _ => p.Judged := by
  refine Yields.andThen (yields_qualifier .paramQualifier) ?_
  intro q mid hq
  refine (specifier_judged mid).bind ?_
  intro s mid hs
  exact yields_done ⟨hq, hs⟩

theorem parameters_judged : parameters.Yields fun ps _ => ∀ p ∈ ps, p.Judged := by
  apply Yields.onPunct
  · exact yields_value fun _ => by simp
  · refine Yields.andThen parameter_judged.separated ?_
    intro ps mid hps
    exact yields_after _ (fun _ => yields_value fun _ => hps.2) mid

theorem function_judged (h : Keeps levels stmt) :
    (function stmt).Yields fun d _ => d.Within levels := by
  refine Yields.andThen typeRef_judged ?_
  intro t mid ht
  refine (name_judged mid).bind ?_
  intro n mid hn
  refine yields_after (require .afterFunctionName) (fun _ => ?_) mid
  refine Yields.andThen parameters_judged ?_
  intro ps mid hps
  refine (block_judged h mid).bind ?_
  intro body mid hbody
  exact yields_done ⟨⟨ht, hn, hps, hbody.1⟩, hbody.2⟩

theorem includes_judged : includes.Yields fun d _ => d.Within levels := by
  intro ts
  unfold includes
  split
  · split
    · unfold includePath
      split
      · exact yields_done ⟨trivial, Nat.zero_le _⟩
      · exact yields_failed
    · exact yields_failed
  · exact yields_failed

theorem keywordDecl_judged (h : expr.Yields fun e _ => e.Inside levels) {k : Keyword}
    {p : Parser Decl} (hp : keywordDecl expr k = some p) :
    p.Yields fun d _ => d.Within levels := by
  have hscoped : ∀ scope, (scopedUniform scope expr).Yields fun d _ => d.Within levels :=
    fun scope => Yields.onKeyword .uniform (uniform_judged h (some scope)) (yields_fail _)
  unfold keywordDecl at hp
  split at hp
  · cases hp
    refine Yields.andThen (term_judged _ .shaderType _ _ _) ?_
    intro t mid ht
    exact yields_after _ (fun _ => yields_value fun _ => ⟨ht, Nat.zero_le _⟩) mid
  · cases hp
    refine Yields.andThen renderModeTerms_judged ?_
    intro ts mid hts
    exact yields_after _ (fun _ => yields_value fun _ => ⟨hts, Nat.zero_le _⟩) mid
  · cases hp
    refine Yields.andThen (constant_judged h) ?_
    rintro c mid ⟨hq, hv⟩
    exact yields_done ⟨⟨hq, hv.judged⟩, hv.depth⟩
  · cases hp
    exact varying_judged
  · cases hp
    exact groupUniforms_judged
  · cases hp
    exact uniform_judged h none
  · cases hp
    exact hscoped .wide
  · cases hp
    exact hscoped .perInstance
  · cases hp
    exact struct_judged
  · cases hp

theorem declarationOf_judged (he : expr.Yields fun e _ => e.Inside levels)
    (h : Keeps levels stmt) : (declarationOf expr stmt).Yields fun d _ => d.Within levels := by
  intro ts
  unfold declarationOf
  split
  · exact includes_judged _
  · split
    · next p hp =>
      obtain ⟨k, -, hk⟩ := Option.bind_eq_some_iff.mp hp
      exact keywordDecl_judged he hk _
    · exact function_judged h _
  · exact yields_failed

/-- All declarations of a file are judged and within the limit. -/
theorem declarations_judged (levels : Nat) :
    (declarations levels).Yields fun ds _ => ∀ d ∈ ds, d.Within levels := by
  have hdecl : (declaration levels).Yields fun d _ => d.Within levels :=
    declarationOf_judged (expression_judged levels) (statement_judged levels)
  have hrec : (recoveredDecl levels).Yields fun d _ => d.Within levels :=
    hdecl.recovering fun _ => ⟨trivial, Nat.zero_le _⟩
  exact hrec.manyUntil _

end Grammar

end ShaderSyntax
