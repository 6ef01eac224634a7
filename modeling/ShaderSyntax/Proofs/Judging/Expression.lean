import ShaderSyntax.Grammar.Expression
import ShaderSyntax.Proofs.Judging
import ShaderSyntax.Proofs.Yielding

/-!
# Expressions are judged

Each production yields judged syntax, and an expression no deeper than its levels. Whether a word is
called shows in the lexeme after it, and only the word that starts an expression looks there: what a
suffix made of it is judged the same way wherever it stands.
-/
namespace ShaderSyntax

open ShaderSyntax.Parser ShaderSyntax.Outcome

/-- Judged where nothing calls it, with at most so many levels below it. -/
structure Expr.Within (levels : Nat) (e : Expr) : Prop where
  judged : e.Judged false
  depth : e.depth ≤ levels

/-- Judged, and within the levels together with the one that it takes itself. -/
structure Expr.Inside (levels : Nat) (e : Expr) : Prop where
  judged : e.Judged false
  depth : e.depth < levels

/-- Judged wherever it stands, with at most so many levels below it. -/
structure Expr.Compound (levels : Nat) (e : Expr) : Prop where
  judged : ∀ called, e.Judged called
  depth : e.depth ≤ levels

theorem Expr.Compound.within {levels : Nat} {e : Expr} (h : e.Compound levels) :
    e.Within levels :=
  ⟨h.judged false, h.depth⟩

theorem Expr.Within.inside {levels : Nat} {e : Expr} (h : e.Within levels) :
    e.Inside (levels + 1) :=
  ⟨h.judged, Nat.lt_succ_of_le h.depth⟩

/-- The lexeme that starts the arguments of a call is next. -/
def opensCall (rest : List Lexeme) : Bool :=
  rest.head? == some (.punct .openParen)

theorem Parser.yields_qualifier (cls : WordClass) :
    (qualifier cls).Yields fun q _ => canonicalQualifier cls q = true := by
  intro ts
  unfold qualifier
  split
  · split
    · next hw => exact yields_done (by simp [canonicalQualifier, hw])
    · exact yields_done rfl
  · exact yields_done rfl

namespace Grammar

section Specifiers

theorem name_eq_ofWord {ts rest : List Lexeme} {n : Name} {found : List Finding}
    (h : name ts = .done n rest found) : ts = .word n.word :: rest ∧ n.Judged := by
  unfold name at h
  split at h
  · next w mid =>
    have hn : n = .ofWord w ∧ mid = rest := by
      unfold Name.ofWord
      by_cases hw : (classify w).isName = true
      · simp_all
      · simp_all
    obtain ⟨rfl, rfl⟩ := hn
    exact ⟨by rw [Name.word_ofWord], Name.judged_ofWord w⟩
  · cases h

theorem name_judged : name.Yields fun n _ => n.Judged :=
  fun _ _ _ _ h => (name_eq_ofWord h).2

theorem baseType_judged : baseType.Yields fun t _ => t.Judged := by
  intro ts
  unfold baseType
  split
  · next w rest =>
    have hw := TypeRef.judged_ofWord w
    unfold TypeRef.ofWord at hw
    dsimp only
    split
    · next hr => exact yields_done (by simpa only [hr] using hw)
    · next hr => exact yields_done (by simpa only [hr] using hw)
    · next hr => exact yields_done (by simpa only [hr] using hw)
  · exact yields_failed

theorem typeRef_judged : typeRef.Yields fun t _ => t.Judged :=
  baseType_judged.andThen fun _ mid ht => yields_done (ht.foldl_array (sizeSuffixes mid).1)

theorem specifier_judged : specifier.Yields fun s _ => s.Judged := by
  refine Yields.andThen typeRef_judged ?_
  intro t mid ht
  refine (name_judged mid).bind ?_
  intro n mid hn
  exact yields_after arraySizes (fun _ => yields_value fun _ => ⟨ht, hn⟩) mid

theorem term_judged (wanted : Wanted) (cls : WordClass) (good bad : Kind)
    (problem : Text → Problem) :
    (term wanted cls good bad problem).Yields fun t _ => t.Judged cls := by
  intro ts
  unfold term
  split
  · next w rest =>
    have hw := Term.judged_ofWord cls w
    unfold Term.ofWord at hw
    split
    · next hc => exact yields_done (by simpa only [hc, if_true] using hw)
    · next hc => exact yields_done (by simpa only [hc, if_false] using hw)
  · exact yields_failed

end Specifiers

section Expressions

variable {expr operand : Parser Expr} {levels : Nat}

theorem argument_judged (h : expr.Yields fun e _ => e.Inside levels) :
    (argument expr).Yields fun e _ => e.Inside levels := by
  refine Yields.andThen (yields_qualifier .paramQualifier) ?_
  intro q mid hq
  refine (h mid).bind ?_
  intro e rest he
  cases q with
  | none => exact yields_done he
  | some w =>
    have hw : classify w = .paramQualifier := by simpa [canonicalQualifier] using hq
    refine yields_done ⟨?_, ?_⟩
    · simp only [Expr.Judged]
      exact ⟨hw, he.judged⟩
    · simpa only [Expr.depth] using he.depth

theorem arguments_judged (h : expr.Yields fun e _ => e.Inside levels) :
    (arguments expr).Yields fun es _ => ∀ e ∈ es, e.Inside levels := by
  apply Yields.onPunct
  · exact yields_value fun _ => by simp
  · refine Yields.andThen (argument_judged h).separated ?_
    intro es mid hes
    exact yields_after _ (fun _ => yields_value fun _ => hes.2) mid

theorem parenthesized_judged (h : expr.Yields fun e _ => e.Inside levels) :
    (parenthesized expr).Yields fun e _ => e.Inside levels := by
  apply yields_after
  intro _
  refine Yields.andThen h ?_
  intro e mid he
  exact yields_after _ (fun _ => yields_value fun _ => he) mid

theorem elements_judged (h : expr.Yields fun e _ => e.Inside levels) :
    (elements expr).Yields fun es _ => ∀ e ∈ es, e.Inside levels := by
  refine Yields.andThen h.separated ?_
  intro es mid hes
  exact yields_after _ (fun _ => yields_value fun _ => hes.2) mid

/-- What starts an expression is judged by whether a call follows. -/
def Begins (levels : Nat) (e : Expr) (rest : List Lexeme) : Prop :=
  e.Judged (opensCall rest) ∧ e.depth ≤ levels

theorem wordExpr_judged (w : Text) (ts : List Lexeme) :
    (wordExpr w (.word w :: ts)).Yields (Begins levels) := by
  unfold wordExpr
  split
  · exact yields_done (by simp [Begins, Expr.Judged, Expr.depth])
  · next hb =>
    split
    · next hw =>
      have hnext : opensCall ts = true := by
        simpa [opensCall, List.head?_eq_getElem?] using hw.2
      exact yields_done (by simp [Begins, Expr.Judged, Expr.depth, hw.1, hnext])
    · next hw =>
      intro e rest found he
      obtain ⟨n, mid, first, last, hn, hv, -⟩ := andThen_eq_done_iff.mp he
      cases hv
      obtain ⟨hts, hj⟩ := name_eq_ofWord hn
      obtain ⟨hword, rfl⟩ : w = n.word ∧ ts = rest := by simpa using hts
      refine ⟨?_, by simp [Expr.depth]⟩
      simp only [Expr.Judged]
      refine ⟨hj, hword ▸ hb, ?_⟩
      intro hcall hc
      have hnext : ts.head? = some (.punct .openParen) := by simpa [opensCall] using hcall
      rw [List.head?_eq_getElem?] at hnext
      exact hw ⟨hword ▸ hc, by simpa using hnext⟩

theorem begins_number (n : Number) (rest : List Lexeme) : Begins levels (.number n) rest :=
  ⟨Expr.judged_number _ n, by simp [Expr.depth]⟩

theorem begins_error (s : Skipped) (rest : List Lexeme) : Begins levels (.error s) rest :=
  ⟨Expr.judged_error _ s, by simp [Expr.depth]⟩

theorem primary_judged (h : expr.Yields fun e _ => e.Inside levels) :
    (primary expr).Yields (Begins levels) := by
  intro ts
  unfold primary
  split
  · exact yields_failed
  · exact yields_done (begins_number _ _)
  · exact yields_done (begins_number _ _)
  · exact wordExpr_judged _ _
  · refine (parenthesized_judged h _).bind ?_
    intro e mid he
    refine yields_done ⟨?_, ?_⟩
    · simpa only [Expr.Judged] using he.judged
    · simpa only [Expr.depth] using Nat.succ_le_of_lt he.depth
  · refine (elements_judged h _).bind ?_
    intro es mid hes
    refine yields_done ⟨?_, ?_⟩
    · simpa only [Expr.Judged, Expr.judgeds_iff] using fun e he => (hes e he).judged
    · simpa only [Expr.depth, Expr.depths_le_iff] using fun e he => (hes e he).depth
  · split
    · exact yields_failed
    · exact yields_done (begins_error _ _)
  · exact yields_done (begins_error _ _)

theorem suffix_judged (h : expr.Yields fun e _ => e.Inside levels) (e : Expr) (l : Lexeme)
    (q : Parser Expr) (he : e.Judged (opensCall [l])) (hd : e.depth ≤ levels)
    (hq : suffix expr e l = some q) : q.Yields fun e _ => e.Compound levels := by
  unfold suffix at hq
  split at hq
  · cases hq
    refine Yields.andThen (arguments_judged h) ?_
    intro es mid hes
    refine yields_done ⟨?_, ?_⟩
    · intro called
      simp only [Expr.Judged, Expr.judgeds_iff]
      exact ⟨he, fun e he => (hes e he).judged⟩
    · simp only [Expr.depth, Nat.max_le, Expr.depths_le_iff]
      exact ⟨hd, fun e he => (hes e he).depth⟩
  · cases hq
    refine Yields.andThen h ?_
    intro i mid hi
    refine yields_after _ (fun _ => yields_value fun _ => ⟨?_, ?_⟩) mid
    · intro called
      simp only [Expr.Judged]
      exact ⟨he, hi.judged⟩
    · simp only [Expr.depth, Nat.max_le]
      exact ⟨hd, hi.depth⟩
  · cases hq
    refine Yields.andThen name_judged ?_
    intro n mid hn
    refine yields_done ⟨?_, ?_⟩
    · intro called
      simp only [Expr.Judged]
      exact ⟨he, hn⟩
    · simpa only [Expr.depth] using hd
  · cases hq

/-- A lexeme that starts no suffix is no opening parenthesis. -/
theorem opensCall_of_suffix {e : Expr} {l : Lexeme} (h : suffix expr e l = none)
    (rest : List Lexeme) : opensCall (l :: rest) = false := by
  by_cases hl : l = .punct .openParen
  · subst hl
    cases h
  · simpa [opensCall] using hl

theorem suffixed_judged (h : expr.Yields fun e _ => e.Inside levels) :
    (suffixed expr).Yields fun e _ => e.Within levels := by
  refine Yields.andThen (primary_judged h) ?_
  rintro e mid ⟨hj, hd⟩
  have hstep : ∀ e l q, Expr.Compound levels e → suffix expr e l = some q →
      q.Yields fun e _ => e.Compound levels :=
    fun e l q he hq => suffix_judged h e l q (he.judged _) he.depth hq
  cases mid with
  | nil => exact yields_done ⟨hj, hd⟩
  | cons l mid =>
    cases hs : suffix expr e l with
    | none =>
      rw [opensCall_of_suffix hs] at hj
      have hstay : grow (suffix expr) e (l :: mid) = .done e (l :: mid) [] := by
        simp [grow, inRounds, growWithin, hs]
      rw [hstay]
      exact yields_done ⟨hj, hd⟩
    | some q =>
      exact (yields_grow_first hstep hs (suffix_judged h e l q hj hd hs) mid).mono
        fun e _ he => he.within

theorem operation_judged (h : operand.Yields fun e _ => e.Within levels) (e : Expr) (l : Lexeme)
    (q : Parser Expr) (he : e.Within levels) (hq : operation operand e l = some q) :
    q.Yields fun e _ => e.Within levels := by
  unfold operation at hq
  split at hq
  · obtain ⟨op, -, rfl⟩ := Option.map_eq_some_iff.mp hq
    refine Yields.andThen h ?_
    intro r mid hr
    refine yields_done ⟨?_, ?_⟩
    · simp only [Expr.Judged]
      exact ⟨he.judged, hr.judged⟩
    · simp only [Expr.depth, Nat.max_le]
      exact ⟨he.depth, hr.depth⟩
  · cases hq

theorem chain_judged (h : operand.Yields fun e _ => e.Within levels) :
    (chain operand).Yields fun e _ => e.Within levels :=
  h.andThen fun e mid he => Yields.grow (operation_judged h) e he mid

theorem conditional_judged (ho : operand.Yields fun e _ => e.Within levels)
    (h : expr.Yields fun e _ => e.Inside levels) :
    (conditional operand expr).Yields fun e _ => e.Within levels := by
  refine Yields.andThen (chain_judged ho) ?_
  intro c mid hc
  refine Yields.onPunct .question ?_ (yields_value fun _ => hc) mid
  refine Yields.andThen h ?_
  intro t mid ht
  refine yields_after _ (fun _ => ?_) mid
  refine Yields.andThen h ?_
  intro e mid he
  refine yields_done ⟨?_, ?_⟩
  · simp only [Expr.Judged]
    exact ⟨hc.judged, ht.judged, he.judged⟩
  · simp only [Expr.depth, Nat.max_le]
    exact ⟨hc.depth, ht.depth, he.depth⟩

theorem signed_judged (h : operand.Yields fun e _ => e.Within levels) (op : UnaryOp) :
    (signed operand op).Yields fun e _ => e.Within (levels + 1) := by
  have hop : (operand.andThen fun e => value (Expr.unary op e)).Yields
      fun e _ => e.Within (levels + 1) := by
    refine Yields.andThen h ?_
    intro e mid he
    refine yields_done ⟨?_, ?_⟩
    · simpa only [Expr.Judged] using he.judged
    · simpa only [Expr.depth] using Nat.succ_le_succ he.depth
  exact fun ts => (yields_any skip ts).bind fun _ mid _ => hop mid

theorem unsignedOr_judged {sign : UnaryOp → Parser Expr}
    (hs : ∀ op, (sign op).Yields fun e _ => e.Within levels)
    (h : expr.Yields fun e _ => e.Inside levels) :
    (unsignedOr sign expr).Yields fun e _ => e.Within levels := by
  intro ts
  unfold unsignedOr
  split
  · split
    · exact hs _ _
    · exact suffixed_judged h _
  · exact suffixed_judged h _

/-- Whatever levels are left, expressions and operands are judged and use no more of them. -/
theorem ranked_judged (levels : Nat) :
    ((expression levels).Yields fun e _ => e.Inside levels) ∧
      (Grammar.operand levels).Yields fun e _ => e.Within levels := by
  induction levels with
  | zero => exact ⟨yields_limit, unsignedOr_judged (fun _ => yields_limit) yields_limit⟩
  | succ levels ih =>
    have he : (expression (levels + 1)).Yields fun e _ => e.Inside (levels + 1) :=
      (conditional_judged ih.2 ih.1).mono fun e _ h => h.inside
    exact ⟨he, unsignedOr_judged (signed_judged ih.2) he⟩

theorem expression_judged (levels : Nat) :
    (expression levels).Yields fun e _ => e.Inside levels :=
  (ranked_judged levels).1

end Expressions

end Grammar

end ShaderSyntax
