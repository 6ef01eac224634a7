import ShaderSyntax.Proofs.Completeness.Statement
import ShaderSyntax.Proofs.Confinement
import ShaderSyntax.Proofs.Limit
import ShaderSyntax.Proofs.Requests
import ShaderSyntax.Proofs.Soundness

/-!
# Bodies that fail

The body of a branch or a loop is no statement of a row, so it is not recovered by itself: where it
fails, the statement around it fails at the same lexeme. Recovery then goes on from the same place
as it would for the body alone, since what stands before the body leaves no brace open. So one error
node covers the condition as well, and no statement is left that the body could have stood in.
-/
namespace ShaderSyntax

open ShaderSyntax.Parser ShaderSyntax.Recovery

namespace Stmt

def isError : Stmt → Bool
  | error _ => true
  | _ => false

theorem exists_error_of_kind {s : Stmt} (h : s.node.kind = .error) :
    ∃ skipped, s = error skipped := by
  cases s with
  | error skipped => exact ⟨skipped, rfl⟩
  | perform a => cases a <;> simp [node, Action.statementNode, Action.kind, Node.kind] at h
  | _ => simp [node, blockNode, Variable.node, Variable.constantNode, Node.kind] at h

end Stmt

namespace Recovery

theorem openBraces_append (depth : Nat) (xs ys : List Lexeme) :
    openBraces depth (xs ++ ys) = openBraces (openBraces depth xs) ys := by
  induction xs generalizing depth with
  | nil => rfl
  | cons l xs ih =>
    rw [List.cons_append, openBraces, openBraces]
    split
    · exact ih (depth + 1)
    · split
      · exact ih (depth - 1)
      · exact ih depth

/-- Lexemes before a production that leave no brace open make no difference to where it is given up,
unless it starts with a brace that closes none of its own. -/
theorem resumeStatement_append {head taken rest : List Lexeme} (hne : head ≠ [])
    (hopen : openBraces 0 head = 0) (hsome : taken ++ rest ≠ [])
    (hclose : (taken ++ rest).head? ≠ some (.punct .closeBrace)) :
    resumeStatement (head ++ taken) rest = resumeStatement taken rest := by
  have hskip : resumeStatement (head ++ taken) rest =
      afterStatement (openBraces 0 (head ++ taken)) rest := by
    obtain ⟨l, more, rfl⟩ := List.exists_cons_of_ne_nil hne
    rfl
  rw [hskip, openBraces_append, hopen]
  match taken, rest with
  | l :: taken, rest => rfl
  | [], [] => exact absurd rfl hsome
  | [], l :: rest =>
    have hl : l ≠ .punct .closeBrace := by simpa using hclose
    -- A production that took nothing gives up its first lexeme.
    change afterStatement 0 (l :: rest) =
      if endsStatement l then rest else afterStatement (openBraces 0 [l]) rest
    rcases brace_cases l with rfl | rfl | hb
    · rfl
    · exact absurd rfl hl
    · have hp := isPunct_of_not_brace hb
      cases hs : isPunct .semicolon l <;>
        simp [afterStatement, endsStatement, openBraces, hp.1, hp.2, hs]

end Recovery

namespace Parser

variable {α : Type}

/-- What a failure takes and what is skipped after it become one error. -/
theorem recovering_failed {resume : List Lexeme → List Lexeme → List Lexeme} {error : Skipped → α}
    {p : Parser α} {taken skipped after : List Lexeme} {problem : Problem} {found : List Finding}
    (h : p (taken ++ (skipped ++ after)) = .failed problem (skipped ++ after) found)
    (hr : resume taken (skipped ++ after) = after) :
    recovering resume error p (taken ++ (skipped ++ after)) =
      .done (error ⟨taken ++ skipped, taken.length, problem⟩) after
        [⟨problem, .error ⟨taken ++ skipped, taken.length, problem⟩,
          (taken ++ (skipped ++ after)).length, (skipped ++ after).length⟩] := by
  have hreached :
      (taken ++ (skipped ++ after)).length - (skipped ++ after).length = taken.length := by
    rw [List.length_append, Nat.add_sub_cancel]
  have hcovered : (taken ++ (skipped ++ after)).take
      ((taken ++ (skipped ++ after)).length - after.length) = taken ++ skipped := by
    rw [← List.append_assoc, take_of_rest]
  simp only [recovering, h, hreached, List.take_left, hr, hcovered]

end Parser

namespace Grammar

variable {levels : Nat} {ts rest : List Lexeme}

/-- Lexemes that are an expression by themselves are one wherever nothing that would extend it
follows. -/
theorem expression_append {e : Expr} (h : expression levels ts = .done e [] [])
    (hr : Ends extendsExpr rest) : expression levels (ts ++ rest) = .done e rest [] := by
  obtain ⟨items, hspells, ha⟩ := (expression_reads levels ts).done e [] [] h
  have hshaped := expression_yields levels ts e [] [] h
  have hinside := expression_judged levels ts e [] [] h
  have hlexemes : ts = e.lexemes := by
    rw [ha.lexemes, List.append_nil, ← hspells.lexemes]
    rfl
  have hclean : e.node.Clean := by
    refine Node.clean_of_sites _ 0 ?_
    rw [hspells.sites]
    exact ha.findings.symm
  have hadmits : ∀ child : Kind,
      Kind.admits .parenExpr .value child = decide (child.looseness ≤ 3) := fun _ => rfl
  have hwhole : e.whole = true :=
    Expr.whole_of_clean hadmits (hshaped.admitted hadmits) hclean hinside.judged
  rw [hlexemes]
  exact expression_done hwhole hinside.depth hr

/-- So are the lexemes of a variable, which end with its semicolon. -/
theorem variable_append {v : Variable} {place : Place} (hp : place.punct = .semicolon)
    (h : variableThrough place (expression levels) ts = .done v [] []) (rest : List Lexeme) :
    variableThrough place (expression levels) (ts ++ rest) = .done v rest [] := by
  obtain ⟨items, rfl, ha⟩ :=
    (variableThrough_reads (expression_reads levels) hp ts).done v [] [] h
  have hvalued := variableThrough_yields (expression_yields levels) place ts v [] [] h
  have hwithin := variableThrough_judged (expression_judged levels) place ts v [] [] h
  have hclean : Item.Clean v.items := Item.clean_of_sites _ 0 ha.findings.symm
  have hcanonical : v.canonical = true :=
    Variable.canonical_of_clean (fun _ => rfl) hvalued.node.2 hclean hwithin.judged
  rw [ha.lexemes, List.append_nil]
  exact variable_done place hp hcanonical hwithin.depth rest

/-- And so are those of an action, before the parenthesis that closes the head of a loop. -/
theorem action_append {a : Action} (h : action (expression levels) ts = .done a [] [])
    (rest : List Lexeme) :
    action (expression levels) (ts ++ .punct .closeParen :: rest) =
      .done a (.punct .closeParen :: rest) [] := by
  obtain ⟨items, rfl, ha⟩ := (action_reads (expression_reads levels) ts).done a [] [] h
  have hshaped := action_yields (expression_yields levels) ts a [] [] h
  have hwithin := action_judged (expression_judged levels) ts a [] [] h
  have hclean : Item.Clean a.items := Item.clean_of_sites _ 0 ha.findings.symm
  have hcanonical : a.canonical = true :=
    Action.canonical_of_clean hshaped.items hclean hwithin.judged
  rw [ha.lexemes, List.append_nil]
  exact action_done hcanonical hwithin.depth (.inr rfl)

/-- What a branch or a loop has before its body, each part of which can be parsed by itself. -/
inductive Heads (levels : Nat) : List Lexeme → Prop where
  | branch {c : List Lexeme} {e : Expr} : expression levels c = .done e [] [] →
    Heads levels (.word Keyword.ifThen.spelling :: .punct .openParen :: (c ++ [.punct .closeParen]))
  | whileLoop {c : List Lexeme} {e : Expr} : expression levels c = .done e [] [] →
    Heads levels
      (.word Keyword.whileLoop.spelling :: .punct .openParen :: (c ++ [.punct .closeParen]))
  | forLoop {v c u : List Lexeme} {declared : Variable} {e : Expr} {a : Action} :
    variableThrough .afterVariable (expression levels) v = .done declared [] [] →
    expression levels c = .done e [] [] → action (expression levels) u = .done a [] [] →
    Heads levels (.word Keyword.forLoop.spelling :: .punct .openParen ::
      (v ++ (c ++ .punct .semicolon :: (u ++ [.punct .closeParen]))))

theorem parenthesized_append {e : Expr} (h : expression levels ts = .done e [] [])
    (rest : List Lexeme) :
    parenthesized (expression levels) (.punct .openParen :: (ts ++ .punct .closeParen :: rest)) =
      .done e rest [] := by
  have hexpr := expression_append h (ends_cons rfl : Ends extendsExpr (.punct .closeParen :: rest))
  rw [parenthesized]
  exact (bind_done (require_done .beforeExpression _)).trans <|
    (bind_done hexpr).trans (bind_done (require_done .afterExpression rest))

/-- After its head a statement is its body, and what becomes of that. Nothing more is taken before a
closing brace. -/
theorem Heads.enters {head : List Lexeme} (h : Heads levels head) (stmt : Parser Stmt) :
    ∃ f : Stmt → Parser Stmt,
      (∀ rest, statementOf (expression levels) stmt (head ++ rest) = stmt.andThen f rest) ∧
      ∀ body, ∃ s, f body [.punct .closeBrace] = .done s [.punct .closeBrace] [] := by
  cases h with
  | @branch c e hc =>
    refine ⟨fun t => onKeyword .otherwise (stmt.andThen fun o => value (.ifElse e t o))
      (value (.ifThen e t)), fun rest => ?_, fun body => ⟨_, rfl⟩⟩
    rw [List.cons_append, List.cons_append, List.append_assoc, List.singleton_append,
      statementOf_keyword (k := .ifThen) rfl, branching, bind_done (parenthesized_append hc rest)]
    rfl
  | @whileLoop c e hc =>
    refine ⟨fun b => value (.whileLoop e b), fun rest => ?_, fun body => ⟨_, rfl⟩⟩
    rw [List.cons_append, List.cons_append, List.append_assoc, List.singleton_append,
      statementOf_keyword (k := .whileLoop) rfl, ShaderSyntax.Grammar.whileLoop,
      bind_done (parenthesized_append hc rest)]
    rfl
  | @forLoop v c u declared e a hv hc hu =>
    refine ⟨fun b => value (.forLoop declared e a b), fun rest => ?_, fun body => ⟨_, rfl⟩⟩
    have hcond := expression_append hc
      (ends_cons rfl : Ends extendsExpr (.punct .semicolon :: (u ++ .punct .closeParen :: rest)))
    simp only [List.cons_append, List.append_assoc, List.nil_append]
    rw [statementOf_keyword (k := .forLoop) rfl, ShaderSyntax.Grammar.forLoop]
    exact (bind_done (require_done .afterFor _)).trans <|
      (bind_done (variable_append rfl hv _)).trans <| (bind_done hcond).trans <|
      (bind_done (require_done .afterLoopCondition _)).trans <|
      (bind_done (action_append hu rest)).trans (bind_done (require_done .afterLoopUpdate rest))

theorem Heads.ne_nil {head : List Lexeme} (h : Heads levels head) : head ≠ [] := by
  cases h <;> exact List.cons_ne_nil _ _

/-- A head closes the braces that it opens: with a body behind it, it leads to the brace around
it. -/
theorem Heads.openBraces_eq {head : List Lexeme} (h : Heads levels head) :
    openBraces 0 head = 0 := by
  obtain ⟨f, henters, hf⟩ := h.enters (value .breakOut)
  obtain ⟨s, hs⟩ := hf .breakOut
  have hdone := (henters [.punct .closeBrace]).trans ((andThen_done rfl).trans hs)
  have hconfined : (statementOf (expression levels) (value .breakOut)).Confined 0 :=
    statementOf_confined (ranked_confined levels).1 (confined_value _)
  have hout := (hconfined _).done _ _ _ hdone
  have hopen : outside (openBraces 0 head) [.punct .closeBrace] = [.punct .closeBrace] := by
    rw [outside_openBraces (hout ▸ outside_suffix 0 _), ← hout]
    rfl
  cases hdepth : openBraces 0 head with
  | zero => rfl
  | succ depth =>
    rw [hdepth] at hopen
    cases hopen

/-- The statement is no error, whatever is left after it. -/
def Proper (s : Stmt) (_ : List Lexeme) : Prop :=
  s.isError = false

section Proper

variable {expr : Parser Expr} {stmt : Parser Stmt}

theorem branching_proper : (branching expr stmt).Yields Proper := by
  refine yields_after _ fun c => yields_after _ fun t => Yields.onKeyword .otherwise ?_ ?_
  · exact yields_after _ fun e => yields_value fun _ => rfl
  · exact yields_value fun _ => rfl

theorem whileLoop_proper : (whileLoop expr stmt).Yields Proper :=
  yields_after _ fun _ => yields_after _ fun _ => yields_value fun _ => rfl

theorem forLoop_proper : (forLoop expr stmt).Yields Proper :=
  yields_after _ fun _ => yields_after _ fun _ => yields_after _ fun _ => yields_after _ fun _ =>
    yields_after _ fun _ => yields_after _ fun _ => yields_after _ fun _ =>
      yields_value fun _ => rfl

theorem switchOn_proper : (switchOn expr stmt).Yields Proper :=
  yields_after _ fun _ => yields_after _ fun _ => yields_after _ fun _ => yields_after _ fun _ =>
    yields_after _ fun _ => yields_after _ fun _ => yields_value fun _ => rfl

theorem returnValue_proper : (returnValue expr).Yields Proper := by
  apply Yields.onPunct
  · exact yields_value fun _ => rfl
  · exact yields_after _ fun e => yields_after _ fun _ => yields_value fun _ => rfl

theorem plainStmt_proper : (plainStmt expr).Yields Proper := by
  intro ts
  unfold plainStmt
  split
  · exact yields_after _ (fun v => yields_value fun _ => rfl) ts
  · exact yields_after _ (fun a => yields_after _ fun _ => yields_value fun _ => rfl) ts

theorem keywordStmt_proper {k : Keyword} {p : Parser Stmt}
    (hp : keywordStmt expr stmt k = some p) : p.Yields Proper := by
  unfold keywordStmt at hp
  split at hp <;> cases hp
  · exact branching_proper
  · exact whileLoop_proper
  · exact forLoop_proper
  · exact switchOn_proper
  · exact returnValue_proper
  · exact yields_after _ fun _ => yields_value fun _ => rfl
  · exact yields_after _ fun _ => yields_value fun _ => rfl
  · exact yields_after _ fun c => yields_value fun _ => rfl

theorem statementOf_proper : (statementOf expr stmt).Yields Proper := by
  intro ts
  unfold statementOf
  split
  · exact yields_after _ (fun body => yields_value fun _ => rfl) _
  · split
    · next p hp =>
      obtain ⟨k, -, hk⟩ := Option.bind_eq_some_iff.mp hp
      exact keywordStmt_proper hk _
    · exact plainStmt_proper _
  · exact plainStmt_proper _

/-- No statement is an error by itself: errors are made where statements stand in a row. -/
theorem statement_proper (levels : Nat) : Parser.Yields (statement levels) Proper := by
  cases levels with
  | zero => exact yields_limit
  | succ levels => exact statementOf_proper

end Proper

/-- Where a body fails after a head, one error node covers both, and parsing goes on from where it
would after the body alone. -/
theorem recoveredStmt_append {head S after : List Lexeme} {found : List Finding} {s : Skipped}
    (h : Heads levels head) (hsome : S ≠ []) (hclose : S.head? ≠ some (.punct .closeBrace))
    (hfail : recoveredStmt (statement levels) S = .done (.error s) after found) :
    ∃ found', recoveredStmt (statement (levels + 1)) (head ++ S) =
      .done (.error ⟨head ++ s.lexemes, head.length + s.reached, s.problem⟩) after found' := by
  obtain ⟨f, henters, -⟩ := h.enters (statement levels)
  have hreads := statement_reads levels S
  unfold recoveredStmt at hfail ⊢
  cases hbody : statement levels S with
  | done a rest inner =>
    simp only [recovering, hbody] at hfail
    cases hfail
    cases statement_proper levels S _ _ _ hbody
  | tooDeep rest inner =>
    simp only [recovering, hbody] at hfail
    cases hfail
  | failed problem rest inner =>
    rw [hbody] at hreads
    have hsuffix : rest <:+ S := hreads.suffix
    obtain ⟨taken, rfl⟩ := hsuffix
    obtain ⟨skipped, hskipped⟩ := resumes_statement.suffix taken rest
    generalize hresume : resumeStatement taken rest = left at hskipped
    subst hskipped
    have hwhole : statement (levels + 1) (head ++ (taken ++ (skipped ++ left))) =
        .failed problem (skipped ++ left) inner := by
      refine (henters _).trans ?_
      simp only [Parser.andThen, hbody]
    have hafter : resumeStatement (head ++ taken) (skipped ++ left) = left :=
      (resumeStatement_append h.ne_nil h.openBraces_eq hsome hclose).trans hresume
    rw [recovering_failed hbody hresume] at hfail
    cases hfail
    rw [← List.append_assoc] at hwhole
    rw [← List.append_assoc, recovering_failed hwhole hafter, List.append_assoc,
      List.length_append]
    exact ⟨_, rfl⟩

end Grammar

/-- All lexemes are left at the first token. -/
theorem Source.index_lexemes (text : Text) :
    (ofText text).index (ofText text).lexemes.length = 0 := by
  rw [index, size_ofText, (run_lexemes text).length_eq, Nat.sub_self]

namespace Session

open ShaderSyntax.Grammar

variable {levels : Nat} {text : Text} {t : Tree}

/-- Asked for a statement, a new session gives the tree and has nothing left. -/
structure Takes (levels : Nat) (text : Text) (t : Tree) : Prop where
  tree : (start levels text).statement.1 = .ok t
  rest : (start levels text).statement.2.rest = []

/-- Whether a session takes its text as this error can be tested. -/
def takesError (levels : Nat) (text : Text) (span : Span Nat) (message : Text) : Bool :=
  match (start levels text).statement with
  | (.ok (.error s m), after) => s == span && m == message && after.rest.isEmpty
  | _ => false

theorem takes_error_iff {span : Span Nat} {message : Text} :
    Takes levels text (.error span message) ↔ takesError levels text span message = true := by
  rw [takesError]
  constructor
  · rintro ⟨htree, hrest⟩
    generalize (start levels text).statement = o at htree hrest
    obtain ⟨result, after⟩ := o
    obtain rfl : result = .ok (.error span message) := htree
    simpa using hrest
  · intro h
    split at h
    · next s m after heq =>
      simp only [Bool.and_eq_true, beq_iff_eq, List.isEmpty_iff] at h
      obtain ⟨⟨rfl, rfl⟩, hrest⟩ := h
      refine ⟨by rw [heq], ?_⟩
      rw [heq]
      exact hrest
    · cases h

instance {span : Span Nat} {message : Text} : Decidable (Takes levels text (.error span message)) :=
  decidable_of_iff _ takes_error_iff.symm

/-- The first request runs the recovered statement over all lexemes of the text. -/
theorem statement_start (levels : Nat) (hsome : (Source.ofText text).lexemes ≠ []) :
    (start levels text).statement =
      let (result, after) := release ((start levels text).told
        (recoveredStmt (Grammar.statement levels) (Source.ofText text).lexemes))
      (result.map fun s => s.node.place (Source.ofText text).locate 0, after) := by
  have hparse : Routine.loneStmt.parse (Production.parse (start levels text).free)
      (start levels text).rest =
        recoveredStmt (Grammar.statement levels) (Source.ofText text).lexemes :=
    Production.parse_loneStmt levels hsome
  rw [statement, request_eq, hparse, ← Source.index_lexemes text]
  rfl

/-- A session gives a tree for a whole text where the recovered statement gives its node. -/
theorem takes_iff (hsome : (Source.ofText text).lexemes ≠ []) :
    Takes levels text t ↔ ∃ s found,
      recoveredStmt (Grammar.statement levels) (Source.ofText text).lexemes = .done s [] found ∧
        s.node.place (Source.ofText text).locate 0 = t := by
  constructor
  · rintro ⟨htree, hrest⟩
    rw [statement_start levels hsome] at htree hrest
    cases ho : recoveredStmt (Grammar.statement levels) (Source.ofText text).lexemes with
    | done s rest found =>
      rw [ho] at htree hrest
      obtain rfl : rest = [] := hrest
      exact ⟨s, found, rfl, Except.ok.inj htree⟩
    | failed problem rest found =>
      rw [ho] at htree
      cases htree
    | tooDeep rest found =>
      rw [ho] at htree
      cases htree
  · rintro ⟨s, found, ho, rfl⟩
    constructor
    · rw [statement_start levels hsome, ho]
      rfl
    · rw [statement_start levels hsome, ho]
      rfl

theorem statement_tooDeep {rest : List Lexeme} {found : List Finding}
    (hsome : (Source.ofText text).lexemes ≠ [])
    (h : recoveredStmt (Grammar.statement levels) (Source.ofText text).lexemes =
      .tooDeep rest found) :
    (start levels text).statement.1 =
      .error (.tooDeep ((Source.ofText text).tooDeep levels rest.length)) := by
  rw [statement_start levels hsome, h]
  rfl

/-- A session that gives one error for a whole text has skipped its lexemes. -/
theorem Takes.skipped {span : Span Nat} {message : Text}
    (h : Takes levels text (.error span message)) :
    (Source.ofText text).lexemes ≠ [] ∧ ∃ skipped found,
      recoveredStmt (Grammar.statement levels) (Source.ofText text).lexemes =
        .done (.error skipped) [] found ∧
      skipped.lexemes = (Source.ofText text).lexemes ∧ skipped.problem.message = message := by
  have hsome : (Source.ofText text).lexemes ≠ [] := by
    intro hnone
    have hrest : (start levels text).rest = [] := hnone
    have htree := h.tree
    rw [statement, request_eq, hrest] at htree
    cases htree
  obtain ⟨s, found, ho, hplace⟩ := (takes_iff hsome).mp h
  obtain ⟨items, hspells, ha⟩ :=
    (recoveredStmt_reads (statement_reads levels) _ hsome).done s [] found ho
  have hkind : s.node.kind = .error := by
    rw [← Node.kind_place (Source.ofText text).locate 0, hplace]
    rfl
  obtain ⟨skipped, rfl⟩ := Stmt.exists_error_of_kind hkind
  have hcovered : Item.lexemes items = skipped.lexemes := by
    rw [← hspells.lexemes, Stmt.node, Node.lexemes]
  rw [Stmt.node, Node.place] at hplace
  refine ⟨hsome, skipped, found, ho, ?_, (Tree.error.inj hplace).2⟩
  rw [ha.lexemes, List.append_nil, hcovered]

end Session

/-- A body that fails takes its head with it: where a text is the head of a branch or a loop and a
body that is one error by itself, all of the text is one error with the same message. At the limit
of the body the text may as well meet that limit, since the body stands one level deeper. -/
theorem failing_body_takes_head {levels : Nat} {head : List Lexeme} {body whole message : Text}
    {span : Span Nat} (hhead : Grammar.Heads levels head)
    (hwhole : (Source.ofText whole).lexemes = head ++ (Source.ofText body).lexemes)
    (hclose : (Source.ofText body).lexemes.head? ≠ some (.punct .closeBrace))
    (hbody : Session.Takes levels body (.error span message)) :
    let all := (Source.ofText whole).locate 0 (Source.ofText whole).lexemes.length
    Session.Takes (levels + 1) whole (.error all message) ∧
      (Session.Takes levels whole (.error all message) ∨
        ∃ limit, (Session.start levels whole).statement.1 = .error (.tooDeep limit)) := by
  intro all
  obtain ⟨hsome, skipped, found, hdone, hlexemes, rfl⟩ := hbody.skipped
  obtain ⟨found', happend⟩ := Grammar.recoveredStmt_append hhead hsome hclose hdone
  rw [hlexemes, ← hwhole] at happend
  have hne : (Source.ofText whole).lexemes ≠ [] := by
    rw [hwhole]
    exact List.append_ne_nil_of_left_ne_nil hhead.ne_nil _
  have hplace : (Stmt.error ⟨(Source.ofText whole).lexemes, head.length + skipped.reached,
      skipped.problem⟩).node.place (Source.ofText whole).locate 0 =
      .error all skipped.problem.message := by
    rw [Stmt.node, Node.place, Nat.zero_add]
  refine ⟨(Session.takes_iff hne).mpr ⟨_, found', happend, hplace⟩, ?_⟩
  have hdeeper := Grammar.recoveredStmt_deepens (Grammar.statement_deepens levels)
    (Source.ofText whole).lexemes
  cases ho : Grammar.recoveredStmt (Grammar.statement levels) (Source.ofText whole).lexemes with
  | done s rest found =>
    rw [ho, happend] at hdeeper
    exact .inl ((Session.takes_iff hne).mpr ⟨_, found', ho.trans hdeeper.1.symm, hplace⟩)
  | failed problem rest found =>
    rw [ho, happend] at hdeeper
    cases hdeeper.1
  | tooDeep rest found =>
    exact .inr ⟨_, Session.statement_tooDeep hne ho⟩

/-- The body of a loop misses its value, and the condition goes with it. -/
theorem failing_body_takes_head_loop :
    let head : List Lexeme := [.word Keyword.whileLoop.spelling, .punct .openParen,
      .word (Text.ofString "a"), .punct .closeParen]
    let body := Text.ofString "x = ;"
    let whole := Text.ofString "while ( a ) x = ;"
    let message := Text.ofString "expected expression, got ';'"
    Grammar.Heads 3 head ∧ (Source.ofText whole).lexemes = head ++ (Source.ofText body).lexemes ∧
      (Source.ofText body).lexemes.head? ≠ some (.punct .closeBrace) ∧
      Session.Takes 3 body (.error ⟨0, 5⟩ message) ∧
      Session.Takes 4 whole (.error ⟨0, 17⟩ message) := by
  intro head body whole message
  let a := Expr.name (.valid .plain (Text.ofString "a"))
  have hcondition : Grammar.expression 3 (a.lexemes ++ []) = .done a [] [] :=
    Grammar.expression_done (by decide +kernel) (by decide +kernel) (ends_nil _)
  have hhead : Grammar.Heads 3 head := .whileLoop hcondition
  have hwhole : (Source.ofText whole).lexemes = head ++ (Source.ofText body).lexemes := by
    decide +kernel
  have hclose : (Source.ofText body).lexemes.head? ≠ some (.punct .closeBrace) := by decide +kernel
  have hbody : Session.Takes 3 body (.error ⟨0, 5⟩ message) := by decide +kernel
  have hall : (Source.ofText whole).locate 0 (Source.ofText whole).lexemes.length = ⟨0, 17⟩ := by
    decide +kernel
  exact ⟨hhead, hwhole, hclose, hbody, hall ▸ (failing_body_takes_head hhead hwhole hclose hbody).1⟩

/-- So a loop over a condition in order is not always kept where its body is one error by itself. -/
theorem loop_lost_with_body :
    ¬ ∀ (levels : Nat) (c : List Lexeme) (e : Expr) (body whole message : Text) (span : Span Nat),
      Grammar.expression levels c = .done e [] [] →
      (Source.ofText whole).lexemes = .word Keyword.whileLoop.spelling :: .punct .openParen ::
        (c ++ .punct .closeParen :: (Source.ofText body).lexemes) →
      (Source.ofText body).lexemes.head? ≠ some (.punct .closeBrace) →
      Session.Takes levels body (.error span message) →
      ∃ t, Session.Takes levels whole t ∧ t.kind = .whileStatement := by
  intro h
  let body := Text.ofString "x = ;"
  let whole := Text.ofString "while ( a ) x = ;"
  let message := Text.ofString "expected expression, got ';'"
  let a := Expr.name (.valid .plain (Text.ofString "a"))
  have hcondition : Grammar.expression 4 (a.lexemes ++ []) = .done a [] [] :=
    Grammar.expression_done (by decide +kernel) (by decide +kernel) (ends_nil _)
  have hbody : Session.Takes 4 body (.error ⟨0, 5⟩ message) := by decide +kernel
  have hlost : Session.Takes 4 whole (.error ⟨0, 17⟩ message) := by decide +kernel
  obtain ⟨t, ht, hkind⟩ :=
    h 4 _ _ body whole message _ hcondition (by decide +kernel) (by decide +kernel) hbody
  obtain rfl : t = .error ⟨0, 17⟩ message := Except.ok.inj (ht.tree.symm.trans hlost.tree)
  cases hkind

end ShaderSyntax
