import ShaderSyntax.Grammar.Statement
import ShaderSyntax.Proofs.Completeness.Expression

/-!
# Statements come back

A statement is told by its first lexemes: a brace, a keyword, or a type and a name. What is left is
an expression, and no expression looks like a type and a name. An `else` belongs to the nearest
`if`, so a statement that ends with an open `if` comes back only where no `else` follows.
-/
namespace ShaderSyntax.Grammar

open ShaderSyntax.Parser

/-- After the sizes that the rest may start with, no word follows. -/
def Calm (rest : List Lexeme) : Prop :=
  ∀ w more, (sizeSuffixes rest).2 ≠ .word w :: more

theorem calm_punct {p : Punct} (hp : p ≠ .openBracket) (rest : List Lexeme) :
    Calm (.punct p :: rest) := by
  intro w more h
  have hs : sizeSuffixes (.punct p :: rest) = ([], .punct p :: rest) := by
    rw [sizeSuffixes]
    rintro n rest' he
    cases he
    exact hp rfl
  rw [hs] at h
  cases h

theorem startsVariable_word (w : Text) {rest : List Lexeme} (h : Calm rest) :
    startsVariable (.word w :: rest) = false := by
  simp only [startsVariable]
  split
  · next heq => exact absurd heq (h _ _)
  · rfl

/-- A subscript may look like a size, but then nothing but its number stands in it. -/
theorem calm_subscript {i : Expr} (hi : i.whole = true) {tail : List Lexeme} (h : Calm tail) :
    Calm (.punct .openBracket :: (i.lexemes ++ .punct .closeBracket :: tail)) := by
  by_cases hsize : ∃ n rest, i.lexemes ++ .punct .closeBracket :: tail =
      .int n :: .punct .closeBracket :: rest
  · obtain ⟨n, rest, he⟩ := hsize
    -- The number alone is an expression, so both readings end at the same bracket.
    have hnumber : expression (i.depth + 1) (.int n :: .punct .closeBracket :: rest) =
        .done (.number (.int n)) (.punct .closeBracket :: rest) [] :=
      (back_number (.int n)).whole rfl (i.depth + 1) _ (Nat.succ_pos _) (ends_cons rfl)
    have hindex := expression_done hi (Nat.lt_succ_self i.depth)
      (ends_cons rfl : Ends extendsExpr (.punct .closeBracket :: tail))
    rw [he, hnumber] at hindex
    injection hindex with _ hrest
    injection hrest with _ hrest
    rw [he, hrest]
    exact h
  · intro w more hw
    have hs : sizeSuffixes (.punct .openBracket :: (i.lexemes ++ .punct .closeBracket :: tail)) =
        ([], .punct .openBracket :: (i.lexemes ++ .punct .closeBracket :: tail)) := by
      rw [sizeSuffixes]
      rintro n rest he
      injection he with _ he
      exact hsize ⟨n, rest, he⟩
    rw [hs] at hw
    cases hw

/-- What starts with an expression does not start with a type and a name. -/
theorem startsVariable_expr : ∀ e : Expr, e.isFull = true ∨ e.isCallee = true →
    e.canonical = true → ∀ tail, Calm tail → startsVariable (e.lexemes ++ tail) = false
  | .name n, _, _, tail, ht => startsVariable_word n.word ht
  | .number (.int _), _, _, _, _ => rfl
  | .number (.float _), _, _, _, _ => rfl
  | .bool b, _, _, tail, ht => startsVariable_word (boolText b) ht
  | .typeName w, _, _, tail, ht => startsVariable_word w ht
  | .paren _, _, _, _, _ => rfl
  | .array _, _, _, _, _ => rfl
  | .call f es, _, h, tail, _ => by
    simp only [Expr.canonical, Bool.and_eq_true] at h
    obtain ⟨⟨⟨hf, hcf⟩, -⟩, -⟩ := h
    have ih := startsVariable_expr f (.inr hf) hcf
    cases es with
    | nil =>
      rw [Expr.lexemes_call_nil, List.append_assoc]
      exact ih _ (calm_punct (by decide) _)
    | cons e es =>
      rw [Expr.lexemes_call_cons, List.append_assoc]
      exact ih _ (calm_punct (by decide) _)
  | .subscript e i, _, h, tail, ht => by
    simp only [Expr.canonical, Bool.and_eq_true] at h
    obtain ⟨⟨⟨he, hce⟩, hi⟩, hci⟩ := h
    rw [Expr.lexemes_subscript, List.append_assoc, List.cons_append, List.append_assoc]
    exact startsVariable_expr e (.inr (Expr.isCallee_of_isSuffixed he)) hce _
      (calm_subscript (by simp [Expr.whole, hi, hci]) ht)
  | .member e n, _, h, tail, _ => by
    simp only [Expr.canonical, Bool.and_eq_true] at h
    obtain ⟨⟨he, hce⟩, -⟩ := h
    rw [Expr.lexemes_member, List.append_assoc]
    exact startsVariable_expr e (.inr (Expr.isCallee_of_isSuffixed he)) hce _
      (calm_punct (by decide) _)
  | .unary op e, _, _, tail, _ => by
    rw [Expr.lexemes_unary]
    rfl
  | .binary op l r, _, h, tail, _ => by
    simp only [Expr.canonical, Bool.and_eq_true] at h
    obtain ⟨⟨⟨hl, hcl⟩, -⟩, -⟩ := h
    rw [Expr.lexemes_binary, List.append_assoc]
    exact startsVariable_expr l (.inl (Expr.isFull_of_isChain hl)) hcl _
      (calm_punct (by cases op <;> decide) _)
  | .conditional c t e, _, h, tail, _ => by
    simp only [Expr.canonical, Bool.and_eq_true] at h
    obtain ⟨⟨⟨⟨⟨hc, hcc⟩, -⟩, -⟩, -⟩, -⟩ := h
    rw [Expr.lexemes_conditional, List.append_assoc]
    exact startsVariable_expr c (.inl (Expr.isFull_of_isChain hc)) hcc _
      (calm_punct (by decide) _)
  | .qualified _ _, h, _, _, _ => by simp [Expr.isFull, Expr.isChain, Expr.isOperand,
      Expr.isSuffixed, Expr.isCallee] at h
  | .error _, _, h, _, _ => by cases h

theorem startsVariable_type {t : TypeRef} (h : t.canonical = true) (w : Text)
    (rest : List Lexeme) : ∀ tail, (sizeSuffixes tail).2 = .word w :: rest →
    startsVariable (t.node.lexemes ++ tail) = true := by
  induction t with
  | builtin v =>
    intro tail ht
    change startsVariable (.word v :: tail) = true
    simp only [startsVariable, ht]
  | named v =>
    intro tail ht
    change startsVariable (.word v :: tail) = true
    simp only [startsVariable, ht]
  | invalid cls v => cases h
  | array base size ih =>
    intro tail ht
    have hl : (TypeRef.array base size).node.lexemes ++ tail =
        base.node.lexemes ++ (Item.lexemes (sizeItems size) ++ tail) := by
      simp [TypeRef.node, Node.lexemes, Item.lexemes]
    rw [hl]
    exact ih h _ ht

/-- A specifier starts with a type and a name. -/
theorem startsVariable_specifier {s : Specifier} (h : s.canonical = true) (rest : List Lexeme) :
    startsVariable (Item.lexemes s.items ++ rest) = true := by
  simp only [Specifier.canonical, Bool.and_eq_true] at h
  rw [specifier_lexemes, List.append_assoc, List.cons_append]
  exact startsVariable_type h.1 s.name.word _ _ rfl

section Values

variable {levels : Nat} {rest : List Lexeme}

/-- The lexemes of a value after `=`, or none. -/
def valueLexemes : Option Expr → List Lexeme
  | none => []
  | some e => .punct .assign :: e.lexemes

theorem lexemes_marked_value (value : Option Expr) :
    Item.lexemes (Item.marked? .assign .value (value.map Expr.node)) = valueLexemes value := by
  cases value with
  | none => rfl
  | some e => simp [Item.marked?, Item.mark, Item.lexemes, valueLexemes, Expr.lexemes]

theorem initializer_done {value : Option Expr} (h : value.all Expr.whole = true)
    (hd : Expr.depth? value ≤ levels) (rest : List Lexeme) :
    initializer (expression levels) (valueLexemes value ++ .punct .semicolon :: rest) =
      .done value (.punct .semicolon :: rest) [] := by
  cases value with
  | none => exact onPunct_other _ _ (ends_cons rfl)
  | some e =>
    have he := expression_done (by simpa using h) (Nat.lt_of_succ_le hd)
      (ends_cons rfl : Ends extendsExpr (.punct .semicolon :: rest))
    rw [valueLexemes, List.cons_append, initializer, onPunct_same]
    exact bind_done he

theorem lexemes_variable (v : Variable) :
    Item.lexemes v.items =
      Item.lexemes v.specifier.items ++ (valueLexemes v.value ++ [Lexeme.punct .semicolon]) := by
  simp [Variable.items, Specifier.node, Node.lexemes, Item.lexemes, lexemes_marked_value, Item.mark]

theorem ends_value (value : Option Expr) (rest : List Lexeme) :
    Ends (Recovery.isPunct .openBracket) (valueLexemes value ++ .punct .semicolon :: rest) := by
  cases value with
  | none => exact ends_cons rfl
  | some e => exact ends_cons rfl

/-- A variable comes back with its semicolon. -/
theorem variable_done (place : Place) (hp : place.punct = .semicolon) {v : Variable}
    (h : v.canonical = true) (hd : v.depth ≤ levels) (rest : List Lexeme) :
    variableThrough place (expression levels) (Item.lexemes v.items ++ rest) =
      .done v rest [] := by
  simp only [Variable.canonical, Bool.and_eq_true] at h
  have hspec := specifier_done h.1 (ends_value v.value rest)
  have hvalue := initializer_done h.2 hd rest
  have hsemi := require_done place rest
  rw [hp] at hsemi
  rw [lexemes_variable, List.append_assoc, List.append_assoc, List.singleton_append,
    variableThrough, bind_done hspec]
  exact (bind_done hvalue).trans (bind_done hsemi)

theorem lexemes_precision (p : Option Text) :
    Item.lexemes (Item.child? .precision (p.map (qualifierNode .precisionQualifier))) =
      p.toList.map .word := by
  cases p <;> rfl

/-- A qualifier comes back before a word of another class. -/
theorem qualifier_done {cls : WordClass} {p : Option Text} (h : canonicalQualifier cls p = true)
    {w : Text} (hw : classify w ≠ cls) (rest : List Lexeme) :
    qualifier cls (p.toList.map .word ++ .word w :: rest) = .done p (.word w :: rest) [] := by
  cases p with
  | none => exact qualifier_none (ends_cons (by simpa [isWordOf] using hw))
  | some q => exact qualifier_some (by simpa [canonicalQualifier] using h) _

/-- A type is no qualifier. -/
theorem qualifier_specifier {cls : WordClass} (hcls : cls ≠ .builtinType ∧ cls ≠ .plain)
    {p : Option Text} (h : canonicalQualifier cls p = true) {s : Specifier}
    (hs : s.canonical = true) (rest : List Lexeme) :
    qualifier cls (p.toList.map .word ++ (Item.lexemes s.items ++ rest)) =
      .done p (Item.lexemes s.items ++ rest) [] := by
  obtain ⟨w, tail, hl, hc⟩ := specifier_head hs
  rw [hl]
  refine qualifier_done h ?_ (tail ++ rest)
  rcases hc with hc | hc <;> rw [hc]
  · exact hcls.1.symm
  · exact hcls.2.symm

theorem constant_done {p : Option Text} {v : Variable}
    (hp : canonicalQualifier .precision p = true) (h : v.canonical = true)
    (hd : v.depth ≤ levels) (rest : List Lexeme) :
    constant (expression levels) (p.toList.map .word ++ (Item.lexemes v.items ++ rest)) =
      .done (p, v) rest [] := by
  have hspec : v.specifier.canonical = true := by
    simp only [Variable.canonical, Bool.and_eq_true] at h
    exact h.1
  have hq := qualifier_specifier (by decide) hp hspec
    (valueLexemes v.value ++ [Lexeme.punct .semicolon] ++ rest)
  have hv := variable_done .afterConstant rfl h hd rest
  rw [lexemes_variable, List.append_assoc] at hv ⊢
  rw [constant, bind_done hq]
  exact bind_done hv

end Values

theorem isSuffixed_of_isAssignable {e : Expr} (h : e.isAssignable = true) :
    e.isSuffixed = true := by
  cases e <;> simp_all [Expr.isAssignable, Expr.isSuffixed]

theorem isFull_of_isAssignable {e : Expr} (h : e.isAssignable = true) : e.isFull = true :=
  Expr.isFull_of_isChain (Expr.isChain_of_isOperand
    (Expr.isOperand_of_isSuffixed (isSuffixed_of_isAssignable h)))

section Actions

variable {levels : Nat} {p : Punct} {rest : List Lexeme}

theorem lexemes_evaluate (e : Expr) : Item.lexemes (Action.evaluate e).items = e.lexemes := by
  simp [Action.items, Item.lexemes, Expr.lexemes]

theorem lexemes_assign (t : Expr) (op : AssignOp) (v : Expr) :
    Item.lexemes (Action.assign t op v).items = t.lexemes ++ .punct op.punct :: v.lexemes := by
  simp [Action.items, Item.lexemes, Expr.lexemes]

theorem lexemes_adjustAfter (t : Expr) (op : AdjustOp) :
    Item.lexemes (Action.adjustAfter t op).items = t.lexemes ++ [Lexeme.punct op.punct] := by
  simp [Action.items, Item.lexemes, Expr.lexemes]

theorem lexemes_adjustBefore (op : AdjustOp) (t : Expr) :
    Item.lexemes (Action.adjustBefore op t).items = .punct op.punct :: t.lexemes := by
  simp [Action.items, Item.lexemes, Expr.lexemes]

theorem action_plain {e : Expr} (hf : e.isFull = true) (hc : e.canonical = true)
    (expr : Parser Expr) (tail : List Lexeme) :
    action expr (e.lexemes ++ tail) = plainAction expr (e.lexemes ++ tail) := by
  obtain ⟨l, more, hl, hs⟩ := Expr.head_full e hf hc
  rw [hl, List.cons_append]
  cases l with
  | punct p => simp [action, (Expr.starts_punct hs).2]
  | _ => rfl

/-- The left end of an action is parsed as an expression, and what follows decides. -/
theorem plainAction_done {e : Expr} (hf : e.isFull = true) (hc : e.canonical = true)
    (hd : e.depth < levels) {tail : List Lexeme} (ht : Ends extendsExpr tail) :
    action (expression levels) (e.lexemes ++ tail) = actionOn (expression levels) e tail := by
  rw [action_plain hf hc, plainAction,
    bind_done (expression_done (by simp [Expr.whole, hf, hc]) hd ht)]

/-- An action comes back before a semicolon and before the parenthesis that closes a loop's head. -/
theorem action_done {a : Action} (h : a.canonical = true) (hd : a.depth ≤ levels)
    (hp : p = .semicolon ∨ p = .closeParen) :
    action (expression levels) (Item.lexemes a.items ++ .punct p :: rest) =
      .done a (.punct p :: rest) [] := by
  have hends : Ends extendsExpr (.punct p :: rest) := by
    rcases hp with rfl | rfl <;> exact ends_cons rfl
  cases a with
  | evaluate e =>
    simp only [Action.canonical, Expr.whole, Bool.and_eq_true] at h
    rw [lexemes_evaluate, plainAction_done h.1 h.2 (Nat.lt_of_succ_le hd) hends]
    rcases hp with rfl | rfl <;> rfl
  | assign t op v =>
    simp only [Action.canonical, Action.depth, Bool.and_eq_true] at h hd
    obtain ⟨⟨hassign, hct⟩, hv⟩ := h
    have hop : Ends extendsExpr (.punct op.punct :: (v.lexemes ++ .punct p :: rest)) := by
      cases op <;> exact ends_cons rfl
    have hvalue := expression_done hv (show v.depth < levels by omega) hends
    rw [lexemes_assign, List.append_assoc, List.cons_append,
      plainAction_done (isFull_of_isAssignable hassign) hct (by omega) hop]
    simp only [actionOn, AssignOp.ofPunct?_punct, hassign, if_true]
    exact andThen_done hvalue
  | adjustAfter t op =>
    simp only [Action.canonical, Bool.and_eq_true] at h
    have hop : Ends extendsExpr (.punct op.punct :: .punct p :: rest) := by
      cases op <;> exact ends_cons rfl
    rw [lexemes_adjustAfter, List.append_assoc, List.singleton_append,
      plainAction_done (isFull_of_isAssignable h.1) h.2 (Nat.lt_of_succ_le hd) hop]
    have hnone : AssignOp.ofPunct? op.punct = none := by cases op <;> decide
    simp [actionOn, hnone, h.1]
  | adjustBefore op t =>
    simp only [Action.canonical, Bool.and_eq_true] at h
    have hs := isSuffixed_of_isAssignable h.1
    have htarget : suffixed (expression levels) (t.lexemes ++ .punct p :: rest) =
        .done t (.punct p :: rest) [] := by
      refine (back t h.2).suffixed (Expr.isCallee_of_isSuffixed hs) levels _ _ hd (.inl hs) ?_
      intro rounds _
      refine growWithin_end (fun l hl => ?_) rounds
      cases hl
      rcases hp with rfl | rfl <;> rfl
    rw [lexemes_adjustBefore, List.cons_append]
    simp only [action, AdjustOp.ofPunct?_punct]
    rw [adjusted, bind_done htarget, if_pos h.1]
    rfl

end Actions

/-- What a statement starts with: nothing that ends a list of them, and no `else`. -/
def OpensStmt (l : Lexeme) : Prop :=
  Recovery.endsClause l = false ∧ Recovery.isKeyword .otherwise l = false

theorem opensStmt_word {w : Text} (h : classify w ≠ .keyword) : OpensStmt (.word w) := by
  refine ⟨?_, Recovery.isKeyword_word h .otherwise⟩
  simp [Recovery.endsClause, Recovery.startsClause, Recovery.isKeyword_word h, Recovery.isPunct]

theorem opensStmt_punct {p : Punct} (h : p ≠ .closeBrace) : OpensStmt (.punct p) := by
  refine ⟨?_, rfl⟩
  simp [Recovery.endsClause, Recovery.startsClause, Recovery.isKeyword, Recovery.isPunct, h]

theorem opensStmt_expr {l : Lexeme} (h : Expr.starts l = true) : OpensStmt l := by
  cases l with
  | word w => exact opensStmt_word (Expr.starts_word h).1
  | punct p =>
    apply opensStmt_punct
    rintro rfl
    cases (Expr.starts_punct h).1
  | _ => exact ⟨rfl, rfl⟩

/-- What an action starts with: an expression or a sign for an adjustment. -/
theorem head_action {a : Action} (h : a.canonical = true) :
    ∃ l tail, Item.lexemes a.items = l :: tail ∧
      (Expr.starts l = true ∨ ∃ op : AdjustOp, l = .punct op.punct) := by
  have hexpr : ∀ e : Expr, e.isFull = true → e.canonical = true → ∀ more,
      ∃ l tail, e.node.lexemes ++ more = l :: tail ∧
        (Expr.starts l = true ∨ ∃ op : AdjustOp, l = .punct op.punct) := by
    intro e hf hc more
    obtain ⟨l, tail, hl, hs⟩ := Expr.head_full e hf hc
    rw [Expr.lexemes] at hl
    exact ⟨l, tail ++ more, by rw [hl, List.cons_append], .inl hs⟩
  cases a with
  | evaluate e =>
    simp only [Action.canonical, Expr.whole, Bool.and_eq_true] at h
    exact hexpr e h.1 h.2 _
  | assign t op v =>
    simp only [Action.canonical, Bool.and_eq_true] at h
    exact hexpr t (isFull_of_isAssignable h.1.1) h.1.2 _
  | adjustAfter t op =>
    simp only [Action.canonical, Bool.and_eq_true] at h
    exact hexpr t (isFull_of_isAssignable h.1) h.2 _
  | adjustBefore op t => exact ⟨.punct op.punct, _, rfl, .inr ⟨op, rfl⟩⟩

theorem opensStmt_keyword {k : Keyword}
    (h : k ≠ .caseLabel ∧ k ≠ .defaultLabel ∧ k ≠ .otherwise) : OpensStmt (.word k.spelling) := by
  revert h
  simp only [OpensStmt]
  cases k <;> decide

theorem lexemes_constant (kind : Kind) (p : Option Text) (v : Variable) :
    (v.constantNode kind p).lexemes =
      .word Keyword.const.spelling :: (p.toList.map .word ++ Item.lexemes v.items) := by
  simp [Variable.constantNode, Node.lexemes, Item.keyword, Item.lexemes, lexemes_precision]

/-- A canonical statement has a first lexeme, and it opens a statement. -/
theorem head_stmt {s : Stmt} (h : s.canonical = true) :
    ∃ l tail, s.node.lexemes = l :: tail ∧ OpensStmt l := by
  cases s with
  | block body => exact ⟨_, _, rfl, opensStmt_punct (by decide)⟩
  | declare v =>
    simp only [Stmt.canonical, Variable.canonical, Bool.and_eq_true] at h
    obtain ⟨w, tail, hl, hc⟩ := specifier_head h.1
    refine ⟨.word w, tail ++ (valueLexemes v.value ++ [Lexeme.punct .semicolon]), ?_,
      opensStmt_word ?_⟩
    · change Item.lexemes v.items = _
      rw [lexemes_variable, hl, List.cons_append]
    · rcases hc with hc | hc <;> simp [hc]
  | constant p v => exact ⟨_, _, lexemes_constant _ p v, opensStmt_keyword (by decide)⟩
  | perform a =>
    simp only [Stmt.canonical, Bool.and_eq_true] at h
    obtain ⟨l, tail, hl, hs⟩ := head_action h.1
    refine ⟨l, tail ++ [Lexeme.punct .semicolon], ?_, ?_⟩
    · change Item.lexemes (a.items ++ [Item.mark .semicolon]) = _
      rw [Item.lexemes_append, hl]
      rfl
    · rcases hs with hs | ⟨op, rfl⟩
      · exact opensStmt_expr hs
      · exact opensStmt_punct (by cases op <;> decide)
  | ifThen c t => exact ⟨_, _, rfl, opensStmt_keyword (by decide)⟩
  | ifElse c t e => exact ⟨_, _, rfl, opensStmt_keyword (by decide)⟩
  | whileLoop c b => exact ⟨_, _, rfl, opensStmt_keyword (by decide)⟩
  | forLoop v c u b => exact ⟨_, _, rfl, opensStmt_keyword (by decide)⟩
  | switchOn e cs => exact ⟨_, _, rfl, opensStmt_keyword (by decide)⟩
  | returnValue e => exact ⟨_, _, rfl, opensStmt_keyword (by decide)⟩
  | breakOut => exact ⟨_, _, rfl, opensStmt_keyword (by decide)⟩
  | continueLoop => exact ⟨_, _, rfl, opensStmt_keyword (by decide)⟩
  | error s => cases h

section Dispatch

variable {expr : Parser Expr} {stmt : Parser Stmt}

theorem statementOf_keyword {k : Keyword} {p : Parser Stmt} (h : keywordStmt expr stmt k = some p)
    (rest : List Lexeme) : statementOf expr stmt (.word k.spelling :: rest) = p rest := by
  simp [statementOf, h]

theorem statementOf_plain {l : Lexeme} (hbrace : l ≠ .punct .openBrace)
    (hword : ∀ w, l = .word w → classify w ≠ .keyword) (rest : List Lexeme) :
    statementOf expr stmt (l :: rest) = plainStmt expr (l :: rest) := by
  cases l with
  | punct p =>
    unfold statementOf
    split
    · next heq =>
      cases heq
      exact absurd rfl hbrace
    · next heq => cases heq
    · rfl
  | word w => simp [statementOf, Keyword.ofText?_eq_none (hword w rfl)]
  | _ => rfl

end Dispatch

/-- The parser gives the statement back, where no `else` follows that would belong to it. -/
def Brings (stmt : Parser Stmt) (s : Stmt) : Prop :=
  ∀ rest, (s.endsOpen = true → Ends (Recovery.isKeyword .otherwise) rest) →
    stmt (s.node.lexemes ++ rest) = .done s rest []

theorem canonical_of_mem {body : List Stmt} (hc : Stmt.canonicals body = true) {s : Stmt}
    (hs : s ∈ body) : s.canonical = true := by
  induction body with
  | nil => cases hs
  | cons x body ih =>
    simp only [Stmt.canonicals, Bool.and_eq_true] at hc
    rcases List.mem_cons.mp hs with rfl | hs
    · exact hc.1
    · exact ih hc.2 hs

section Lists

variable {stmt : Parser Stmt} {body : List Stmt}

/-- Statements in a row come back, up to what stops them. -/
theorem stmts_done {stop : Lexeme → Bool} (hstop : ∀ l, OpensStmt l → stop l = false)
    (hb : ∀ s ∈ body, Brings stmt s) (hc : Stmt.canonicals body = true) (rest : List Lexeme)
    (hrest : ∀ l ∈ rest.head?, stop l = true) (hend : Ends (Recovery.isKeyword .otherwise) rest) :
    manyUntil stop (recoveredStmt stmt) (body.flatMap (fun s => s.node.lexemes) ++ rest) =
      .done body rest [] := by
  refine manyUntil_done body rest ?_ ?_ hend hrest
  · intro s hs mid hmid
    exact recovering_done (hb s hs mid fun _ => hmid)
  · intro s hs
    obtain ⟨l, tail, hl, hopen⟩ := head_stmt (canonical_of_mem hc hs)
    exact ⟨l, tail, hl, hstop l hopen, hopen.2⟩

theorem lexemes_block (body : List Stmt) :
    (Stmt.block body).node.lexemes = .punct .openBrace ::
      (body.flatMap (fun s => s.node.lexemes) ++ [Lexeme.punct .closeBrace]) := by
  simp [Stmt.node, blockNode, Stmt.nodes_eq_map, Node.lexemes, Item.mark, Item.lexemes,
    Item.lexemes_children, List.flatMap_map]

theorem block_done (hb : ∀ s ∈ body, Brings stmt s) (hc : Stmt.canonicals body = true)
    (rest : List Lexeme) :
    block stmt ((Stmt.block body).node.lexemes ++ rest) = .done body rest [] := by
  have hstop : ∀ l, OpensStmt l → Recovery.isPunct .closeBrace l = false := by
    intro l hl
    have hends := hl.1
    simp only [Recovery.endsClause, Bool.or_eq_false_iff] at hends
    exact hends.1
  have hstmts := stmts_done hstop hb hc (.punct .closeBrace :: rest)
    (fun l hl => by cases hl; rfl) (ends_cons rfl)
  rw [lexemes_block, List.cons_append, List.append_assoc, block]
  refine (bind_done (require_done .openBlock _)).trans ((bind_done hstmts).trans ?_)
  exact bind_done (require_done .closeBlock rest)

end Lists

section Forms

variable {levels : Nat} {stmt : Parser Stmt}

theorem brings_block {body : List Stmt} (hb : ∀ s ∈ body, Brings stmt s)
    (hc : Stmt.canonicals body = true) :
    Brings (statementOf (expression levels) stmt) (.block body) :=
  fun rest _ => andThen_done (block_done hb hc rest)

theorem brings_declare {v : Variable} (h : v.canonical = true) (hd : v.depth ≤ levels) :
    Brings (statementOf (expression levels) stmt) (.declare v) := by
  intro rest _
  have hspec : v.specifier.canonical = true := by
    simp only [Variable.canonical, Bool.and_eq_true] at h
    exact h.1
  have hv := variable_done .afterVariable rfl h hd rest
  have hstarts := startsVariable_specifier hspec
    (valueLexemes v.value ++ [Lexeme.punct .semicolon] ++ rest)
  obtain ⟨w, tail, hl, hcls⟩ := specifier_head hspec
  have hword : classify w ≠ .keyword := by rcases hcls with hc | hc <;> simp [hc]
  change statementOf _ _ (Item.lexemes v.items ++ rest) = _
  rw [lexemes_variable, List.append_assoc] at hv ⊢
  rw [hl, List.cons_append] at hv hstarts ⊢
  rw [statementOf_plain (by simp) (by rintro _ ⟨⟩; exact hword), plainStmt, if_pos hstarts]
  exact andThen_done hv

theorem brings_constant {p : Option Text} {v : Variable}
    (hp : canonicalQualifier .precision p = true) (h : v.canonical = true)
    (hd : v.depth ≤ levels) : Brings (statementOf (expression levels) stmt) (.constant p v) := by
  intro rest _
  have hconst := constant_done hp h hd rest
  change statementOf _ _ ((v.constantNode .constVarDeclaration p).lexemes ++ rest) = _
  rw [lexemes_constant, List.cons_append, List.append_assoc, statementOf_keyword rfl]
  exact bind_done hconst

/-- An action does not start with a type and a name. -/
theorem startsVariable_action {a : Action} (h : a.canonical = true) (rest : List Lexeme) :
    startsVariable (Item.lexemes a.items ++ .punct .semicolon :: rest) = false := by
  have hsemi := calm_punct (p := .semicolon) (by decide) rest
  cases a with
  | evaluate e =>
    simp only [Action.canonical, Expr.whole, Bool.and_eq_true] at h
    rw [lexemes_evaluate]
    exact startsVariable_expr e (.inl h.1) h.2 _ hsemi
  | assign t op v =>
    simp only [Action.canonical, Bool.and_eq_true] at h
    rw [lexemes_assign, List.append_assoc]
    exact startsVariable_expr t (.inl (isFull_of_isAssignable h.1.1)) h.1.2 _
      (calm_punct (by cases op <;> decide) _)
  | adjustAfter t op =>
    simp only [Action.canonical, Bool.and_eq_true] at h
    rw [lexemes_adjustAfter, List.append_assoc]
    exact startsVariable_expr t (.inl (isFull_of_isAssignable h.1)) h.2 _
      (calm_punct (by cases op <;> decide) _)
  | adjustBefore op t => rfl

theorem brings_perform {a : Action} (h : a.canonical = true) (hb : a.startsBlock = false)
    (hd : a.depth ≤ levels) : Brings (statementOf (expression levels) stmt) (.perform a) := by
  intro rest _
  have haction : action (expression levels) (Item.lexemes a.items ++ .punct .semicolon :: rest) =
      .done a (.punct .semicolon :: rest) [] := action_done h hd (.inl rfl)
  have hstarts := startsVariable_action h rest
  have hlex : (Stmt.perform a).node.lexemes ++ rest =
      Item.lexemes a.items ++ .punct .semicolon :: rest := by
    change Item.lexemes (a.items ++ [Item.mark .semicolon]) ++ rest = _
    rw [Item.lexemes_append, List.append_assoc]
    rfl
  obtain ⟨l, tail, hl, hs⟩ := head_action h
  have hbrace : l ≠ .punct .openBrace := by
    rintro rfl
    simp [Action.startsBlock, hl] at hb
  have hword : ∀ w, l = .word w → classify w ≠ .keyword := by
    rintro w rfl
    rcases hs with hs | ⟨op, hop⟩
    · exact (Expr.starts_word hs).1
    · cases hop
  rw [hlex]
  rw [hl, List.cons_append] at haction hstarts ⊢
  rw [statementOf_plain hbrace hword, plainStmt, hstarts, if_neg (by simp), perform,
    bind_done haction]
  exact bind_done (require_done .afterStatement rest)

theorem lexemes_ifThen (c : Expr) (t : Stmt) :
    (Stmt.ifThen c t).node.lexemes =
      .word Keyword.ifThen.spelling :: ((Expr.paren c).lexemes ++ t.node.lexemes) := by
  simp [Stmt.node, Node.lexemes, Item.keyword, Item.lexemes, Expr.parenNode, Expr.lexemes]

theorem lexemes_ifElse (c : Expr) (t e : Stmt) :
    (Stmt.ifElse c t e).node.lexemes =
      .word Keyword.ifThen.spelling :: ((Expr.paren c).lexemes ++
        (t.node.lexemes ++ .word Keyword.otherwise.spelling :: e.node.lexemes)) := by
  simp [Stmt.node, Node.lexemes, Item.keyword, Item.lexemes, Expr.parenNode, Expr.lexemes]

theorem lexemes_whileLoop (c : Expr) (b : Stmt) :
    (Stmt.whileLoop c b).node.lexemes =
      .word Keyword.whileLoop.spelling :: ((Expr.paren c).lexemes ++ b.node.lexemes) := by
  simp [Stmt.node, Node.lexemes, Item.keyword, Item.lexemes, Expr.parenNode, Expr.lexemes]

/-- The condition of a branch or a loop. -/
theorem condition_done {c : Expr} (h : c.whole = true) (hd : c.depth < levels)
    (rest : List Lexeme) :
    parenthesized (expression levels) ((Expr.paren c).lexemes ++ rest) = .done c rest [] := by
  simp only [Expr.whole, Bool.and_eq_true] at h
  exact parenthesized_done ((back c h.2).whole h.1) hd rest

theorem brings_ifThen {c : Expr} {t : Stmt} (hc : c.whole = true) (hd : c.depth < levels)
    (ht : Brings stmt t) : Brings (statementOf (expression levels) stmt) (.ifThen c t) := by
  intro rest hopen
  have hno := hopen rfl
  rw [lexemes_ifThen, List.cons_append, List.append_assoc, statementOf_keyword rfl, branching,
    bind_done (condition_done hc hd _), bind_done (ht rest fun _ => hno)]
  exact onKeyword_other _ _ hno

theorem brings_ifElse {c : Expr} {t e : Stmt} (hc : c.whole = true) (hd : c.depth < levels)
    (hclosed : t.endsOpen = false) (ht : Brings stmt t) (he : Brings stmt e) :
    Brings (statementOf (expression levels) stmt) (.ifElse c t e) := by
  intro rest hopen
  rw [lexemes_ifElse, List.cons_append, List.append_assoc, List.append_assoc, List.cons_append,
    statementOf_keyword rfl, branching, bind_done (condition_done hc hd _),
    bind_done (ht _ fun h => by simp [hclosed] at h), onKeyword_same]
  exact bind_done (he rest hopen)

theorem brings_whileLoop {c : Expr} {b : Stmt} (hc : c.whole = true) (hd : c.depth < levels)
    (hb : Brings stmt b) : Brings (statementOf (expression levels) stmt) (.whileLoop c b) := by
  intro rest hopen
  rw [lexemes_whileLoop, List.cons_append, List.append_assoc, statementOf_keyword rfl, whileLoop,
    bind_done (condition_done hc hd _)]
  exact bind_done (hb rest hopen)

theorem lexemes_update (u : Action) : u.updateNode.lexemes = Item.lexemes u.items := by
  cases u <;> simp [Action.updateNode, Action.items, Node.lexemes, Item.lexemes]

theorem lexemes_forLoop (v : Variable) (c : Expr) (u : Action) (b : Stmt) :
    (Stmt.forLoop v c u b).node.lexemes =
      .word Keyword.forLoop.spelling :: .punct .openParen :: (Item.lexemes v.items ++ (c.lexemes ++
        .punct .semicolon :: (Item.lexemes u.items ++ .punct .closeParen :: b.node.lexemes))) := by
  simp [Stmt.node, Node.lexemes, Item.keyword, Item.mark, Item.lexemes, Variable.node,
    Action.statementNode, Action.items, lexemes_update, Expr.lexemes]

theorem brings_forLoop {v : Variable} {c : Expr} {u : Action} {b : Stmt} (hv : v.canonical = true)
    (hdv : v.depth ≤ levels) (hc : c.whole = true) (hdc : c.depth < levels)
    (hu : u.canonical = true) (hdu : u.depth ≤ levels) (hb : Brings stmt b) :
    Brings (statementOf (expression levels) stmt) (.forLoop v c u b) := by
  intro rest hopen
  have hvar := variable_done .afterVariable rfl hv hdv (c.lexemes ++ .punct .semicolon ::
    (Item.lexemes u.items ++ .punct .closeParen :: (b.node.lexemes ++ rest)))
  have hcond := expression_done hc hdc (ends_cons rfl : Ends extendsExpr (.punct .semicolon ::
    (Item.lexemes u.items ++ .punct .closeParen :: (b.node.lexemes ++ rest))))
  have hupdate : action (expression levels)
      (Item.lexemes u.items ++ .punct .closeParen :: (b.node.lexemes ++ rest)) =
      .done u (.punct .closeParen :: (b.node.lexemes ++ rest)) [] := action_done hu hdu (.inr rfl)
  rw [lexemes_forLoop]
  simp only [List.cons_append, List.append_assoc]
  rw [statementOf_keyword rfl, forLoop]
  refine (bind_done (require_done .afterFor _)).trans ((bind_done hvar).trans ?_)
  refine (bind_done hcond).trans ((bind_done (require_done .afterLoopCondition _)).trans ?_)
  refine (bind_done hupdate).trans ((bind_done (require_done .afterLoopUpdate _)).trans ?_)
  exact bind_done (hb rest hopen)

theorem brings_returnValue {value : Option Expr} (h : value.all Expr.whole = true)
    (hd : Expr.depth? value ≤ levels) :
    Brings (statementOf (expression levels) stmt) (.returnValue value) := by
  intro rest _
  cases value with
  | none => rfl
  | some e =>
    have he := expression_done (by simpa using h) (Nat.lt_of_succ_le hd)
      (ends_cons rfl : Ends extendsExpr (.punct .semicolon :: rest))
    have hlex : (Stmt.returnValue (some e)).node.lexemes ++ rest =
        .word Keyword.returnValue.spelling :: (e.lexemes ++ .punct .semicolon :: rest) := by
      simp [Stmt.node, Node.lexemes, Item.keyword, Item.mark, Item.child?, Item.lexemes,
        Expr.lexemes]
    have hfirst : Ends (Recovery.isPunct .semicolon) (e.lexemes ++ .punct .semicolon :: rest) := by
      simp only [Option.all_some, Expr.whole, Bool.and_eq_true] at h
      exact ends_expr rfl h.1 h.2 _
    rw [hlex, statementOf_keyword rfl, returnValue, onPunct_other _ _ hfirst, bind_done he]
    exact bind_done (require_done .afterReturn rest)

theorem brings_breakOut : Brings (statementOf (expression levels) stmt) .breakOut :=
  fun _ _ => rfl

theorem brings_continueLoop : Brings (statementOf (expression levels) stmt) .continueLoop :=
  fun _ _ => rfl

/-- The parser gives the clause back, where the next clause or the end of the switch follows. -/
def BringsClause (clause : Parser Clause) (c : Clause) : Prop :=
  ∀ rest, (∀ l ∈ rest.head?, Recovery.endsClause l = true) →
    clause (c.node.lexemes ++ rest) = .done c rest []

theorem ends_otherwise {rest : List Lexeme} (h : ∀ l ∈ rest.head?, Recovery.endsClause l = true) :
    Ends (Recovery.isKeyword .otherwise) rest := by
  intro l hl
  have hends := h l hl
  refine Bool.eq_false_iff.mpr fun hk => ?_
  have hword : l = .word Keyword.otherwise.spelling := by simpa [Recovery.isKeyword] using hk
  rw [hword] at hends
  revert hends
  decide

theorem clauseBody_done {body : List Stmt} (hb : ∀ s ∈ body, Brings stmt s)
    (hc : Stmt.canonicals body = true) (rest : List Lexeme)
    (hrest : ∀ l ∈ rest.head?, Recovery.endsClause l = true) :
    clauseBody stmt (.punct .colon :: (body.flatMap (fun s => s.node.lexemes) ++ rest)) =
      .done body rest [] := by
  rw [clauseBody]
  refine (bind_done (require_done .afterCaseLabel _)).trans ?_
  exact stmts_done (fun l hl => hl.1) hb hc rest hrest (ends_otherwise hrest)

theorem lexemes_onValue (e : Expr) (body : List Stmt) :
    (Clause.onValue e body).node.lexemes = .word Keyword.caseLabel.spelling :: (e.lexemes ++
      .punct .colon :: body.flatMap (fun s => s.node.lexemes)) := by
  simp [Clause.node, Stmt.nodes_eq_map, Node.lexemes, Item.keyword, Item.mark, Item.lexemes,
    Item.lexemes_children, List.flatMap_map, Expr.lexemes]

theorem lexemes_otherwise (body : List Stmt) :
    (Clause.otherwise body).node.lexemes = .word Keyword.defaultLabel.spelling :: .punct .colon ::
      body.flatMap (fun s => s.node.lexemes) := by
  simp [Clause.node, Stmt.nodes_eq_map, Node.lexemes, Item.mark, Item.lexemes,
    Item.lexemes_children, List.flatMap_map]

theorem brings_onValue {e : Expr} {body : List Stmt} (he : e.whole = true) (hd : e.depth < levels)
    (hb : ∀ s ∈ body, Brings stmt s) (hc : Stmt.canonicals body = true) :
    BringsClause (clause (expression levels) stmt) (.onValue e body) := by
  intro rest hrest
  have hvalue := expression_done he hd (ends_cons rfl : Ends extendsExpr
    (.punct .colon :: (body.flatMap (fun s => s.node.lexemes) ++ rest)))
  rw [lexemes_onValue, List.cons_append, List.append_assoc, List.cons_append, clause,
    onKeyword_same, bind_done hvalue]
  exact bind_done (clauseBody_done hb hc rest hrest)

theorem brings_otherwise {body : List Stmt} (hb : ∀ s ∈ body, Brings stmt s)
    (hc : Stmt.canonicals body = true) :
    BringsClause (clause (expression levels) stmt) (.otherwise body) := by
  intro rest hrest
  have hcase : Ends (Recovery.isKeyword .caseLabel) (.word Keyword.defaultLabel.spelling ::
      .punct .colon :: (body.flatMap (fun s => s.node.lexemes) ++ rest)) :=
    ends_cons (by decide)
  rw [lexemes_otherwise, List.cons_append, List.cons_append, clause, onKeyword_other _ _ hcase,
    onKeyword_same]
  exact bind_done (clauseBody_done hb hc rest hrest)

theorem head_clause {c : Clause} (h : c.canonical = true) :
    ∃ l tail, c.node.lexemes = l :: tail ∧ Recovery.isPunct .closeBrace l = false ∧
      Recovery.endsClause l = true := by
  cases c with
  | onValue e body => exact ⟨_, _, rfl, rfl, by decide⟩
  | otherwise body => exact ⟨_, _, rfl, rfl, by decide⟩
  | error s => cases h

theorem lexemes_switchOn (e : Expr) (cs : List Clause) :
    (Stmt.switchOn e cs).node.lexemes = .word Keyword.switchOn.spelling :: .punct .openParen ::
      (e.lexemes ++ Lexeme.punct .closeParen :: .punct .openBrace ::
        (cs.flatMap (fun c => c.node.lexemes) ++ [Lexeme.punct .closeBrace])) := by
  simp [Stmt.node, Clause.nodes_eq_map, Node.lexemes, Item.keyword, Item.mark, Item.lexemes,
    Item.lexemes_children, List.flatMap_map, Expr.lexemes]

theorem brings_switchOn {e : Expr} {cs : List Clause} (he : e.whole = true) (hd : e.depth < levels)
    (hb : ∀ c ∈ cs, BringsClause (clause (expression levels) stmt) c)
    (hc : ∀ c ∈ cs, c.canonical = true) :
    Brings (statementOf (expression levels) stmt) (.switchOn e cs) := by
  intro rest _
  have hvalue := expression_done he hd (ends_cons rfl : Ends extendsExpr (.punct .closeParen ::
    .punct .openBrace :: (cs.flatMap (fun c => c.node.lexemes) ++ .punct .closeBrace :: rest)))
  have hclauses : manyUntil (Recovery.isPunct .closeBrace)
      (recovering Recovery.resumeClause .error (clause (expression levels) stmt))
      (cs.flatMap (fun c => c.node.lexemes) ++ .punct .closeBrace :: rest) =
      .done cs (.punct .closeBrace :: rest) [] := by
    -- A clause goes on with any lexeme that does not end it.
    have hmore : Ends (fun l => !Recovery.endsClause l) (.punct .closeBrace :: rest) :=
      ends_cons rfl
    refine manyUntil_done cs _ ?_ ?_ hmore (fun l hl => by cases hl; rfl)
    · intro c hcs mid hmid
      exact recovering_done (hb c hcs mid fun l hl => by simpa using hmid l hl)
    · intro c hcs
      obtain ⟨l, tail, hl, hbrace, hends⟩ := head_clause (hc c hcs)
      exact ⟨l, tail, hl, hbrace, by simp [hends]⟩
  rw [lexemes_switchOn]
  simp only [List.cons_append, List.append_assoc, List.nil_append]
  rw [statementOf_keyword rfl, switchOn]
  refine (bind_done (require_done .afterSwitch _)).trans ((bind_done hvalue).trans ?_)
  refine (bind_done (require_done .afterSwitchValue _)).trans ?_
  refine (bind_done (require_done .openSwitch _)).trans ((bind_done hclauses).trans ?_)
  exact bind_done (require_done .closeSwitch rest)

end Forms

theorem canonical_of_mem_clauses {cs : List Clause} (hc : Clause.canonicals cs = true)
    {c : Clause} (hs : c ∈ cs) : c.canonical = true := by
  induction cs with
  | nil => cases hs
  | cons x cs ih =>
    simp only [Clause.canonicals, Bool.and_eq_true] at hc
    rcases List.mem_cons.mp hs with rfl | hs
    · exact hc.1
    · exact ih hc.2 hs

mutual

/-- Every canonical statement comes back, given as many levels as it is deep. -/
theorem statement_brings : ∀ (s : Stmt) (levels : Nat), s.canonical = true → s.depth ≤ levels →
    Brings (statement levels) s
  | s, 0, _, hd => by cases s <;> simp [Stmt.depth] at hd
  | .block body, levels + 1, h, hd =>
    brings_block (statements_bring body levels h (Nat.le_of_succ_le_succ hd)) h
  | .declare v, levels + 1, h, hd => brings_declare h (Nat.le_of_succ_le_succ hd)
  | .constant p v, levels + 1, h, hd => by
    simp only [Stmt.canonical, Bool.and_eq_true] at h
    exact brings_constant h.1 h.2 (Nat.le_of_succ_le_succ hd)
  | .perform a, levels + 1, h, hd => by
    simp only [Stmt.canonical, Bool.and_eq_true, Bool.not_eq_true'] at h
    exact brings_perform h.1 h.2 (Nat.le_of_succ_le_succ hd)
  | .ifThen c t, levels + 1, h, hd => by
    simp only [Stmt.canonical, Stmt.depth, Bool.and_eq_true] at h hd
    exact brings_ifThen h.1 (by omega) (statement_brings t levels h.2 (by omega))
  | .ifElse c t e, levels + 1, h, hd => by
    simp only [Stmt.canonical, Stmt.depth, Bool.and_eq_true, Bool.not_eq_true'] at h hd
    obtain ⟨⟨⟨hc, ht⟩, hopen⟩, he⟩ := h
    exact brings_ifElse hc (by omega) hopen (statement_brings t levels ht (by omega))
      (statement_brings e levels he (by omega))
  | .whileLoop c b, levels + 1, h, hd => by
    simp only [Stmt.canonical, Stmt.depth, Bool.and_eq_true] at h hd
    exact brings_whileLoop h.1 (by omega) (statement_brings b levels h.2 (by omega))
  | .forLoop v c u b, levels + 1, h, hd => by
    simp only [Stmt.canonical, Stmt.depth, Bool.and_eq_true] at h hd
    obtain ⟨⟨⟨hv, hc⟩, hu⟩, hb⟩ := h
    exact brings_forLoop hv (by omega) hc (by omega) hu (by omega)
      (statement_brings b levels hb (by omega))
  | .switchOn e cs, levels + 1, h, hd => by
    simp only [Stmt.canonical, Stmt.depth, Bool.and_eq_true] at h hd
    exact brings_switchOn h.1 (by omega) (clauses_bring cs levels h.2 (by omega))
      fun c hc => canonical_of_mem_clauses h.2 hc
  | .returnValue e, levels + 1, h, hd => brings_returnValue h (Nat.le_of_succ_le_succ hd)
  | .breakOut, levels + 1, _, _ => brings_breakOut
  | .continueLoop, levels + 1, _, _ => brings_continueLoop
  | .error _, levels + 1, h, _ => by cases h

theorem statements_bring : ∀ (body : List Stmt) (levels : Nat), Stmt.canonicals body = true →
    Stmt.depths body ≤ levels → ∀ s ∈ body, Brings (statement levels) s
  | [], _, _, _, _, hs => absurd hs List.not_mem_nil
  | x :: body, levels, h, hd, s, hs => by
    simp only [Stmt.canonicals, Stmt.depths, Bool.and_eq_true] at h hd
    rcases List.mem_cons.mp hs with hs | hs
    · rw [hs]
      exact statement_brings x levels h.1 (by omega)
    · exact statements_bring body levels h.2 (by omega) s hs

theorem clause_brings : ∀ (c : Clause) (levels : Nat), c.canonical = true → c.depth ≤ levels →
    BringsClause (clause (expression levels) (statement levels)) c
  | .onValue e body, levels, h, hd => by
    simp only [Clause.canonical, Clause.depth, Bool.and_eq_true] at h hd
    exact brings_onValue h.1 (by omega) (statements_bring body levels h.2 (by omega)) h.2
  | .otherwise body, levels, h, hd => brings_otherwise (statements_bring body levels h hd) h
  | .error _, _, h, _ => by cases h

theorem clauses_bring : ∀ (cs : List Clause) (levels : Nat), Clause.canonicals cs = true →
    Clause.depths cs ≤ levels → ∀ c ∈ cs,
    BringsClause (clause (expression levels) (statement levels)) c
  | [], _, _, _, _, hs => absurd hs List.not_mem_nil
  | x :: cs, levels, h, hd, c, hs => by
    simp only [Clause.canonicals, Clause.depths, Bool.and_eq_true] at h hd
    rcases List.mem_cons.mp hs with hs | hs
    · rw [hs]
      exact clause_brings x levels h.1 (by omega)
    · exact clauses_bring cs levels h.2 (by omega) c hs

end

end ShaderSyntax.Grammar
