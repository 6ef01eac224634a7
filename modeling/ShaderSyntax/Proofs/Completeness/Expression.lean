import ShaderSyntax.Grammar.Expression
import ShaderSyntax.Proofs.Completeness.Specifier

/-!
# Expressions come back

A canonical expression is parsed again from its lexemes, if nothing follows that would extend it.
Suffixes and binary operators are read by loops, so for these the argument goes along the left edge
of the expression: whatever growing the expression gives on the rest, the loop gives on all of it.
-/
namespace ShaderSyntax

namespace Expr

def lexemes (e : Expr) : List Lexeme :=
  e.node.lexemes

theorem lexemes_paren (e : Expr) :
    (paren e).lexemes = .punct .openParen :: (e.lexemes ++ [Lexeme.punct .closeParen]) := rfl

theorem lexemes_array (e : Expr) (es : List Expr) :
    (array (e :: es)).lexemes = .punct .openBrace :: (e.lexemes ++
      (es.flatMap (fun x => .punct .comma :: x.lexemes) ++ [Lexeme.punct .closeBrace])) := by
  simp only [lexemes, node, nodes_eq_map, Node.lexemes, List.map_cons, List.cons_append, Item.mark,
    Item.lexemes, Item.lexemes_append, Item.lexemes_separated, List.flatMap_map, List.append_assoc]

theorem lexemes_call_nil (f : Expr) :
    (call f []).lexemes = f.lexemes ++ [Lexeme.punct .openParen, .punct .closeParen] := rfl

theorem lexemes_call_cons (f e : Expr) (es : List Expr) :
    (call f (e :: es)).lexemes = f.lexemes ++ Lexeme.punct .openParen :: (e.lexemes ++
      (es.flatMap (fun x => .punct .comma :: x.lexemes) ++ [Lexeme.punct .closeParen])) := by
  simp only [lexemes, node, nodes_eq_map, Node.lexemes, List.map_cons, List.cons_append, Item.mark,
    Item.lexemes, Item.lexemes_append, Item.lexemes_separated, List.flatMap_map, List.append_assoc]

theorem lexemes_qualified (q : Text) (e : Expr) :
    (qualified q e).lexemes = .word q :: e.lexemes := by
  simp [lexemes, node, Node.lexemes, Item.lexemes]

theorem lexemes_subscript (e i : Expr) :
    (subscript e i).lexemes =
      e.lexemes ++ Lexeme.punct .openBracket :: (i.lexemes ++ [Lexeme.punct .closeBracket]) := rfl

theorem lexemes_member (e : Expr) (n : Name) :
    (member e n).lexemes = e.lexemes ++ [Lexeme.punct .dot, .word n.word] := rfl

theorem lexemes_unary (op : UnaryOp) (e : Expr) :
    (unary op e).lexemes = .punct op.punct :: e.lexemes := by
  simp [lexemes, node, Node.lexemes, Item.lexemes]

theorem lexemes_binary (op : BinaryOp) (l r : Expr) :
    (binary op l r).lexemes = l.lexemes ++ .punct op.punct :: r.lexemes := by
  simp [lexemes, node, Node.lexemes, Item.lexemes]

theorem lexemes_conditional (c t e : Expr) :
    (conditional c t e).lexemes =
      c.lexemes ++ .punct .question :: (t.lexemes ++ .punct .colon :: e.lexemes) := by
  simp [lexemes, node, Node.lexemes, Item.lexemes, Item.mark]

/-- What an expression without a sign starts with. -/
def startsSuffixed : Lexeme → Bool
  | .word w =>
    [WordClass.plain, .builtinVariable, .builtinFunction, .builtinType, .boolean].contains
      (classify w)
  | .int _ | .float _ => true
  | .punct p => [Punct.openParen, .openBrace].contains p
  | _ => false

def isSign : Lexeme → Bool
  | .punct p => (UnaryOp.ofPunct? p).isSome
  | _ => false

/-- What an expression starts with. -/
def starts (l : Lexeme) : Bool :=
  startsSuffixed l || isSign l

/-- A canonical expression has a first lexeme. -/
theorem head_suffixed : ∀ e : Expr, e.isCallee = true → e.canonical = true →
    ∃ l tail, e.lexemes = l :: tail ∧ startsSuffixed l = true
  | name (.valid cls w), _, h => by
    refine ⟨.word w, [], rfl, ?_⟩
    simp only [canonical, Name.canonical, Bool.and_eq_true, beq_iff_eq] at h
    obtain ⟨rfl, hn⟩ := h
    revert hn
    simp only [startsSuffixed]
    cases classify w <;> decide
  | name (.invalid cls w), _, h => by cases h
  | number (.int ds), _, _ => ⟨.int ds, [], rfl, rfl⟩
  | number (.float ds), _, _ => ⟨.float ds, [], rfl, rfl⟩
  | bool b, _, _ => ⟨.word (boolText b), [], rfl, by rw [startsSuffixed, classify_boolText]; rfl⟩
  | typeName w, _, h => by
    refine ⟨.word w, [], rfl, ?_⟩
    simp only [canonical, beq_iff_eq] at h
    simp [startsSuffixed, h]
  | paren e, _, _ => ⟨_, _, rfl, rfl⟩
  | array es, _, _ => ⟨_, _, rfl, rfl⟩
  | call f es, _, h => by
    simp only [canonical, Bool.and_eq_true] at h
    obtain ⟨l, tail, hl, hs⟩ := head_suffixed f h.1.1.1 h.1.1.2
    cases es with
    | nil => exact ⟨l, _, by rw [lexemes_call_nil, hl, List.cons_append], hs⟩
    | cons e es => exact ⟨l, _, by rw [lexemes_call_cons, hl, List.cons_append], hs⟩
  | subscript e i, _, h => by
    simp only [canonical, Bool.and_eq_true] at h
    obtain ⟨l, tail, hl, hs⟩ := head_suffixed e (isCallee_of_isSuffixed h.1.1.1) h.1.1.2
    exact ⟨l, _, by rw [lexemes_subscript, hl, List.cons_append], hs⟩
  | member e n, _, h => by
    simp only [canonical, Bool.and_eq_true] at h
    obtain ⟨l, tail, hl, hs⟩ := head_suffixed e (isCallee_of_isSuffixed h.1.1) h.1.2
    exact ⟨l, _, by rw [lexemes_member, hl, List.cons_append], hs⟩
  | error _, h, _ => nomatch h
  | qualified _ _, h, _ => nomatch h
  | unary _ _, h, _ => nomatch h
  | binary _ _ _, h, _ => nomatch h
  | conditional _ _ _, h, _ => nomatch h

theorem head_callee {e : Expr} (he : e.isCallee = true) (h : e.canonical = true) :
    ∃ l tail, e.lexemes = l :: tail ∧ starts l = true := by
  obtain ⟨l, tail, hl, hs⟩ := head_suffixed e he h
  exact ⟨l, tail, hl, by simp [starts, hs]⟩

theorem head_full : ∀ e : Expr, e.isFull = true → e.canonical = true →
    ∃ l tail, e.lexemes = l :: tail ∧ starts l = true
  | unary op e, _, _ => by
    refine ⟨.punct op.punct, e.lexemes, lexemes_unary op e, ?_⟩
    simp [starts, isSign]
  | binary op l r, _, h => by
    simp only [canonical, Bool.and_eq_true] at h
    obtain ⟨x, tail, hx, hs⟩ := head_full l (isFull_of_isChain h.1.1.1) h.1.1.2
    exact ⟨x, _, by rw [lexemes_binary, hx, List.cons_append], hs⟩
  | conditional c t e, _, h => by
    simp only [canonical, Bool.and_eq_true] at h
    obtain ⟨x, tail, hx, hs⟩ := head_full c (isFull_of_isChain h.1.1.1.1.1) h.1.1.1.1.2
    exact ⟨x, _, by rw [lexemes_conditional, hx, List.cons_append], hs⟩
  | name n, _, h => head_callee rfl h
  | number n, _, h => head_callee rfl h
  | bool b, _, h => head_callee rfl h
  | paren e, _, h => head_callee rfl h
  | array es, _, h => head_callee rfl h
  | call f es, _, h => head_callee rfl h
  | subscript e i, _, h => head_callee rfl h
  | member e n, _, h => head_callee rfl h
  | typeName _, h, _ => nomatch h
  | error _, h, _ => nomatch h
  | qualified _ _, h, _ => nomatch h

theorem depth_lt_depths {e : Expr} {es : List Expr} (h : e ∈ es) : e.depth < depths es := by
  induction es with
  | nil => cases h
  | cons x es ih =>
    rw [depths]
    rcases List.mem_cons.mp h with rfl | hm
    · omega
    · have := ih hm
      omega

/-- What starts an expression is neither a keyword, nor a qualifier, nor a mark that ends one. -/
theorem starts_word {w : Text} (h : starts (.word w) = true) :
    classify w ≠ .keyword ∧ classify w ≠ .paramQualifier := by
  simp only [starts, startsSuffixed, isSign, Bool.or_false] at h
  revert h
  cases classify w <;> decide

theorem starts_punct {p : Punct} (h : starts (.punct p) = true) :
    Grammar.endsExpression p = false ∧ AdjustOp.ofPunct? p = none := by
  revert h
  cases p <;> decide

theorem isSign_of_startsSuffixed {l : Lexeme} (h : startsSuffixed l = true) :
    isSign l = false := by
  cases l with
  | punct p =>
    revert h
    cases p <;> decide
  | _ => rfl

end Expr

/-- A call, a subscript or a member would extend what stands before. -/
def startsSuffix : Lexeme → Bool
  | .punct .openParen | .punct .openBracket | .punct .dot => true
  | _ => false

def isOperator : Lexeme → Bool
  | .punct p => (BinaryOp.ofPunct? p).isSome
  | _ => false

/-- What would extend an expression. -/
def extendsExpr (l : Lexeme) : Bool :=
  startsSuffix l || isOperator l || Recovery.isPunct .question l

theorem Ends.suffix {rest : List Lexeme} (h : Ends extendsExpr rest) : Ends startsSuffix rest :=
  h.mono fun l hl => by simp only [extendsExpr, Bool.or_eq_false_iff] at hl; exact hl.1.1

theorem Ends.operator {rest : List Lexeme} (h : Ends extendsExpr rest) : Ends isOperator rest :=
  h.mono fun l hl => by simp only [extendsExpr, Bool.or_eq_false_iff] at hl; exact hl.1.2

theorem Ends.question {rest : List Lexeme} (h : Ends extendsExpr rest) :
    Ends (Recovery.isPunct .question) rest :=
  h.mono fun l hl => by simp only [extendsExpr, Bool.or_eq_false_iff] at hl; exact hl.2

namespace Grammar

open ShaderSyntax.Parser

/-- Whatever growing the expression by suffixes gives on the rest, parsing gives on all of it. A
type is only taken for one before a parenthesis. -/
def BackSuffixed (e : Expr) : Prop :=
  ∀ levels tail out, e.depth ≤ levels →
    (e.isSuffixed = true ∨ tail.head? = some (.punct .openParen)) →
    (∀ rounds, tail.length ≤ rounds →
      growWithin (suffix (expression levels)) rounds e tail = out) →
    suffixed (expression levels) (e.lexemes ++ tail) = out

def BackOperand (e : Expr) : Prop :=
  ∀ levels rest, e.depth ≤ levels → Ends startsSuffix rest →
    operand levels (e.lexemes ++ rest) = .done e rest []

/-- The same for growing by operators. -/
def BackChain (e : Expr) : Prop :=
  ∀ levels tail out, e.depth ≤ levels → Ends startsSuffix tail →
    (∀ rounds, tail.length ≤ rounds →
      growWithin (operation (operand levels)) rounds e tail = out) →
    chain (operand levels) (e.lexemes ++ tail) = out

def BackWhole (e : Expr) : Prop :=
  ∀ levels rest, e.depth < levels → Ends extendsExpr rest →
    expression levels (e.lexemes ++ rest) = .done e rest []

def BackArgument (e : Expr) : Prop :=
  ∀ levels rest, e.depth < levels → Ends extendsExpr rest →
    argument (expression levels) (e.lexemes ++ rest) = .done e rest []

/-- The expression comes back from each production that writes it. -/
structure Back (e : Expr) : Prop where
  suffixed : e.isCallee = true → BackSuffixed e
  operand : e.isOperand = true → BackOperand e
  chain : e.isChain = true → BackChain e
  whole : e.isFull = true → BackWhole e
  argument : e.isArgument = true → BackArgument e

theorem unsignedOr_other {sign : UnaryOp → Parser Expr} {expr : Parser Expr} {ts : List Lexeme}
    (h : Ends Expr.isSign ts) : unsignedOr sign expr ts = suffixed expr ts := by
  unfold unsignedOr
  split
  · next p rest =>
    have hp : UnaryOp.ofPunct? p = none := by simpa [Expr.isSign] using h.head
    rw [hp]
  · rfl

theorem operand_unsigned (levels : Nat) {ts : List Lexeme} (h : Ends Expr.isSign ts) :
    operand levels ts = suffixed (expression levels) ts := by
  cases levels with
  | zero => exact unsignedOr_other h
  | succ levels => exact unsignedOr_other h

section Forms

variable {e : Expr}

theorem BackSuffixed.operand (hs : e.isSuffixed = true) (hc : e.canonical = true)
    (h : BackSuffixed e) : BackOperand e := by
  intro levels rest hd hr
  obtain ⟨l, tail, hl, hsl⟩ := Expr.head_suffixed e (Expr.isCallee_of_isSuffixed hs) hc
  have hsign : Ends Expr.isSign (e.lexemes ++ rest) := by
    rw [hl]
    exact ends_cons (Expr.isSign_of_startsSuffixed hsl)
  rw [operand_unsigned levels hsign]
  refine h levels rest _ hd (.inl hs) fun rounds _ => growWithin_end ?_ rounds
  intro l hl
  have hnone := hr l hl
  revert hnone
  cases l with
  | punct p => cases p <;> simp [startsSuffix, suffix]
  | _ => simp [suffix]

theorem BackOperand.chain (h : BackOperand e) : BackChain e := by
  intro levels tail out hd ht hg
  rw [Grammar.chain, bind_done (h levels tail hd ht)]
  exact hg tail.length (Nat.le_refl _)

theorem BackChain.whole (h : BackChain e) : BackWhole e := by
  intro levels rest hd hr
  obtain ⟨levels, rfl⟩ : ∃ n, levels = n + 1 := ⟨levels - 1, by omega⟩
  have hend : ∀ l ∈ rest.head?, operation (operand levels) e l = none := by
    intro l hl
    have hop := hr.operator l hl
    revert hop
    cases l <;> simp [isOperator, operation]
  have hchain := h levels rest (.done e rest []) (by omega) hr.suffix
    fun rounds _ => growWithin_end hend rounds
  rw [expression_succ, conditional, bind_done hchain]
  exact onPunct_other _ _ hr.question

theorem BackWhole.argument (hf : e.isFull = true) (hc : e.canonical = true) (h : BackWhole e) :
    BackArgument e := by
  intro levels rest hd hr
  obtain ⟨l, tail, hl, hs⟩ := Expr.head_full e hf hc
  have hq : Ends (isWordOf .paramQualifier) (e.lexemes ++ rest) := by
    rw [hl]
    apply ends_cons
    cases l with
    | word w => simpa [isWordOf] using (Expr.starts_word hs).2
    | _ => rfl
  rw [Grammar.argument, bind_done (qualifier_none hq), bind_done (h levels rest hd hr)]
  rfl

theorem BackChain.back (hs : e.isOperand = false) (hchain : e.isChain = true)
    (hc : e.canonical = true) (h : BackChain e) : Back e := by
  have hfull := Expr.isFull_of_isChain hchain
  refine ⟨?_, ?_, fun _ => h, fun _ => h.whole, fun _ => h.whole.argument hfull hc⟩
  · intro hcallee
    cases e <;> simp_all [Expr.isCallee, Expr.isOperand, Expr.isChain, Expr.isSuffixed]
  · simp [hs]

theorem BackSuffixed.back (hs : e.isSuffixed = true) (hc : e.canonical = true)
    (h : BackSuffixed e) : Back e := by
  have hop := h.operand hs hc
  have hfull := Expr.isFull_of_isChain (Expr.isChain_of_isOperand (Expr.isOperand_of_isSuffixed hs))
  exact ⟨fun _ => h, fun _ => hop, fun _ => hop.chain, fun _ => hop.chain.whole,
    fun _ => hop.chain.whole.argument hfull hc⟩

/-- A primary expression is the left end of a suffixed one. -/
theorem backSuffixed_of_primary
    (h : ∀ levels tail, e.depth ≤ levels →
      (e.isSuffixed = true ∨ tail.head? = some (.punct .openParen)) →
      primary (expression levels) (e.lexemes ++ tail) = .done e tail []) : BackSuffixed e := by
  intro levels tail out hd ht hg
  rw [Grammar.suffixed, bind_done (h levels tail hd ht)]
  exact hg tail.length (Nat.le_refl _)

end Forms

theorem back_name {n : Name} (h : n.canonical = true) : Back (.name n) := by
  refine (backSuffixed_of_primary ?_).back rfl h
  intro levels tail _ _
  have hname := name_done h tail
  cases n with
  | valid cls w =>
    simp only [Name.canonical, Bool.and_eq_true, beq_iff_eq] at h
    obtain ⟨rfl, hn⟩ := h
    have hbool : boolOf? w = none := boolOf?_eq_none fun hb => by simp [hb, WordClass.isName] at hn
    have htype : classify w ≠ .builtinType := fun ht => by simp [ht, WordClass.isName] at hn
    change wordExpr w (.word w :: tail) = _
    simp only [wordExpr, hbool, htype, false_and, if_false]
    exact andThen_done hname
  | invalid cls w => cases h

theorem back_number (n : Number) : Back (.number n) := by
  refine (backSuffixed_of_primary ?_).back rfl rfl
  intro levels tail _ _
  cases n <;> rfl

theorem back_bool (b : Bool) : Back (.bool b) := by
  refine (backSuffixed_of_primary ?_).back rfl rfl
  intro levels tail _ _
  change wordExpr (boolText b) (.word (boolText b) :: tail) = _
  simp [wordExpr]

theorem back_typeName {w : Text} (h : classify w = .builtinType) : Back (.typeName w) := by
  refine ⟨fun _ => backSuffixed_of_primary ?_, nofun, nofun, nofun, nofun⟩
  intro levels tail _ ht
  have hopen : tail.head? = some (.punct .openParen) := ht.resolve_left (by simp [Expr.isSuffixed])
  have hbool : boolOf? w = none := boolOf?_eq_none (by simp [h])
  change wordExpr w (.word w :: tail) = _
  simp [wordExpr, hbool, h, ← List.head?_eq_getElem?, hopen]

theorem parenthesized_done {e : Expr} (h : BackWhole e) {levels : Nat} (hd : e.depth < levels)
    (rest : List Lexeme) :
    parenthesized (expression levels) ((Expr.paren e).lexemes ++ rest) = .done e rest [] := by
  have hinner := h levels (.punct .closeParen :: rest) hd (ends_cons rfl)
  rw [Expr.lexemes_paren, List.cons_append, List.append_assoc, parenthesized]
  refine (bind_done (require_done .beforeExpression _)).trans ((bind_done hinner).trans ?_)
  exact bind_done (require_done .afterExpression rest)

theorem back_paren {e : Expr} (hf : e.isFull = true) (hc : e.canonical = true) (h : Back e) :
    Back (.paren e) := by
  refine (backSuffixed_of_primary ?_).back rfl (by simp [Expr.canonical, hf, hc])
  intro levels tail hd _
  exact andThen_done (parenthesized_done (h.whole hf) (Nat.lt_of_succ_le hd) tail)

/-- Expressions with commas between them come back, up to a mark that closes them. -/
theorem list_done {item : Parser Expr} {e : Expr} {es : List Expr}
    (hitem : ∀ x ∈ e :: es, ∀ mid, Ends extendsExpr mid →
      item (x.lexemes ++ mid) = .done x mid [])
    {p : Punct} (hp : extendsExpr (.punct p) = false) (hcomma : p ≠ .comma)
    (tail : List Lexeme) :
    separated item (e.lexemes ++
      (es.flatMap (fun x => .punct .comma :: x.lexemes) ++ .punct p :: tail)) =
      .done (e :: es) (.punct p :: tail) [] :=
  separated_done e es _ hitem rfl (ends_cons hp)
    (ends_cons (by simpa [Recovery.isPunct] using hcomma))

theorem back_array {es : List Expr} (hc : (Expr.array es).canonical = true)
    (h : ∀ x ∈ es, Back x) : Back (.array es) := by
  refine (backSuffixed_of_primary ?_).back rfl hc
  intro levels tail hd _
  simp only [Expr.canonical, Bool.and_eq_true, Bool.not_eq_true', List.isEmpty_eq_false_iff] at hc
  obtain ⟨⟨hne, hfull⟩, -⟩ := hc
  obtain ⟨e, es, rfl⟩ := List.exists_cons_of_ne_nil hne
  have hitem : ∀ x ∈ e :: es, ∀ mid, Ends extendsExpr mid →
      expression levels (x.lexemes ++ mid) = .done x mid [] := by
    intro x hx mid hmid
    refine (h x hx).whole (List.all_eq_true.mp hfull x hx) levels mid ?_ hmid
    exact Nat.lt_of_lt_of_le (Expr.depth_lt_depths hx) hd
  have helements : elements (expression levels) (e.lexemes ++
      (es.flatMap (fun x => .punct .comma :: x.lexemes) ++ .punct .closeBrace :: tail)) =
      .done (e :: es) tail [] := by
    rw [elements, bind_done (list_done hitem rfl (by decide) tail)]
    exact bind_done (require_done .closeArrayLiteral tail)
  rw [Expr.lexemes_array, List.cons_append, List.append_assoc, List.append_assoc]
  exact andThen_done helements

theorem arguments_nil (expr : Parser Expr) (tail : List Lexeme) :
    arguments expr (.punct .closeParen :: tail) = .done [] tail [] := rfl

/-- An expression does not start with a mark that ends one. -/
theorem ends_expr {p : Punct} (hp : endsExpression p = true) {e : Expr} (hf : e.isFull = true)
    (hc : e.canonical = true) (tail : List Lexeme) :
    Ends (Recovery.isPunct p) (e.lexemes ++ tail) := by
  obtain ⟨l, more, hl, hs⟩ := Expr.head_full e hf hc
  rw [hl]
  apply ends_cons
  cases l with
  | punct q =>
    have hq : q ≠ p := by
      rintro rfl
      rw [(Expr.starts_punct hs).1] at hp
      cases hp
    simpa [Recovery.isPunct] using hq
  | _ => rfl

theorem arguments_cons {levels : Nat} {e : Expr} {es : List Expr}
    (harg : (e :: es).all Expr.isArgument = true) (hc : Expr.canonicals (e :: es) = true)
    (h : ∀ x ∈ e :: es, Back x) (hd : Expr.depths (e :: es) ≤ levels) (tail : List Lexeme) :
    arguments (expression levels) (e.lexemes ++
      (es.flatMap (fun x => .punct .comma :: x.lexemes) ++ .punct .closeParen :: tail)) =
      .done (e :: es) tail [] := by
  have hitem : ∀ x ∈ e :: es, ∀ mid, Ends extendsExpr mid →
      argument (expression levels) (x.lexemes ++ mid) = .done x mid [] := by
    intro x hx mid hmid
    refine (h x hx).argument (List.all_eq_true.mp harg x hx) levels mid ?_ hmid
    exact Nat.lt_of_lt_of_le (Expr.depth_lt_depths hx) hd
  have hfirst : Ends (Recovery.isPunct .closeParen) (e.lexemes ++
      (es.flatMap (fun x => .punct .comma :: x.lexemes) ++ .punct .closeParen :: tail)) := by
    simp only [Expr.canonicals, List.all_cons, Bool.and_eq_true] at hc harg
    rcases Expr.isFull_or_qualified harg.1 with hf | ⟨q, v, rfl⟩
    · exact ends_expr rfl hf hc.1 _
    · rw [Expr.lexemes_qualified]
      exact ends_cons rfl
  rw [arguments, onPunct_other _ _ hfirst, bind_done (list_done hitem rfl (by decide) tail)]
  exact bind_done (require_done .closeArguments tail)

/-- One more suffix, which a mark starts. -/
theorem backSuffixed_of_step {f e : Expr} (hf : f.isCallee = true) (h : Back f) (l : Lexeme)
    (body : List Lexeme) (hl : e.lexemes = f.lexemes ++ l :: body) (hdepth : f.depth ≤ e.depth)
    (hbefore : f.isSuffixed = true ∨ l = .punct .openParen)
    (hstep : ∀ levels tail, e.depth ≤ levels →
      ∃ p, suffix (expression levels) f l = some p ∧ p (body ++ tail) = .done e tail []) :
    BackSuffixed e := by
  intro levels tail out hd _ hg
  obtain ⟨p, hp, hdone⟩ := hstep levels tail hd
  rw [hl, List.append_assoc, List.cons_append]
  refine h.suffixed hf levels _ out (by omega) (hbefore.imp id fun he => by rw [he]; rfl) ?_
  intro rounds hr
  rw [List.length_cons, List.length_append] at hr
  obtain ⟨rounds, rfl⟩ : ∃ n, rounds = n + 1 := ⟨rounds - 1, by omega⟩
  rw [growWithin_step hp hdone rounds]
  exact hg rounds (by omega)

theorem back_call {f : Expr} {es : List Expr} (hf : f.isCallee = true) (hcf : f.canonical = true)
    (harg : es.all Expr.isArgument = true) (hc : Expr.canonicals es = true) (h : Back f)
    (hs : ∀ x ∈ es, Back x) : Back (.call f es) := by
  have hcan : (Expr.call f es).canonical = true := by simp [Expr.canonical, hf, hcf, harg, hc]
  cases es with
  | nil =>
    refine (backSuffixed_of_step hf h _ _ (Expr.lexemes_call_nil f) (Nat.le_max_left _ _) (.inr rfl)
      ?_).back rfl hcan
    intro levels tail _
    exact ⟨_, rfl, bind_done (arguments_nil _ tail)⟩
  | cons e es =>
    refine (backSuffixed_of_step hf h _ _ (Expr.lexemes_call_cons f e es) (Nat.le_max_left _ _)
      (.inr rfl) ?_).back rfl hcan
    intro levels tail hd
    have hargs := arguments_cons harg hc hs (Nat.le_trans (Nat.le_max_right _ _) hd) tail
    refine ⟨_, rfl, ?_⟩
    rw [List.append_assoc, List.append_assoc]
    exact bind_done hargs

theorem back_subscript {e i : Expr} (he : e.isSuffixed = true) (hce : e.canonical = true)
    (hi : i.isFull = true) (hci : i.canonical = true) (h : Back e) (hb : Back i) :
    Back (.subscript e i) := by
  refine (backSuffixed_of_step (Expr.isCallee_of_isSuffixed he) h _ _ (Expr.lexemes_subscript e i)
    (Nat.le_max_left _ _) (.inl he) ?_).back rfl (by simp [Expr.canonical, he, hce, hi, hci])
  intro levels tail hd
  simp only [Expr.depth] at hd
  have hindex := hb.whole hi levels (.punct .closeBracket :: tail) (by omega) (ends_cons rfl)
  refine ⟨_, rfl, ?_⟩
  rw [List.append_assoc]
  exact (bind_done hindex).trans (bind_done (require_done .afterIndex tail))

theorem back_member {e : Expr} {n : Name} (he : e.isSuffixed = true) (hce : e.canonical = true)
    (hn : n.canonical = true) (h : Back e) : Back (.member e n) := by
  refine (backSuffixed_of_step (Expr.isCallee_of_isSuffixed he) h _ _ (Expr.lexemes_member e n)
    (Nat.le_refl _) (.inl he) ?_).back rfl (by simp [Expr.canonical, he, hce, hn])
  intro levels tail _
  exact ⟨_, rfl, bind_done (name_done hn tail)⟩

theorem back_qualified {q : Text} {e : Expr} (hq : classify q = .paramQualifier)
    (he : e.isFull = true) (h : Back e) : Back (.qualified q e) := by
  refine ⟨nofun, nofun, nofun, nofun, fun _ => ?_⟩
  intro levels rest hd hr
  rw [Expr.lexemes_qualified, List.cons_append, argument, bind_done (qualifier_some hq _),
    bind_done (h.whole he levels rest hd hr)]
  rfl

theorem back_unary {op : UnaryOp} {e : Expr} (he : e.isOperand = true) (hc : e.canonical = true)
    (h : Back e) : Back (.unary op e) := by
  have hop : BackOperand (.unary op e) := by
    intro levels rest hd hr
    simp only [Expr.depth] at hd
    obtain ⟨levels, rfl⟩ : ∃ n, levels = n + 1 := ⟨levels - 1, by omega⟩
    have hinner := h.operand he levels rest (by omega) hr
    have hsigned : signed (operand levels) op (.punct op.punct :: (e.lexemes ++ rest)) =
        .done (.unary op e) rest [] := by
      rw [signed]
      exact (bind_done rfl).trans (bind_done hinner)
    rw [Expr.lexemes_unary, List.cons_append, operand_succ]
    simpa [unsignedOr] using hsigned
  have hcan : (Expr.unary op e).canonical = true := by simp [Expr.canonical, he, hc]
  exact ⟨nofun, fun _ => hop, fun _ => hop.chain, fun _ => hop.chain.whole,
    fun _ => hop.chain.whole.argument rfl hcan⟩

theorem back_binary {op : BinaryOp} {l r : Expr} (hl : l.isChain = true) (hcl : l.canonical = true)
    (hr : r.isOperand = true) (hcr : r.canonical = true) (h : Back l) (hb : Back r) :
    Back (.binary op l r) := by
  refine BackChain.back rfl rfl (by simp [Expr.canonical, hl, hcl, hr, hcr]) ?_
  intro levels tail out hd ht hg
  simp only [Expr.depth] at hd
  have hright := hb.operand hr levels tail (by omega) ht
  rw [Expr.lexemes_binary, List.append_assoc, List.cons_append]
  refine h.chain hl levels _ out (by omega) (ends_cons (by cases op <;> rfl)) ?_
  intro rounds hrounds
  rw [List.length_cons, List.length_append] at hrounds
  obtain ⟨rounds, rfl⟩ : ∃ n, rounds = n + 1 := ⟨rounds - 1, by omega⟩
  have hstep : operation (operand levels) l (.punct op.punct) =
      some (operand levels >>= fun r => value (.binary op l r)) := by
    simp [operation]
  rw [growWithin_step hstep (bind_done hright) rounds]
  exact hg rounds (by omega)

theorem back_conditional {c t e : Expr} (hc : c.isChain = true) (hcc : c.canonical = true)
    (ht : t.isFull = true) (hct : t.canonical = true) (he : e.isFull = true)
    (hce : e.canonical = true) (h : Back c) (h₁ : Back t) (h₂ : Back e) :
    Back (.conditional c t e) := by
  have hwhole : BackWhole (.conditional c t e) := by
    intro levels rest hd hr
    simp only [Expr.depth] at hd
    obtain ⟨levels, rfl⟩ : ∃ n, levels = n + 1 := ⟨levels - 1, by omega⟩
    have hfirst := h.chain hc levels
      (.punct .question :: (t.lexemes ++ .punct .colon :: (e.lexemes ++ rest)))
      (.done c (.punct .question :: (t.lexemes ++ .punct .colon :: (e.lexemes ++ rest))) [])
      (by omega) (ends_cons rfl)
      fun rounds _ => growWithin_end (fun l hl => by cases hl; rfl) rounds
    have hthen := h₁.whole ht levels (.punct .colon :: (e.lexemes ++ rest)) (by omega)
      (ends_cons rfl)
    have helse := h₂.whole he levels rest (by omega) hr
    rw [Expr.lexemes_conditional, List.append_assoc, List.cons_append, List.append_assoc,
      List.cons_append, expression_succ, Grammar.conditional, bind_done hfirst, onPunct_same,
      bind_done hthen]
    exact (bind_done (require_done .conditionalBranch _)).trans (bind_done helse)
  have hcan : (Expr.conditional c t e).canonical = true := by
    simp [Expr.canonical, hc, hcc, ht, hct, he, hce]
  exact ⟨nofun, nofun, nofun, fun _ => hwhole, fun _ => hwhole.argument rfl hcan⟩

mutual

/-- Every canonical expression comes back. -/
theorem back : ∀ e : Expr, e.canonical = true → Back e
  | .name n, h => back_name h
  | .number n, _ => back_number n
  | .bool b, _ => back_bool b
  | .typeName w, h => back_typeName (by simpa [Expr.canonical] using h)
  | .error _, h => by cases h
  | .paren e, h => by
    simp only [Expr.canonical, Bool.and_eq_true] at h
    exact back_paren h.1 h.2 (back e h.2)
  | .array es, h => by
    have hs := h
    simp only [Expr.canonical, Bool.and_eq_true] at hs
    exact back_array h (backs es hs.2)
  | .call f es, h => by
    simp only [Expr.canonical, Bool.and_eq_true] at h
    obtain ⟨⟨⟨hf, hcf⟩, harg⟩, hc⟩ := h
    exact back_call hf hcf harg hc (back f hcf) (backs es hc)
  | .qualified q e, h => by
    simp only [Expr.canonical, Bool.and_eq_true, beq_iff_eq] at h
    obtain ⟨⟨hq, he⟩, hc⟩ := h
    exact back_qualified hq he (back e hc)
  | .subscript e i, h => by
    simp only [Expr.canonical, Bool.and_eq_true] at h
    obtain ⟨⟨⟨he, hce⟩, hi⟩, hci⟩ := h
    exact back_subscript he hce hi hci (back e hce) (back i hci)
  | .member e n, h => by
    simp only [Expr.canonical, Bool.and_eq_true] at h
    obtain ⟨⟨he, hce⟩, hn⟩ := h
    exact back_member he hce hn (back e hce)
  | .unary op e, h => by
    simp only [Expr.canonical, Bool.and_eq_true] at h
    exact back_unary h.1 h.2 (back e h.2)
  | .binary op l r, h => by
    simp only [Expr.canonical, Bool.and_eq_true] at h
    obtain ⟨⟨⟨hl, hcl⟩, hr⟩, hcr⟩ := h
    exact back_binary hl hcl hr hcr (back l hcl) (back r hcr)
  | .conditional c t e, h => by
    simp only [Expr.canonical, Bool.and_eq_true] at h
    obtain ⟨⟨⟨⟨⟨hc, hcc⟩, ht⟩, hct⟩, he⟩, hce⟩ := h
    exact back_conditional hc hcc ht hct he hce (back c hcc) (back t hct) (back e hce)

theorem backs : ∀ es : List Expr, Expr.canonicals es = true → ∀ e ∈ es, Back e
  | [], _, _, he => absurd he List.not_mem_nil
  | e :: es, h, x, hx => by
    simp only [Expr.canonicals, Bool.and_eq_true] at h
    rcases List.mem_cons.mp hx with hx | hx
    · rw [hx]
      exact back e h.1
    · exact backs es h.2 x hx

end

/-- A whole expression comes back, wherever nothing that would extend it follows. -/
theorem expression_done {e : Expr} (h : e.whole = true) {levels : Nat} (hd : e.depth < levels)
    {rest : List Lexeme} (hr : Ends extendsExpr rest) :
    expression levels (e.lexemes ++ rest) = .done e rest [] := by
  simp only [Expr.whole, Bool.and_eq_true] at h
  exact (back e h.2).whole h.1 levels rest hd hr

end Grammar

end ShaderSyntax
