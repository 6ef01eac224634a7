import ShaderSyntax.Proofs.Invalid
import ShaderSyntax.Proofs.Judging.Declaration
import ShaderSyntax.Proofs.Limit
import ShaderSyntax.Proofs.Repeating

/-!
# The limit counts exactly

The depth of syntax is the number of levels that the grammar takes for it, neither more nor fewer. No
production gives syntax deeper than its levels, and where no production failed, each needs no more
levels than its syntax is deep. So a document without error nodes is parsed within a limit exactly if
its declarations are no deeper.
-/
namespace ShaderSyntax

open ShaderSyntax.Parser

theorem Stmt.depth_pos (s : Stmt) : 0 < s.depth := by
  cases s <;> simp [Stmt.depth]

namespace Decl

/-- The levels of all declarations of a file. -/
def depths : List Decl → Nat
  | [] => 0
  | d :: ds => max d.depth (depths ds)

theorem depths_le_iff (ds : List Decl) (levels : Nat) :
    depths ds ≤ levels ↔ ∀ d ∈ ds, d.depth ≤ levels := by
  induction ds with
  | nil => simp [depths]
  | cons d ds ih => rw [depths, Nat.max_le, ih, List.forall_mem_cons]

end Decl

namespace Grammar

variable {start : Prop} {levels : Nat}

section Expressions

variable {expr expr' operand operand' : Parser Expr}

theorem argument_repeats (h : Repeats True expr expr' fun e => e.depth < levels) :
    Repeats True (argument expr) (argument expr') fun e => e.depth < levels := by
  apply Repeats.andThen (repeats_pass _)
  intro q
  apply Repeats.andThen h
  intro e
  cases q with
  | none => exact repeats_value id
  | some w => exact repeats_value id

theorem arguments_repeats (h : Repeats True expr expr' fun e => e.depth < levels) :
    Repeats True (arguments expr) (arguments expr') fun es => Expr.depths es ≤ levels := by
  simp only [Expr.depths_le_iff]
  apply Repeats.onPunct
  · exact repeats_value fun _ => trivial
  · exact (argument_repeats h).separated.andThen fun _ => (repeats_pass _).andThen fun _ =>
      repeats_value id

theorem parenthesized_repeats (h : Repeats True expr expr' fun e => e.depth < levels) :
    Repeats True (parenthesized expr) (parenthesized expr') fun e => e.depth < levels :=
  (repeats_pass _).andThen fun _ => h.andThen fun _ => (repeats_pass _).andThen fun _ =>
    repeats_value id

theorem elements_repeats (h : Repeats True expr expr' fun e => e.depth < levels) :
    Repeats True (elements expr) (elements expr') fun es => Expr.depths es ≤ levels := by
  simp only [Expr.depths_le_iff]
  exact h.separated.andThen fun _ => (repeats_pass _).andThen fun _ => repeats_value id

theorem primary_repeats (h : Repeats True expr expr' fun e => e.depth < levels) :
    Repeats True (primary expr) (primary expr') fun e => e.depth ≤ levels := by
  intro ts
  unfold primary
  split
  · exact Outcome.repeats_same fun _ _ => trivial
  · exact Outcome.repeats_same fun _ _ => trivial
  · exact Outcome.repeats_same fun _ _ => trivial
  · exact Outcome.repeats_same fun _ _ => trivial
  · exact (parenthesized_repeats h).andThen (fun _ => repeats_value id) _
  · exact (elements_repeats h).andThen (fun _ => repeats_value id) _
  · exact Outcome.repeats_same fun _ _ => trivial
  · exact Outcome.repeats_same fun _ _ => trivial

theorem suffix_repeats (h : Repeats True expr expr' fun e => e.depth < levels) (e : Expr)
    (l : Lexeme) :
    Option.Rel (fun p p' => Repeats (e.depth ≤ levels) p p' fun b => b.depth ≤ levels)
      (suffix expr e l) (suffix expr' e l) := by
  unfold suffix
  split
  · exact .some (((arguments_repeats h).frame _).andThen fun _ => repeats_value Nat.max_le.mp)
  · exact .some ((h.frame _).andThen fun _ => (repeats_pass _).andThen fun _ =>
      repeats_value Nat.max_le.mp)
  · exact .some ((repeats_pass _).andThen fun _ => repeats_value id)
  · exact .none

theorem suffixed_repeats (h : Repeats True expr expr' fun e => e.depth < levels) :
    Repeats True (suffixed expr) (suffixed expr') fun e => e.depth ≤ levels :=
  (primary_repeats h).andThen (.grow (suffix_repeats h))

theorem operation_repeats (h : Repeats True operand operand' fun e => e.depth ≤ levels) (e : Expr)
    (l : Lexeme) :
    Option.Rel (fun p p' => Repeats (e.depth ≤ levels) p p' fun b => b.depth ≤ levels)
      (operation operand e l) (operation operand' e l) := by
  unfold operation
  split
  · next p =>
    cases BinaryOp.ofPunct? p with
    | none => exact .none
    | some op => exact .some ((h.frame _).andThen fun _ => repeats_value Nat.max_le.mp)
  · exact .none

theorem conditional_repeats (ho : Repeats True operand operand' fun e => e.depth ≤ levels)
    (h : Repeats True expr expr' fun e => e.depth < levels) :
    Repeats True (conditional operand expr) (conditional operand' expr')
      fun e => e.depth ≤ levels := by
  apply Repeats.andThen (ho.andThen (.grow (operation_repeats ho)))
  intro c
  apply Repeats.onPunct
  · apply Repeats.andThen (h.frame _)
    intro t
    apply Repeats.andThen (repeats_pass _)
    intro _
    apply Repeats.andThen (h.frame _)
    intro e
    apply repeats_value
    simp only [Expr.depth, Nat.max_le]
    rintro ⟨hc, ht, he⟩
    exact ⟨⟨hc, ht⟩, he⟩
  · exact repeats_value id

theorem signed_depth_pos (operand : Parser Expr) (op : UnaryOp) :
    (signed operand op).Yields fun e _ => 0 < e.depth := by
  rw [signed, bind_eq_andThen]
  exact yields_after skip fun _ => yields_after operand fun _ =>
    yields_value fun _ => Nat.succ_pos _

theorem signed_repeats (h : Repeats True operand operand' fun e => e.depth ≤ levels)
    (op : UnaryOp) :
    Repeats True (signed operand op) (signed operand' op) fun e => e.depth ≤ levels + 1 := by
  rw [signed, signed, bind_eq_andThen, bind_eq_andThen]
  exact (repeats_pass skip).andThen fun _ => h.andThen fun _ =>
    repeats_value Nat.le_of_succ_le_succ

theorem unsignedOr_repeats {sign sign' : UnaryOp → Parser Expr}
    (hs : ∀ op, Repeats True (sign op) (sign' op) fun e => e.depth ≤ levels)
    (h : Repeats True expr expr' fun e => e.depth < levels) :
    Repeats True (unsignedOr sign expr) (unsignedOr sign' expr') fun e => e.depth ≤ levels := by
  intro ts
  unfold unsignedOr
  split
  · split
    · exact hs _ _
    · exact suffixed_repeats h _
  · exact suffixed_repeats h _

/-- An expression needs one level more than it is deep, and an operand needs none more. Below, the
first sign or the first expression inside it meets the limit, and the syntax is deeper than that. -/
theorem ranked_repeats {more : Nat} (hle : levels ≤ more) :
    Repeats True (expression levels) (expression more) (fun e => e.depth < levels) ∧
      Repeats True (Grammar.operand levels) (Grammar.operand more) fun e => e.depth ≤ levels := by
  induction levels generalizing more with
  | zero =>
    have hnever : Repeats True (expression 0) (expression more) fun e => e.depth < 0 :=
      repeats_never ((yields_any _).mono fun e _ _ => Nat.not_lt_zero e.depth)
    refine ⟨hnever, ?_⟩
    cases more with
    | zero => exact repeats_same fun _ _ => trivial
    | succ more =>
      refine unsignedOr_repeats (fun op => repeats_never ?_) hnever
      exact (signed_depth_pos (Grammar.operand more) op).mono fun e _ he => Nat.not_le.mpr he
  | succ levels ih =>
    obtain ⟨more, rfl⟩ : ∃ n, more = n + 1 := ⟨more - 1, by omega⟩
    obtain ⟨he, ho⟩ := ih (Nat.le_of_succ_le_succ hle)
    have hexpr : Repeats True (expression (levels + 1)) (expression (more + 1))
        fun e => e.depth < levels + 1 := by
      simp only [Nat.lt_succ_iff]
      exact conditional_repeats ho he
    exact ⟨hexpr, unsignedOr_repeats (signed_repeats ho) hexpr⟩

end Expressions

section Statements

variable {expr expr' : Parser Expr} {stmt stmt' : Parser Stmt}

theorem initializer_repeats (h : Repeats True expr expr' fun e => e.depth < levels) :
    Repeats True (initializer expr) (initializer expr') fun v => Expr.depth? v ≤ levels := by
  apply Repeats.onPunct
  · exact h.andThen fun _ => repeats_value id
  · exact repeats_value fun _ => trivial

theorem variableThrough_repeats (h : Repeats True expr expr' fun e => e.depth < levels)
    (place : Place) :
    Repeats True (variableThrough place expr) (variableThrough place expr')
      fun v => v.depth ≤ levels :=
  (repeats_pass _).andThen fun _ => (initializer_repeats h).andThen fun _ =>
    (repeats_pass _).andThen fun _ => repeats_value id

theorem constant_repeats (h : Repeats True expr expr' fun e => e.depth < levels) :
    Repeats True (constant expr) (constant expr') fun c => c.2.depth ≤ levels :=
  (repeats_pass _).andThen fun _ => (variableThrough_repeats h _).andThen fun _ =>
    repeats_value id

theorem adjusted_repeats (h : Repeats True expr expr' fun e => e.depth < levels) (op : AdjustOp) :
    Repeats True (adjusted expr op) (adjusted expr' op) fun a => a.depth ≤ levels := by
  apply Repeats.andThen (suffixed_repeats h)
  intro t
  split
  · exact repeats_value id
  · exact repeats_never (yields_fail _)

theorem actionOn_repeats (h : Repeats True expr expr' fun e => e.depth < levels) (t : Expr) :
    Repeats (t.depth < levels) (actionOn expr t) (actionOn expr' t) fun a => a.depth ≤ levels := by
  intro ts
  unfold actionOn
  split
  · next p rest =>
    split
    · split
      · exact (h.frame _).andThen (fun _ => repeats_value Nat.max_le.mp) _
      · exact Outcome.repeats_never Outcome.yields_failed
    · split
      · exact repeats_value id _
      · exact Outcome.repeats_never Outcome.yields_failed
    · exact repeats_value id _
  · exact repeats_value id _

theorem action_repeats (h : Repeats True expr expr' fun e => e.depth < levels) :
    Repeats True (action expr) (action expr') fun a => a.depth ≤ levels := by
  have hplain : Repeats True (plainAction expr) (plainAction expr') fun a => a.depth ≤ levels :=
    h.andThen (actionOn_repeats h)
  intro ts
  unfold action
  split
  · split
    · exact adjusted_repeats h _ _
    · exact hplain _
  · exact hplain _

theorem perform_repeats (h : Repeats True expr expr' fun e => e.depth < levels) :
    Repeats True (perform expr) (perform expr') fun s => s.depth ≤ levels + 1 :=
  (action_repeats h).andThen fun _ => (repeats_pass _).andThen fun _ =>
    repeats_value Nat.le_of_succ_le_succ

theorem statements_repeats (h : Repeats True stmt stmt' fun s => s.depth ≤ levels)
    (stop : Lexeme → Bool) :
    Repeats True (manyUntil stop (recoveredStmt stmt)) (manyUntil stop (recoveredStmt stmt'))
      fun body => Stmt.depths body ≤ levels := by
  simp only [Stmt.depths_le_iff]
  exact h.recovering.manyUntil stop

theorem block_repeats (h : Repeats True stmt stmt' fun s => s.depth ≤ levels) :
    Repeats True (block stmt) (block stmt') fun body => Stmt.depths body ≤ levels :=
  (repeats_pass _).andThen fun _ => (statements_repeats h _).andThen fun _ =>
    (repeats_pass _).andThen fun _ => repeats_value id

theorem branching_repeats (he : Repeats True expr expr' fun e => e.depth < levels)
    (h : Repeats True stmt stmt' fun s => s.depth ≤ levels) :
    Repeats True (branching expr stmt) (branching expr' stmt')
      fun s => s.depth ≤ levels + 1 := by
  apply Repeats.andThen (parenthesized_repeats he)
  intro c
  apply Repeats.andThen (h.frame _)
  intro t
  apply Repeats.onKeyword
  · apply Repeats.andThen (h.frame _)
    intro e
    apply repeats_value
    simp only [Stmt.depth, Nat.succ_le_succ_iff, Nat.max_le]
    rintro ⟨hc, ht, he⟩
    exact ⟨⟨hc, ht⟩, he⟩
  · apply repeats_value
    simp only [Stmt.depth, Nat.succ_le_succ_iff, Nat.max_le]
    exact id

theorem whileLoop_repeats (he : Repeats True expr expr' fun e => e.depth < levels)
    (h : Repeats True stmt stmt' fun s => s.depth ≤ levels) :
    Repeats True (whileLoop expr stmt) (whileLoop expr' stmt')
      fun s => s.depth ≤ levels + 1 := by
  apply Repeats.andThen (parenthesized_repeats he)
  intro c
  apply Repeats.andThen (h.frame _)
  intro b
  apply repeats_value
  simp only [Stmt.depth, Nat.succ_le_succ_iff, Nat.max_le]
  exact id

theorem forLoop_repeats (he : Repeats True expr expr' fun e => e.depth < levels)
    (h : Repeats True stmt stmt' fun s => s.depth ≤ levels) :
    Repeats True (forLoop expr stmt) (forLoop expr' stmt') fun s => s.depth ≤ levels + 1 := by
  apply Repeats.andThen (repeats_pass _)
  intro _
  apply Repeats.andThen (variableThrough_repeats he _)
  intro v
  apply Repeats.andThen (he.frame _)
  intro c
  apply Repeats.andThen (repeats_pass _)
  intro _
  apply Repeats.andThen ((action_repeats he).frame _)
  intro u
  apply Repeats.andThen (repeats_pass _)
  intro _
  apply Repeats.andThen (h.frame _)
  intro b
  apply repeats_value
  simp only [Stmt.depth, Nat.succ_le_succ_iff, Nat.max_le]
  rintro ⟨⟨hv, hc⟩, hu, hb⟩
  exact ⟨⟨⟨hv, hc⟩, hu⟩, hb⟩

theorem clauseBody_repeats (h : Repeats True stmt stmt' fun s => s.depth ≤ levels) :
    Repeats True (clauseBody stmt) (clauseBody stmt') fun body => Stmt.depths body ≤ levels :=
  (repeats_pass _).andThen fun _ => statements_repeats h _

theorem clause_repeats (he : Repeats True expr expr' fun e => e.depth < levels)
    (h : Repeats True stmt stmt' fun s => s.depth ≤ levels) :
    Repeats True (clause expr stmt) (clause expr' stmt') fun c => c.depth ≤ levels := by
  apply Repeats.onKeyword
  · exact he.andThen fun _ => ((clauseBody_repeats h).frame _).andThen fun _ =>
      repeats_value Nat.max_le.mp
  · apply Repeats.onKeyword
    · exact (clauseBody_repeats h).andThen fun _ => repeats_value id
    · exact repeats_never (yields_fail _)

theorem switchOn_repeats (he : Repeats True expr expr' fun e => e.depth < levels)
    (h : Repeats True stmt stmt' fun s => s.depth ≤ levels) :
    Repeats True (switchOn expr stmt) (switchOn expr' stmt') fun s => s.depth ≤ levels + 1 := by
  have hclauses : Repeats True
      (manyUntil (Recovery.isPunct .closeBrace)
        (recovering Recovery.resumeClause .error (clause expr stmt)))
      (manyUntil (Recovery.isPunct .closeBrace)
        (recovering Recovery.resumeClause .error (clause expr' stmt')))
      fun cs => Clause.depths cs ≤ levels := by
    simp only [Clause.depths_le_iff]
    exact (clause_repeats he h).recovering.manyUntil _
  apply Repeats.andThen (repeats_pass _)
  intro _
  apply Repeats.andThen he
  intro e
  apply Repeats.andThen (repeats_pass _)
  intro _
  apply Repeats.andThen (repeats_pass _)
  intro _
  apply Repeats.andThen (hclauses.frame _)
  intro cs
  apply Repeats.andThen (repeats_pass _)
  intro _
  apply repeats_value
  simp only [Stmt.depth, Nat.succ_le_succ_iff, Nat.max_le]
  exact id

theorem returnValue_repeats (h : Repeats True expr expr' fun e => e.depth < levels) :
    Repeats True (returnValue expr) (returnValue expr') fun s => s.depth ≤ levels + 1 := by
  apply Repeats.onPunct
  · exact repeats_value fun _ => trivial
  · exact h.andThen fun _ => (repeats_pass _).andThen fun _ =>
      repeats_value Nat.le_of_succ_le_succ

theorem plainStmt_repeats (h : Repeats True expr expr' fun e => e.depth < levels) :
    Repeats True (plainStmt expr) (plainStmt expr') fun s => s.depth ≤ levels + 1 := by
  intro ts
  unfold plainStmt
  split
  · exact (variableThrough_repeats h _).andThen
      (fun _ => repeats_value Nat.le_of_succ_le_succ) _
  · exact perform_repeats h _

theorem keywordStmt_repeats (he : Repeats True expr expr' fun e => e.depth < levels)
    (h : Repeats True stmt stmt' fun s => s.depth ≤ levels) (k : Keyword) :
    Option.Rel (fun p p' => Repeats True p p' fun s => s.depth ≤ levels + 1)
      (keywordStmt expr stmt k) (keywordStmt expr' stmt' k) := by
  unfold keywordStmt
  split
  · exact .some (branching_repeats he h)
  · exact .some (whileLoop_repeats he h)
  · exact .some (forLoop_repeats he h)
  · exact .some (switchOn_repeats he h)
  · exact .some (returnValue_repeats he)
  · exact .some (repeats_same fun _ _ => trivial)
  · exact .some (repeats_same fun _ _ => trivial)
  · exact .some ((constant_repeats he).andThen fun _ =>
      repeats_value Nat.le_of_succ_le_succ)
  · exact .none

theorem statementOf_repeats (he : Repeats True expr expr' fun e => e.depth < levels)
    (h : Repeats True stmt stmt' fun s => s.depth ≤ levels) :
    Repeats True (statementOf expr stmt) (statementOf expr' stmt')
      fun s => s.depth ≤ levels + 1 := by
  intro ts
  unfold statementOf
  split
  · exact (block_repeats h).andThen (fun _ => repeats_value Nat.le_of_succ_le_succ) _
  · next w rest =>
    have hk := keyword_rel (keywordStmt_repeats he h) w
    generalize (Keyword.ofText? w).bind (keywordStmt expr stmt) = q,
      (Keyword.ofText? w).bind (keywordStmt expr' stmt') = q' at hk
    cases hk with
    | none => exact plainStmt_repeats he _
    | some hq => exact hq _
  · exact plainStmt_repeats he _

/-- A statement needs as many levels as it is deep, and at least one. -/
theorem statement_repeats {more : Nat} (hle : levels ≤ more) :
    Repeats True (statement levels) (statement more) fun s => s.depth ≤ levels := by
  induction levels generalizing more with
  | zero => exact repeats_never ((yields_any _).mono fun s _ _ => Nat.not_le.mpr s.depth_pos)
  | succ levels ih =>
    obtain ⟨more, rfl⟩ : ∃ n, more = n + 1 := ⟨more - 1, by omega⟩
    have hle' := Nat.le_of_succ_le_succ hle
    exact statementOf_repeats (ranked_repeats hle').1 (ih hle')

end Statements

section Declarations

variable {expr expr' : Parser Expr} {stmt stmt' : Parser Stmt}

theorem uniform_repeats (h : Repeats True expr expr' fun e => e.depth < levels)
    (scope : Option Scope) :
    Repeats True (uniform scope expr) (uniform scope expr') fun d => d.depth ≤ levels :=
  (repeats_pass _).andThen fun _ => (repeats_pass _).andThen fun _ =>
    (repeats_pass _).andThen fun _ => (initializer_repeats h).andThen fun _ =>
      (repeats_pass _).andThen fun _ => repeats_value id

theorem function_repeats (h : Repeats True stmt stmt' fun s => s.depth ≤ levels) :
    Repeats True (function stmt) (function stmt') fun d => d.depth ≤ levels :=
  (repeats_pass _).andThen fun _ => (repeats_pass _).andThen fun _ =>
    (repeats_pass _).andThen fun _ => (repeats_pass _).andThen fun _ =>
      (block_repeats h).andThen fun _ => repeats_value id

theorem keywordDecl_repeats (h : Repeats True expr expr' fun e => e.depth < levels)
    (k : Keyword) :
    Option.Rel (fun p p' => Repeats True p p' fun d => d.depth ≤ levels)
      (keywordDecl expr k) (keywordDecl expr' k) := by
  have hscoped : ∀ scope, Repeats True (scopedUniform scope expr) (scopedUniform scope expr')
      fun d => d.depth ≤ levels :=
    fun scope => .onKeyword .uniform (uniform_repeats h _) (repeats_never (yields_fail _))
  unfold keywordDecl
  split
  · exact .some (repeats_same fun _ _ => trivial)
  · exact .some (repeats_same fun _ _ => trivial)
  · exact .some ((constant_repeats h).andThen fun _ => repeats_value id)
  · exact .some (repeats_same fun _ _ => trivial)
  · exact .some (repeats_same fun _ _ => trivial)
  · exact .some (uniform_repeats h none)
  · exact .some (hscoped .wide)
  · exact .some (hscoped .perInstance)
  · exact .some (repeats_same fun _ _ => trivial)
  · exact .none

theorem declarationOf_repeats (he : Repeats True expr expr' fun e => e.depth < levels)
    (h : Repeats True stmt stmt' fun s => s.depth ≤ levels) :
    Repeats True (declarationOf expr stmt) (declarationOf expr' stmt')
      fun d => d.depth ≤ levels := by
  intro ts
  unfold declarationOf
  split
  · exact Outcome.repeats_same fun _ _ => trivial
  · next w rest =>
    have hk := keyword_rel (keywordDecl_repeats he) w
    generalize (Keyword.ofText? w).bind (keywordDecl expr) = q,
      (Keyword.ofText? w).bind (keywordDecl expr') = q' at hk
    cases hk with
    | none => exact function_repeats h _
    | some hq => exact hq _
  · exact Outcome.repeats_same fun _ _ => trivial

/-- A file needs no more levels than the deepest of its declarations. -/
theorem declarations_repeats {more : Nat} (hle : levels ≤ more) :
    Repeats True (declarations levels) (declarations more) fun ds => Decl.depths ds ≤ levels := by
  simp only [Decl.depths_le_iff]
  exact (declarationOf_repeats (ranked_repeats hle).1 (statement_repeats hle)).recovering.manyUntil _

end Declarations

end Grammar

namespace Document

variable {levels : Nat} {text : Text} {d : Document}

/-- Without error nodes in the trees there are none among the findings. -/
theorem intact_of_walk (h : parse levels text = .ok d)
    (hv : ∀ v ∈ Tree.walk (fun _ => true) d.trees, v.tree.kind ≠ .error) : Intact d.findings := by
  intro f hf
  have hmem : d.source.place f.nodeLeft f.node ∈ d.invalidTrees := List.mem_map_of_mem hf
  rw [invalidTrees_walk h] at hmem
  obtain ⟨v, hvisit, hplace⟩ := List.mem_map.mp (List.mem_filter.mp hmem).1
  have hkind := hv v hvisit
  rw [hplace, Source.place, Node.kind_place] at hkind
  exact hkind

/-- A document is no deeper than the limit it was parsed within. -/
theorem depths_le (h : parse levels text = .ok d) : Decl.depths d.decls ≤ levels :=
  (Decl.depths_le_iff _ _).mpr fun x hx =>
    (Grammar.declarations_judged levels _ _ _ _ (parse_eq_ok_iff.mp h).2 x hx).depth

/-- A document without error nodes is parsed within every limit that it is no deeper than. -/
theorem parse_of_depths_le {less : Nat} (h : parse levels text = .ok d)
    (hi : Intact d.findings) (hless : Decl.depths d.decls ≤ less) : ∃ d', parse less text = .ok d' := by
  rcases Nat.le_total levels less with hle | hle
  · exact ⟨d, parse_of_le hle h⟩
  · obtain ⟨-, hdone⟩ := Grammar.declarations_repeats hle _ _ _ _ (parse_eq_ok_iff.mp h).2 hi hless
    exact ⟨_, by rw [parse, ofSource, hdone]⟩

end Document

/-- If a text has a document without error nodes under some limit, a positive limit is met exactly if
it is less than the depth of the declarations. -/
theorem limit_exact {levels : Nat} {text : Text} {d : Document}
    (h : Document.parse levels text = .ok d)
    (hv : ∀ v ∈ Tree.walk (fun _ => true) d.trees, v.tree.kind ≠ .error) {depth : Int}
    (hpos : 0 < depth) :
    (∃ e, Document.parse (levelsFor depth) text = .error e) ↔
      depth < (Decl.depths d.decls : Int) := by
  have hlevels := levelsFor_of_pos hpos
  constructor
  · rintro ⟨e, he⟩
    by_contra hge
    have hless : Decl.depths d.decls ≤ levelsFor depth := by omega
    obtain ⟨d', hd'⟩ := Document.parse_of_depths_le h (Document.intact_of_walk h hv) hless
    rw [he] at hd'
    cases hd'
  · intro hlt
    cases hp : Document.parse (levelsFor depth) text with
    | error e => exact ⟨e, rfl⟩
    | ok d' =>
      have hle := Document.depths_le hp
      have hmore := Document.parse_of_le (Nat.le_max_left levels (levelsFor depth)) h
      have hmore' := Document.parse_of_le (Nat.le_max_right levels (levelsFor depth)) hp
      rw [hmore] at hmore'
      cases hmore'
      omega

/-- The word `nope` is kept as an invalid leaf. The deepest place is the sign before `c`, below the
branch, the return, the value, the index and the choice; neither the loop nor the target of `++`
counts more. -/
theorem limit_exact_nested :
    let text := Text.ofString ("uniform int u : nope = - 1;\n" ++
      "void f() { if (a) return b[a ? - c : d]; for (int i = 0; i < 2; ++ i) { } }")
    ∃ d, Document.parse 9 text = .ok d ∧ Decl.depths d.decls = 6 ∧
      ((∃ e, Document.parse (levelsFor 5) text = .error e) ↔ (5 : Int) < Decl.depths d.decls) ∧
      ((∃ e, Document.parse (levelsFor 6) text = .error e) ↔ (6 : Int) < Decl.depths d.decls) := by
  intro text
  obtain ⟨d, hd, hchecked⟩ := Document.exists_parse 9 text
    (fun d => Decl.depths d.decls == 6 &&
      (Tree.walk (fun _ => true) d.trees).all fun v => v.tree.kind != .error) (by decide +kernel)
  simp only [Bool.and_eq_true, beq_iff_eq, List.all_eq_true, bne_iff_ne] at hchecked
  obtain ⟨hdepth, hv⟩ := hchecked
  exact ⟨d, hd, hdepth, limit_exact hd hv (by decide), limit_exact hd hv (by decide)⟩

end ShaderSyntax
