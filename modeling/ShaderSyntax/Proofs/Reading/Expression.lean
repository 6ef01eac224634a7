import ShaderSyntax.Grammar.Expression
import ShaderSyntax.Proofs.Reading

/-!
# Names, types and expressions are read

Each production reads the node of its value, or the items that the node has after the lexemes taken
before. Productions over other productions are read under the assumption that those are, and the
induction on the levels of nesting discharges it.
-/
namespace ShaderSyntax

open ShaderSyntax.Parser

namespace Grammar

variable {expr operand : Parser Expr}

/-- One lexeme that is a leaf of a valid kind. -/
theorem account_leaf {k : Kind} (hk : k.isInvalid = false) (label : Label) (l : Lexeme)
    (rest : List Lexeme) : Item.Account [.child label (.leaf k l)] (l :: rest) rest [] :=
  ⟨rfl, by simp [Item.sites, Node.sites, hk], trivial, trivial⟩

/-- One lexeme that is a leaf of an invalid kind, and the finding about it. -/
theorem account_single {k : Kind} (hk : k.isInvalid = true) (label : Label) (l : Lexeme)
    (rest : List Lexeme) (problem : Problem) :
    Item.Account [.child label (.leaf k l)] (l :: rest) rest
      [.single problem (.leaf k l) (l :: rest).length] :=
  ⟨rfl, by simp [Finding.single, Finding.site, Item.sites, Item.size, Node.sites, hk], trivial,
    trivial⟩

theorem Name.kind_valid (cls : WordClass) (w : Text) :
    (Name.valid cls w).kind.isInvalid = false := by
  cases cls <;> rfl

theorem name_reads : name.ReadsNode Name.node := by
  intro ts
  unfold name
  split
  · next w rest =>
    dsimp only
    split
    · exact .of_account (Node.spells_child .value _) (account_leaf (Name.kind_valid _ w) _ _ rest)
    · exact .of_account (Node.spells_child .value _) (account_single rfl _ _ rest _)
  · exact .of_failed _ [] (List.suffix_refl ts)

theorem baseType_reads : baseType.ReadsNode TypeRef.node := by
  intro ts
  unfold baseType
  split
  · next w rest =>
    dsimp only
    split
    · exact .of_account (Node.spells_child .value _) (account_leaf rfl _ _ rest)
    · exact .of_account (Node.spells_child .value _) (account_leaf rfl _ _ rest)
    · exact .of_account (Node.spells_child .value _) (account_single rfl _ _ rest _)
  · exact .of_failed _ [] (List.suffix_refl ts)

theorem account_size (n : Text) (rest : List Lexeme) :
    Item.Account (sizeItems n) (.punct .openBracket :: .int n :: .punct .closeBracket :: rest) rest
      [] :=
  ⟨rfl, rfl, trivial, trivial⟩

theorem account_sizeSuffixes (ts : List Lexeme) :
    Item.Account ((sizeSuffixes ts).1.flatMap sizeItems) ts (sizeSuffixes ts).2 [] := by
  fun_induction sizeSuffixes ts with
  | case1 n rest sizes after he ih =>
    rw [he] at ih
    rw [List.flatMap_cons]
    exact (account_size n rest).append ih
  | case2 ts _ => exact .nil ts

/-- A type with sizes is made of the type before them and of the sizes. -/
theorem spells_foldl_array (base : TypeRef) (sizes : List Text) :
    (sizes.foldl .array base).node.Spells
      (.child .baseType base.node :: sizes.flatMap sizeItems) := by
  induction sizes generalizing base with
  | nil => exact Node.spells_child .baseType base.node
  | cons n sizes ih =>
    have hn : (TypeRef.array base n).node.Spells (.child .baseType base.node :: sizeItems n) :=
      Node.spells_branch rfl (List.cons_ne_nil _ _)
    simpa using (ih (.array base n)).open_child [] hn

theorem typeRef_reads : typeRef.ReadsNode TypeRef.node := by
  refine Reads.andThen (baseType_reads.child .baseType) ?_
  rintro base _ rfl ts
  exact .of_account (spells_foldl_array base _) (account_sizeSuffixes ts)

theorem arraySize_reads :
    arraySize.Reads fun n items => .mark .openBracket :: items = sizeItems n := by
  intro ts
  unfold arraySize
  split
  · next n rest =>
    have ha : Item.Account [.child .size (Number.int n).node] (.int n :: rest) rest [] :=
      account_leaf rfl _ _ rest
    refine Outcome.Reads.following ha (Reads.andThen (reads_require _) ?_ rest)
    rintro _ _ rfl
    exact reads_value rfl
  · exact .of_failed _ [] (List.suffix_refl ts)

theorem arraySizesWithin_reads (rounds : Nat) :
    (arraySizesWithin rounds).Reads fun ns items => items = ns.flatMap sizeItems := by
  induction rounds with
  | zero => exact reads_value rfl
  | succ rounds ih =>
    refine Reads.onPunct .openBracket ?_ (reads_value rfl)
    refine Reads.andThen arraySize_reads ?_
    intro n items hn
    refine Reads.andThen ih ?_
    rintro ns _ rfl
    exact reads_value (by simp [← hn])

/-- Sizes in a row are one child, if there are any. -/
theorem arraySizes_reads :
    arraySizes.Reads fun ns items => items = Item.child? .sizes (Specifier.sizesNode? ns) := by
  have h : arraySizes.Reads fun ns items => items = ns.flatMap sizeItems :=
    Reads.inRounds arraySizesWithin_reads
  refine fun ts => (h ts).convert ?_
  rintro ns _ rfl
  refine ⟨_, rfl, ?_⟩
  intro rest found ha
  cases ns with
  | nil => exact ha
  | cons n ns =>
    have hn : (Node.branch .arraySizes ((n :: ns).flatMap sizeItems)).Spells
        ((n :: ns).flatMap sizeItems) :=
      Node.spells_branch rfl (by simp [sizeItems])
    exact hn.child .sizes ha

theorem specifier_reads : specifier.Reads fun s items => items = s.items := by
  refine Reads.andThen (typeRef_reads.child .ofType) ?_
  rintro t _ rfl
  refine Reads.andThen (name_reads.child .named) ?_
  rintro n _ rfl
  refine Reads.andThen arraySizes_reads ?_
  rintro sizes _ rfl
  exact reads_value (by simp [Specifier.items])

theorem specifier_readsNode : specifier.ReadsNode Specifier.node := by
  refine specifier_reads.mono ?_
  rintro s _ rfl
  exact Node.spells_branch rfl (List.cons_ne_nil _ _)

theorem term_reads (wanted : Wanted) (cls : WordClass) {good bad : Kind}
    (hgood : good.isInvalid = false) (hbad : bad.isInvalid = true) (problem : Text → Problem) :
    (term wanted cls good bad problem).ReadsNode (Term.node good bad) := by
  intro ts
  unfold term
  split
  · next w rest =>
    split
    · exact .of_account (Node.spells_child .value _) (account_leaf hgood _ _ rest)
    · exact .of_account (Node.spells_child .value _) (account_single hbad _ _ rest _)
  · exact .of_failed _ [] (List.suffix_refl ts)

theorem argument_reads (h : expr.ReadsNode Expr.node) : (argument expr).ReadsNode Expr.node := by
  refine Reads.andThen
    (reads_qualifier .paramQualifier .paramQualifier (k := .paramQualifier) rfl) ?_
  rintro q _ rfl
  refine Reads.andThen (h.child .value) ?_
  rintro e _ rfl
  cases q with
  | none => exact reads_value (Node.spells_child .value e.node)
  | some w => exact reads_value (Node.spells_branch rfl (List.cons_ne_nil _ _))

theorem arguments_reads (h : expr.ReadsNode Expr.node) (label : Label) :
    (arguments expr).Reads fun es items =>
      items = Item.separated label (Expr.nodes es) ++ [Item.mark .closeParen] := by
  refine Reads.onPunct .closeParen (reads_value rfl) ?_
  refine Reads.andThen ((argument_reads h).separated label) ?_
  rintro es _ ⟨-, rfl⟩
  refine Reads.andThen (reads_require .closeArguments) ?_
  rintro _ _ rfl
  exact reads_value (by simp [Expr.nodes_eq_map, Place.punct])

theorem parenthesized_reads (h : expr.ReadsNode Expr.node) :
    (parenthesized expr).ReadsNode Expr.parenNode := by
  refine Reads.andThen (reads_require .beforeExpression) ?_
  rintro _ _ rfl
  refine Reads.andThen (h.child .value) ?_
  rintro e _ rfl
  refine Reads.andThen (reads_require .afterExpression) ?_
  rintro _ _ rfl
  apply reads_value
  rw [Expr.parenNode_eq]
  exact Node.spells_branch rfl (List.cons_ne_nil _ _)

theorem elements_reads (h : expr.ReadsNode Expr.node) :
    (elements expr).Reads fun es items =>
      items = Item.separated .value (Expr.nodes es) ++ [Item.mark .closeBrace] := by
  refine Reads.andThen (h.separated .value) ?_
  rintro es _ ⟨-, rfl⟩
  refine Reads.andThen (reads_require .closeArrayLiteral) ?_
  rintro _ _ rfl
  exact reads_value (by simp [Expr.nodes_eq_map, Place.punct])

theorem wordExpr_reads (w : Text) (rest : List Lexeme) :
    (wordExpr w (.word w :: rest)).Reads (.word w :: rest) fun e items => e.node.Spells items := by
  unfold wordExpr
  split
  · next b hb =>
    have hw := boolText_of_boolOf? hb
    subst hw
    exact .of_account (Node.spells_child .value _) (account_leaf rfl _ _ rest)
  · split
    · exact .of_account (Node.spells_child .value _) (account_leaf rfl _ _ rest)
    · refine Outcome.Reads.bind (name_reads.child .value _) ?_
      rintro n _ rfl
      exact reads_value (Node.spells_child .value n.node)

theorem strayExpr_reads (l : Lexeme) (rest : List Lexeme) :
    (strayExpr l (l :: rest)).Reads (l :: rest) fun e items => e.node.Spells items := by
  have ha : Item.Account [.child .value (.error ⟨[l], 0, .unexpected l⟩)] (l :: rest) rest
      [.single (.unexpected l) (.error ⟨[l], 0, .unexpected l⟩) (l :: rest).length] := by
    refine ⟨rfl, ?_, List.cons_ne_nil _ _, trivial⟩
    simp [Finding.single, Finding.site, Item.sites, Item.size, Node.sites]
  exact .of_account (Node.spells_child .value _) ha

theorem primary_reads (h : expr.ReadsNode Expr.node) : (primary expr).ReadsNode Expr.node := by
  intro ts
  unfold primary
  split
  · exact .of_failed _ [] (List.suffix_refl _)
  · next n rest => exact .of_account (Node.spells_child .value _) (account_leaf rfl _ _ rest)
  · next n rest => exact .of_account (Node.spells_child .value _) (account_leaf rfl _ _ rest)
  · next w rest => exact wordExpr_reads w rest
  · refine Outcome.Reads.bind (parenthesized_reads h _) ?_
    intro e items he
    apply reads_value
    rw [List.append_nil]
    exact he
  · next rest =>
    refine Outcome.Reads.following (.token _ rest) (Outcome.Reads.bind (elements_reads h rest) ?_)
    rintro es _ rfl
    apply reads_value
    rw [Expr.node, List.append_nil]
    exact Node.spells_branch rfl (List.cons_ne_nil _ _)
  · split
    · exact .of_failed _ [] (List.suffix_refl _)
    · exact strayExpr_reads _ _
  · exact strayExpr_reads _ _

theorem suffix_reads (h : expr.ReadsNode Expr.node) (e : Expr) (l : Lexeme) (q : Parser Expr)
    (hq : suffix expr e l = some q) :
    q.Reads fun b items => b.node.Spells (.child .argument e.node :: .token l :: items) := by
  unfold suffix at hq
  split at hq
  · cases hq
    refine Reads.andThen (arguments_reads h .argument) ?_
    rintro es _ rfl
    apply reads_value
    rw [Expr.node, List.append_nil]
    exact ⟨rfl, fun _ => rfl, fun hs => ⟨rfl, List.cons_ne_nil _ _, hs⟩⟩
  · cases hq
    refine Reads.andThen (h.child .index) ?_
    rintro i _ rfl
    refine Reads.andThen (reads_require .afterIndex) ?_
    rintro _ _ rfl
    apply reads_value
    rw [Expr.node]
    exact Node.spells_branch rfl (List.cons_ne_nil _ _)
  · cases hq
    refine Reads.andThen (name_reads.child .member) ?_
    rintro n _ rfl
    apply reads_value
    rw [Expr.node]
    exact Node.spells_branch rfl (List.cons_ne_nil _ _)
  · cases hq

theorem suffixed_reads (h : expr.ReadsNode Expr.node) : (suffixed expr).ReadsNode Expr.node := by
  refine Reads.andThen (primary_reads h) ?_
  intro e items he
  refine (reads_grow .argument (suffix_reads h) e).mono ?_
  intro b more hb
  exact hb items he

theorem operation_reads (h : operand.ReadsNode Expr.node) (e : Expr) (l : Lexeme)
    (q : Parser Expr) (hq : operation operand e l = some q) :
    q.Reads fun b items => b.node.Spells (.child .left e.node :: .token l :: items) := by
  unfold operation at hq
  split at hq
  · next p =>
    obtain ⟨op, hop, rfl⟩ := Option.map_eq_some_iff.mp hq
    have hp := BinaryOp.punct_of_ofPunct? hop
    subst hp
    refine Reads.andThen (h.child .right) ?_
    rintro r _ rfl
    apply reads_value
    rw [Expr.node]
    exact ⟨rfl, fun _ => rfl, fun hs => ⟨rfl, List.cons_ne_nil _ _, hs⟩⟩
  · cases hq

theorem chain_reads (h : operand.ReadsNode Expr.node) : (chain operand).ReadsNode Expr.node := by
  refine Reads.andThen h ?_
  intro e items he
  refine (reads_grow .left (operation_reads h) e).mono ?_
  intro b more hb
  exact hb items he

theorem conditional_reads (ho : operand.ReadsNode Expr.node) (h : expr.ReadsNode Expr.node) :
    (conditional operand expr).ReadsNode Expr.node := by
  refine Reads.andThen ((chain_reads ho).child .condition) ?_
  rintro c _ rfl
  refine Reads.onPunct .question ?_ (reads_value (Node.spells_child .condition c.node))
  refine Reads.andThen (h.child .action) ?_
  rintro t _ rfl
  refine Reads.andThen (reads_require .conditionalBranch) ?_
  rintro _ _ rfl
  refine Reads.andThen (h.child .alternate) ?_
  rintro e _ rfl
  apply reads_value
  rw [Expr.node]
  exact Node.spells_branch rfl (List.cons_ne_nil _ _)

theorem unsignedOr_reads {sign : UnaryOp → Parser Expr} (h : expr.ReadsNode Expr.node)
    (hs : ∀ op rest, (sign op (.punct op.punct :: rest)).Reads (.punct op.punct :: rest)
      fun e items => e.node.Spells items) :
    (unsignedOr sign expr).ReadsNode Expr.node := by
  intro ts
  unfold unsignedOr
  split
  · next p rest =>
    split
    · next op hop =>
      have hp := UnaryOp.punct_of_ofPunct? hop
      subst hp
      exact hs op rest
    · exact suffixed_reads h _
  · exact suffixed_reads h _

theorem signed_reads (h : operand.ReadsNode Expr.node) (op : UnaryOp) (rest : List Lexeme) :
    (signed operand op (.punct op.punct :: rest)).Reads (.punct op.punct :: rest)
      fun e items => e.node.Spells items := by
  have ha : Item.Account [.attribute .operator (.punct op.punct)] (.punct op.punct :: rest) rest
      [] := ⟨rfl, rfl, trivial⟩
  change Outcome.Reads
    (Outcome.after [] (operand.andThen (fun e => value (Expr.unary op e)) rest)) _ _
  refine Outcome.Reads.after ha (Reads.andThen (h.child .argument) ?_ rest)
  rintro e _ rfl
  apply reads_value
  rw [Expr.node]
  exact Node.spells_branch rfl (List.cons_ne_nil _ _)

/-- Whatever levels are left, expressions and operands read their nodes. -/
theorem ranked_reads (levels : Nat) :
    (expression levels).ReadsNode Expr.node ∧ (Grammar.operand levels).ReadsNode Expr.node := by
  induction levels with
  | zero =>
    refine ⟨reads_tooDeep, ?_⟩
    exact unsignedOr_reads reads_tooDeep fun op rest => reads_tooDeep _
  | succ levels ih =>
    have he : (expression (levels + 1)).ReadsNode Expr.node := conditional_reads ih.2 ih.1
    exact ⟨he, unsignedOr_reads he (signed_reads ih.2)⟩

theorem expression_reads (levels : Nat) : (expression levels).ReadsNode Expr.node :=
  (ranked_reads levels).1

end Grammar

end ShaderSyntax
