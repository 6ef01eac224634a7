import ShaderSyntax.Proofs.Boundaries.Declaration
import ShaderSyntax.Proofs.Fidelity
import ShaderSyntax.Proofs.Leaves

/-!
# Errors end at boundaries

An error that stands for a declaration, a statement, a member or a clause ends where parsing can go
on, and an error in an expression is one token. The boundary is told by the tokens: the last of the
error, or the next one behind it. Where that is a closing brace, it is the one that closes the
statements, members or clauses that the error stands among.
-/
namespace ShaderSyntax

open ShaderSyntax.Recovery

/-- The first token behind a span. -/
def tokenAfter? (tokens : List Token) (span : Span Nat) : Option Token :=
  tokens.find? fun t => span.stop ≤ t.span.start

/-- The last closing brace inside a span. -/
def closingBrace? (tokens : List Token) (span : Span Nat) : Option Token :=
  ((tokensIn tokens span).filter fun t => t.lexeme? = some (.punct .closeBrace)).getLast?

/-- The last token inside the span is a semicolon or a closing brace. -/
def EndsStatement (tokens : List Token) (span : Span Nat) : Prop :=
  ∃ last p, (tokensIn tokens span).getLast? = some last ∧ last.lexeme? = some (.punct p) ∧
    p ∈ [Punct.semicolon, .closeBrace]

/-- The tree in whose braces a visited tree holds what it holds: the braces around a clause are
those of its switch. -/
def Visit.body? (v : Visit) : Option Tree :=
  if v.tree.kind = .switchCase then v.parent? else some v.tree

/-- Every error of a document ends at a boundary, by what it stands for. -/
structure Document.Resynchronized (tokens : List Token) (d : Document) : Prop where
  /-- An error stands for a declaration, or under a label of a tree around it. -/
  owner : ∀ v ∈ Tree.walk (fun _ => true) d.trees, v.tree.kind = .error →
    v.tree ∈ d.trees ∨ ∃ u ∈ Tree.walk (fun _ => true) d.trees, ∃ label, u.tree.Holds label v.tree
  declaration : ∀ t ∈ d.trees, t.kind = .error →
    EndsStatement tokens t.span ∨ ∀ next ∈ tokenAfter? tokens t.span,
      ∃ l, next.lexeme? = some l ∧ startsDeclaration l = true
  statement : ∀ v ∈ Tree.walk (fun _ => true) d.trees, ∀ label ∈ [Label.statement, .member],
    ∀ t, v.tree.Holds label t → t.kind = .error →
      EndsStatement tokens t.span ∨ ∃ body brace, v.body? = some body ∧
        body.kind ∈ [Kind.block, .structDeclaration, .switchStatement] ∧
        tokenAfter? tokens t.span = some brace ∧ closingBrace? tokens body.span = some brace
  clause : ∀ v ∈ Tree.walk (fun _ => true) d.trees, ∀ t, v.tree.Holds .clause t →
    t.kind = .error → ∃ next, tokenAfter? tokens t.span = some next ∧
      ((∃ l, next.lexeme? = some l ∧ startsClause l = true) ∨
        closingBrace? tokens v.tree.span = some next)
  expression : ∀ v ∈ Tree.walk (fun _ => true) d.trees,
    ∀ label ∉ [Label.statement, .member, .clause], ∀ t, v.tree.Holds label t → t.kind = .error →
      ∃ token l, tokensIn tokens t.span = [token] ∧ token.lexeme? = some l ∧
        l ∉ [Punct.semicolon, .closeBrace, .closeParen, .closeBracket, .comma, .colon].map .punct

section Runs

variable {text : Text} {before run after : List Token} {ls xs ys zs : List Lexeme} {n : Node}

/-- The tokens between others spell the lexemes. -/
structure Between (text : Text) (before : List Token) (ls : List Lexeme) (run after : List Token) :
    Prop where
  tokens : written text = before ++ (run ++ after)
  lexemes : run.map Token.lexeme? = ls.map some

namespace Between

theorem toRun (h : Between text before ls run after) : Run text before.length ls run :=
  ⟨⟨before, after, h.tokens, rfl⟩, h.lexemes⟩

theorem split (h : Between text before (xs ++ (ys ++ zs)) run after) :
    ∃ r₁ r₂ r₃, run = r₁ ++ (r₂ ++ r₃) ∧ r₁.length = xs.length ∧
      Between text (before ++ r₁) ys r₂ (r₃ ++ after) ∧
      r₃.map Token.lexeme? = zs.map some := by
  have hm := h.lexemes
  rw [List.map_append, List.map_append, List.map_eq_append_iff] at hm
  obtain ⟨r₁, r, rfl, h₁, hr⟩ := hm
  obtain ⟨r₂, r₃, rfl, h₂, h₃⟩ := List.map_eq_append_iff.mp hr
  refine ⟨r₁, r₂, r₃, rfl, by simpa using congrArg List.length h₁, ⟨?_, h₂⟩, h₃⟩
  rw [h.tokens]
  simp only [List.append_assoc]

/-- The first token behind a placed node is the one behind its run. -/
theorem tokenAfter?_place (h : Between text before n.lexemes run after) (hs : n.Solid) :
    tokenAfter? (written text) (n.place (Source.ofText text).locate before.length).span =
      after.head? := by
  obtain ⟨first, last, -, hlast, hspan, -⟩ := Source.exists_locate h.toRun hs.lexemes_ne_nil
  have hord := written_ordered text
  rw [h.tokens] at hord
  obtain ⟨-, hrest, hbefore⟩ := List.pairwise_append.mp hord.pairwise
  obtain ⟨-, -, hafter⟩ := List.pairwise_append.mp hrest
  have hmem := List.mem_of_getLast? hlast
  have hlt := hord.start_lt_stop last (by simp [hmem])
  rw [Node.span_place, ← Node.length_lexemes, hspan, h.tokens, tokenAfter?, ← List.append_assoc,
    List.find?_append]
  have hnone : (before ++ run).find? (fun t => decide (last.span.stop ≤ t.span.start)) = none := by
    rw [List.find?_eq_none]
    intro t ht
    have hstart : t.span.start < last.span.stop := by
      rcases List.mem_append.mp ht with ht | ht
      · have hb := hbefore t ht last (by simp [hmem])
        have := hord.start_lt_stop t (by simp [ht])
        omega
      · have hle := hord.mid.le_stop hlast ht
        have := hord.start_lt_stop t (by simp [ht])
        omega
    simpa using hstart
  rw [hnone, Option.none_or]
  cases after with
  | nil => rfl
  | cons t more =>
    have ht := hafter last hmem t (by simp)
    simp [ht]

/-- The last token of a run spells the last lexeme. -/
theorem exists_last {l : Lexeme} (h : Between text before ls run after)
    (hl : ls.getLast? = some l) : ∃ last, run.getLast? = some last ∧ last.lexeme? = some l := by
  have hm := congrArg List.getLast? h.lexemes
  rw [List.getLast?_map, List.getLast?_map, hl, Option.map_some] at hm
  exact Option.map_eq_some_iff.mp hm

end Between

theorem closingBrace?_eq {tokens tail : List Token} {span : Span Nat} {brace : Token}
    (hin : tokensIn tokens span = run ++ brace :: tail)
    (hb : brace.lexeme? = some (.punct .closeBrace))
    (ht : ∀ t ∈ tail, t.lexeme? ≠ some (.punct .closeBrace)) :
    closingBrace? tokens span = some brace := by
  have htail : tail.filter (fun t => t.lexeme? = some (.punct .closeBrace)) = [] := by
    simpa [List.filter_eq_nil_iff] using ht
  simp [closingBrace?, hin, hb, htail]

end Runs

section Spots

variable {text : Text} {before run after : List Token} {items : List Item} {label : Label}
  {t : Tree} {k : Kind}

/-- Where placed items hold a tree: the items around its node, and the tokens around its run. -/
structure Spot (text : Text) (before run after : List Token) (items : List Item) (label : Label)
    (t : Tree) where
  front : List Item
  node : Node
  back : List Item
  left : List Token
  inner : List Token
  right : List Token
  items_eq : items = front ++ .child label node :: back
  run_eq : run = left ++ (inner ++ right)
  tree_eq : t = node.place (Source.ofText text).locate (before ++ left).length
  between : Between text (before ++ left) node.lexemes inner (right ++ after)
  right_lexemes : right.map Token.lexeme? = (Item.lexemes back).map some

/-- A child among placed items stands behind the items before it. -/
theorem Item.split_of_mem_place {locate : Nat → Nat → Span Nat} {start : Nat}
    (h : Field.child label t ∈ Item.place locate start items) :
    ∃ xs n ys, items = xs ++ .child label n :: ys ∧ t = n.place locate (start + Item.size xs) := by
  induction items generalizing start with
  | nil => cases h
  | cons x items ih =>
    have hrest : ∀ s, s = start + Item.size [x] → Field.child label t ∈ Item.place locate s items →
        ∃ xs n ys, x :: items = xs ++ .child label n :: ys ∧
          t = n.place locate (start + Item.size xs) := by
      rintro s rfl hs
      obtain ⟨xs, n, ys, rfl, ht⟩ := ih hs
      refine ⟨x :: xs, n, ys, rfl, ?_⟩
      have hsize : Item.size (x :: xs) = Item.size [x] + Item.size xs :=
        Item.size_append [x] xs
      rw [ht, hsize, Nat.add_assoc]
    rcases x with l | ⟨label', l⟩ | ⟨label', m⟩
    · exact hrest (start + 1) rfl h
    · exact hrest (start + 1) rfl (by simpa [Item.place] using h)
    · rcases List.mem_cons.mp h with he | h
      · cases he
        exact ⟨[], m, items, rfl, rfl⟩
      · exact hrest (start + m.size) (by simp [Item.size]) h

theorem Item.exists_spot (h : Between text before (Item.lexemes items) run after)
    (hc : Field.child label t ∈ Item.place (Source.ofText text).locate before.length items) :
    Nonempty (Spot text before run after items label t) := by
  obtain ⟨xs, n, ys, rfl, ht⟩ := Item.split_of_mem_place hc
  rw [Item.lexemes_append, Item.lexemes] at h
  obtain ⟨left, inner, right, hrun, hlen, hb, hright⟩ := h.split
  rw [Item.length_lexemes] at hlen
  exact ⟨xs, n, ys, left, inner, right, rfl, hrun, by rw [ht, List.length_append, hlen], hb, hright⟩

/-- What a placed node holds, it holds as a branch. -/
theorem Node.exists_spot {n : Node} (h : Between text before n.lexemes run after)
    (hc : (n.place (Source.ofText text).locate before.length).Holds label t) :
    ∃ k items, n = .branch k items ∧ Nonempty (Spot text before run after items label t) := by
  cases n with
  | leaf k l => cases hc
  | error s => cases hc
  | branch k items => exact ⟨k, items, rfl, Item.exists_spot h hc⟩

/-- Only error nodes have the kind of errors. -/
theorem Node.Stands.exists_error {n : Node} {rest : List Item} (h : n.Stands k label rest)
    (hk : n.kind = .error) : ∃ s, n = .error s ∧ s.Bounded k rest label := by
  cases n with
  | leaf k' l => exact absurd hk h
  | error s => exact ⟨s, rfl, h⟩
  | branch k' items' => exact absurd hk h.1

namespace Spot

variable (spot : Spot text before run after items label t)

include spot

theorem fenced (h : Item.Fenced k items) :
    spot.node.Stands k label spot.back ∧ spot.node.Fenced := by
  rw [spot.items_eq] at h
  generalize spot.front = front at h
  induction front with
  | nil => exact h.1
  | cons x front ih =>
    rcases x with l | ⟨label, l⟩ | ⟨label, n⟩
    · exact ih h
    · exact ih h
    · exact ih h.2

theorem solid (h : Item.Solid items) : spot.node.Solid := by
  rw [spot.items_eq, Item.solid_append] at h
  exact h.2.1

theorem tokensIn_span (h : Item.Solid items) : tokensIn (written text) t.span = spot.inner := by
  have hin := Node.tokensIn_place (spot.solid h) spot.between.toRun
  rwa [← spot.tree_eq] at hin

theorem tokenAfter?_span (h : Item.Solid items) :
    tokenAfter? (written text) t.span = (spot.right ++ after).head? := by
  have hafter := spot.between.tokenAfter?_place (spot.solid h)
  rwa [← spot.tree_eq] at hafter

/-- A tree that is an error is placed from an error, which stands where it is held. -/
theorem exists_error (h : spot.node.Stands k label spot.back) (hk : t.kind = .error) :
    ∃ s, spot.node = .error s ∧ s.Bounded k spot.back label := by
  rw [spot.tree_eq, Node.kind_place] at hk
  exact h.exists_error hk

theorem endsStatement (hs : Item.Solid items) {s : Skipped} (hn : spot.node = .error s)
    (h : s.EndsStatement) : EndsStatement (written text) t.span := by
  obtain ⟨l, hl, he⟩ := h
  have hb := spot.between
  rw [hn] at hb
  obtain ⟨last, hlast, hlex⟩ := hb.exists_last hl
  simp only [Recovery.endsStatement, isPunct, Bool.or_eq_true, decide_eq_true_eq] at he
  rw [EndsStatement, spot.tokensIn_span hs]
  rcases he with rfl | rfl
  · exact ⟨last, .semicolon, hlast, hlex, by simp⟩
  · exact ⟨last, .closeBrace, hlast, hlex, by simp⟩

/-- Where a closing brace stands behind a child, and no other in the same items, it is the last one
of the run. -/
theorem exists_brace {more : List Item} (hback : spot.back = .mark .closeBrace :: more)
    (hmore : .punct .closeBrace ∉ Item.lexemes more) {span : Span Nat}
    (hspan : tokensIn (written text) span = run) :
    ∃ brace tail, spot.right = brace :: tail ∧ closingBrace? (written text) span = some brace := by
  have hright := spot.right_lexemes
  rw [hback] at hright
  obtain ⟨brace, tail, hr, hb, htail⟩ := List.map_eq_cons_iff.mp hright
  have hin : tokensIn (written text) span = (spot.left ++ spot.inner) ++ brace :: tail := by
    rw [List.append_assoc, ← hr]
    exact hspan.trans spot.run_eq
  refine ⟨brace, tail, hr, closingBrace?_eq hin hb ?_⟩
  intro t ht hlex
  have hmem : some (.punct .closeBrace) ∈ tail.map Token.lexeme? := List.mem_map.mpr ⟨t, ht, hlex⟩
  rw [htail] at hmem
  exact hmore (by simpa using hmem)

/-- The token behind the child spells the first lexeme behind it. -/
theorem head?_right :
    spot.right.head?.map Token.lexeme? = (Item.lexemes spot.back).head?.map some := by
  have hhead := congrArg List.head? spot.right_lexemes
  rwa [List.head?_map, List.head?_map] at hhead

theorem exists_lexeme {next : Token} (h : spot.right.head? = some next) :
    ∃ l ∈ (Item.lexemes spot.back).head?, next.lexeme? = some l := by
  have hhead := spot.head?_right
  rw [h, Option.map_some] at hhead
  obtain ⟨l, hl, hlex⟩ := Option.map_eq_some_iff.mp hhead.symm
  exact ⟨l, hl, hlex.symm⟩

theorem exists_next {l : Lexeme} (h : (Item.lexemes spot.back).head? = some l) :
    ∃ next, spot.right.head? = some next ∧ next.lexeme? = some l := by
  have hhead := spot.head?_right
  rw [h, Option.map_some] at hhead
  exact Option.map_eq_some_iff.mp hhead

/-- A stray error is one token, and none of the marks that surround an expression. -/
theorem exists_token (hs : Item.Solid items) {s : Skipped} (hn : spot.node = .error s)
    (h : s.IsStray) : ∃ token l, tokensIn (written text) t.span = [token] ∧
      token.lexeme? = some l ∧
      l ∉ [Punct.semicolon, .closeBrace, .closeParen, .closeBracket, .comma, .colon].map .punct := by
  obtain ⟨l, hlex, hstray⟩ := h
  have hinner := spot.between.lexemes
  rw [hn, Node.lexemes, hlex] at hinner
  obtain ⟨token, more, heq, htoken, hmore⟩ := List.map_eq_cons_iff.mp hinner
  obtain rfl := List.map_eq_nil_iff.mp hmore
  refine ⟨token, l, by rw [spot.tokensIn_span hs, heq], htoken, ?_⟩
  have hends : ∀ p ∈ [Punct.semicolon, .closeBrace, .closeParen, .closeBracket, .comma, .colon],
      Grammar.endsExpression p = true := by decide
  intro hmem
  obtain ⟨p, hp, rfl⟩ := List.mem_map.mp hmem
  have hfalse := hstray p rfl
  rw [hends p hp] at hfalse
  cases hfalse

end Spot

/-- Children in a row stand before those behind them. -/
theorem Item.split_children {α : Type} {node : α → Node} {as : List α} {front back : List Item}
    {n : Node} (h : children label (as.map node) = front ++ .child label n :: back) :
    ∃ first a last, as = first ++ a :: last ∧ n = node a ∧
      back = children label (last.map node) := by
  rw [children, List.map_map, List.map_eq_append_iff] at h
  obtain ⟨first, more, rfl, -, hmore⟩ := h
  obtain ⟨a, last, rfl, ha, hback⟩ := List.map_eq_cons_iff.mp hmore
  cases ha
  exact ⟨first, a, last, rfl, rfl, by rw [← hback, children, List.map_map]⟩

theorem Item.child_mem_place {locate : Nat → Nat → Span Nat} (label : Label) {nodes : List Node}
    {start : Nat} (h : t ∈ Node.placeAll locate start nodes) :
    Field.child label t ∈ Item.place locate start (children label nodes) := by
  induction nodes generalizing start with
  | nil => cases h
  | cons n nodes ih =>
    rcases List.mem_cons.mp h with rfl | h
    · exact List.mem_cons_self
    · exact List.mem_cons_of_mem _ (ih h)

end Spots

/-- What closes statements or members starts with the one closing brace in it. -/
theorem Kind.closing?_eq {k : Kind} {rest : List Item} (h : k.closing? = some rest)
    (hk : k ≠ .switchCase) : k ∈ [block, structDeclaration] ∧
      ∃ more, rest = .mark .closeBrace :: more ∧ .punct .closeBrace ∉ Item.lexemes more := by
  unfold closing? at h
  split at h
  · cases h
    exact ⟨by simp, [], rfl, by simp [Item.lexemes]⟩
  · cases h
    exact ⟨by simp, [.mark .semicolon], rfl, by simp [Item.lexemes, Item.mark]⟩
  · exact absurd rfl hk
  · cases h

theorem Skipped.Bounded.isStray {owner : Kind} {rest : List Item} {s : Skipped} {label : Label}
    (h : s.Bounded owner rest label) (hl : label ∉ [Label.statement, .member, .clause]) :
    s.IsStray := by
  cases label <;> first | exact h | simp at hl

theorem Skipped.Bounded.statement {owner : Kind} {rest : List Item} {s : Skipped} {label : Label}
    (h : s.Bounded owner rest label) (hl : label ∈ [Label.statement, .member]) :
    s.EndsStatement ∨ owner.closing? = some rest := by
  cases label <;> first | exact h | simp at hl

theorem Node.inherits_fenced : Inherits Node.Fenced Item.Fenced := by
  constructor
  · exact fun _ _ h => h
  · exact fun _ _ _ h => h
  · exact fun _ _ _ _ h => h
  · exact fun _ _ _ _ h => ⟨h.1.2, h.2⟩

namespace Document

variable {levels : Nat} {text : Text} {d : Document} {v : Visit} {label : Label} {t : Tree}

theorem fenced_of_mem (h : parse levels text = .ok d) : ∀ decl ∈ d.decls, decl.node.Fenced := by
  intro decl hdecl
  obtain ⟨before, after, heq⟩ := List.append_of_mem hdecl
  rcases Grammar.declarations_recovered levels .value _ _ _ _ (parse_eq_ok_iff.mp h).2 before decl
    after heq with hfirm | ⟨s, rfl, -⟩
  · exact (hfirm .value).1
  · trivial

/-- What a visited tree holds stands in its place among the items of a branch. -/
theorem exists_spot (h : parse levels text = .ok d) (hv : v ∈ Tree.walk (fun _ => true) d.trees)
    (hc : v.tree.Holds label t) :
    ∃ items before run after, Item.Fenced v.tree.kind items ∧ Item.Solid items ∧
      tokensIn (written text) v.tree.span = run ∧
      Nonempty (Spot text before run after items label t) := by
  obtain ⟨n, hn, start, run, hs, hrun, ht⟩ := walk_placed h v hv
  obtain ⟨root, hroot, hsub⟩ := List.mem_flatMap.mp hn
  obtain ⟨decl, hdecl, rfl⟩ := List.mem_map.mp hroot
  have hf := Node.inherits_fenced.subnodes _ (fenced_of_mem h decl hdecl) n hsub
  have hin := Node.tokensIn_place hs hrun
  obtain ⟨before, after, hw, rfl⟩ := hrun.within
  rw [ht] at hc ⊢
  obtain ⟨k, items, rfl, hspot⟩ := Node.exists_spot ⟨hw, hrun.lexemes⟩ hc
  exact ⟨items, before, run, after, hf, hs.2.2, hin, hspot⟩

/-- What a walk meets is a declaration, or it is held by what the walk meets as its owner. -/
theorem root_or_owner (hv : v ∈ Tree.walk (fun _ => true) d.trees) :
    v.tree ∈ d.trees ∨ ∃ u ∈ Tree.walk (fun _ => true) d.trees, ∃ label,
      v.parent? = some u.tree ∧ u.tree.Holds label v.tree := by
  obtain ⟨t, ht, hvt⟩ := List.mem_flatMap.mp hv
  rcases Tree.exists_owner t none v hvt with rfl | ⟨u, hu, howner⟩
  · exact .inl ht
  · exact .inr ⟨u, List.mem_flatMap.mpr ⟨t, ht, hu⟩, howner⟩

/-- No declaration is a clause. -/
theorem kind_ne_switchCase (h : parse levels text = .ok d) (ht : t ∈ d.trees) :
    t.kind ≠ .switchCase := by
  rw [(trees_placed h).1] at ht
  obtain ⟨n, hn, start, rfl⟩ := Node.exists_of_mem_placeAll ht
  obtain ⟨decl, -, rfl⟩ := List.mem_map.mp hn
  rw [Node.kind_place]
  cases decl <;> exact fun hk => nomatch hk

/-- An error that ends a clause as no statement ends comes before the brace of the switch. -/
theorem exists_brace_of_clause (h : parse levels text = .ok d)
    (hv : v ∈ Tree.walk (fun _ => true) d.trees) (hv' : v.tree.kind = .switchCase)
    (hl : label ∈ [Label.statement, .member]) (hc : v.tree.Holds label t) (hk : t.kind = .error)
    (hends : ¬EndsStatement (written text) t.span) :
    ∃ switch brace, v.parent? = some switch ∧ switch.kind = .switchStatement ∧
      tokenAfter? (written text) t.span = some brace ∧
      closingBrace? (written text) switch.span = some brace := by
  obtain ⟨u, hu, label', hparent, hholds⟩ :=
    (root_or_owner hv).resolve_left fun ht => kind_ne_switchCase h ht hv'
  obtain ⟨items, before, run, after, hf, hs, hin, ⟨outer⟩⟩ := exists_spot h hu hholds
  obtain ⟨hstands, hfenced⟩ := outer.fenced hf
  have hsolid := outer.solid hs
  -- The clause as the switch holds it is the branch that holds the error.
  have htree := outer.tree_eq
  rw [htree] at hc hv'
  obtain ⟨k, inside, hn, ⟨inner⟩⟩ := Node.exists_spot outer.between hc
  rw [hn] at hstands hfenced hsolid hv'
  obtain rfl : k = .switchCase := by simpa [Node.kind] using hv'
  obtain ⟨s, hs', hb⟩ := inner.exists_error (inner.fenced hfenced).1 hk
  have hopen : ¬s.EndsStatement := fun he => hends (inner.endsStatement hsolid.2.2 hs' he)
  have hback : inner.back = [] := by
    have hclosing := (hb.statement hl).resolve_left hopen
    exact (Option.some.inj hclosing).symm
  have hlast : Item.EndsOpen inside := by
    refine ⟨label, s, ?_, hopen⟩
    rw [inner.items_eq, hback, hs', List.getLast?_concat]
  obtain ⟨hswitch, hclose⟩ := hstands.2 rfl hlast
  obtain ⟨brace, tail, hright, hbrace⟩ := outer.exists_brace hclose (by simp [Item.lexemes]) hin
  refine ⟨u.tree, brace, hparent, hswitch, ?_, hbrace⟩
  have hnil : inner.right = [] := by
    have hright' := inner.right_lexemes
    rw [hback] at hright'
    exact List.map_eq_nil_iff.mp hright'
  rw [inner.tokenAfter?_span hsolid.2.2, hnil, hright]
  rfl

/-- An error that stands for a declaration ends as a statement does, before the next declaration, or
with the file. -/
theorem error_declaration (h : parse levels text = .ok d) (ht : t ∈ d.trees)
    (hk : t.kind = .error) :
    EndsStatement (written text) t.span ∨ ∀ next ∈ tokenAfter? (written text) t.span,
      ∃ l, next.lexeme? = some l ∧ startsDeclaration l = true := by
  obtain ⟨htrees, hsolid, hrun⟩ := trees_placed h
  rw [htrees] at ht
  have hwhole : Between text [] (Item.lexemes (Item.children .value (d.decls.map Decl.node)))
      (written text) [] := ⟨by simp, hrun.lexemes⟩
  obtain ⟨spot⟩ := Item.exists_spot hwhole (Item.child_mem_place .value ht)
  obtain ⟨before, decl, after, hds, hn, hback⟩ := Item.split_children spot.items_eq
  rcases Grammar.declarations_recovered levels .value _ _ _ _ (parse_eq_ok_iff.mp h).2 before decl
    after hds with hfirm | ⟨s, rfl, hs | hnext⟩
  · rw [← hn] at hfirm
    obtain ⟨s, hs, -⟩ := spot.exists_error ((hfirm .value).2 .error _) hk
    rw [hs] at hfirm
    exact .inl (spot.endsStatement hsolid hs hfirm.endsStatement)
  · exact .inl (spot.endsStatement hsolid hn hs)
  · right
    intro next hmem
    rw [spot.tokenAfter?_span hsolid, List.append_nil] at hmem
    obtain ⟨l, hl, hlex⟩ := spot.exists_lexeme hmem
    rw [hback] at hl
    exact ⟨l, hlex, hnext l hl⟩

end Document

/-- Whatever the text and the limit, every error of a document ends at a boundary. -/
theorem errors_resynchronize {levels : Nat} {text : Text} {d : Document}
    (h : Document.parse levels text = .ok d) : d.Resynchronized (written text) := by
  constructor
  case owner =>
    intro v hv _
    rcases Document.root_or_owner hv with ht | ⟨u, hu, label, -, hc⟩
    · exact .inl ht
    · exact .inr ⟨u, hu, label, hc⟩
  case declaration =>
    exact fun t ht hk => Document.error_declaration h ht hk
  case statement =>
    intro v hv label hl t hc hk
    by_cases hends : EndsStatement (written text) t.span
    · exact .inl hends
    · right
      by_cases hclause : v.tree.kind = .switchCase
      · obtain ⟨switch, brace, hparent, hswitch, hnext, hbrace⟩ :=
          Document.exists_brace_of_clause h hv hclause hl hc hk hends
        refine ⟨switch, brace, ?_, by simp [hswitch], hnext, hbrace⟩
        rw [Visit.body?, if_pos hclause, hparent]
      · obtain ⟨items, before, run, after, hf, hs, hin, ⟨spot⟩⟩ := Document.exists_spot h hv hc
        obtain ⟨s, hn, hb⟩ := spot.exists_error (spot.fenced hf).1 hk
        have hclosing :=
          (hb.statement hl).resolve_left fun he => hends (spot.endsStatement hs hn he)
        obtain ⟨hkind, more, hback, hmore⟩ := Kind.closing?_eq hclosing hclause
        obtain ⟨brace, tail, hright, hbrace⟩ := spot.exists_brace hback hmore hin
        refine ⟨v.tree, brace, by rw [Visit.body?, if_neg hclause], ?_, ?_, hbrace⟩
        · simp only [List.mem_cons, List.not_mem_nil, or_false] at hkind ⊢
          exact hkind.imp_right .inl
        · rw [spot.tokenAfter?_span hs, hright]
          rfl
  case clause =>
    intro v hv t hc hk
    obtain ⟨items, before, run, after, hf, hs, hin, ⟨spot⟩⟩ := Document.exists_spot h hv hc
    obtain ⟨s, hn, hb⟩ := spot.exists_error (spot.fenced hf).1 hk
    rcases hb with hback | ⟨l, hl, hstarts⟩
    · -- The error is the last of the clauses.
      obtain ⟨brace, tail, hright, hbrace⟩ := spot.exists_brace hback (by simp [Item.lexemes]) hin
      refine ⟨brace, ?_, .inr hbrace⟩
      rw [spot.tokenAfter?_span hs, hright]
      rfl
    · obtain ⟨next, hnext, hlex⟩ := spot.exists_next hl
      refine ⟨next, ?_, .inl ⟨l, hlex, hstarts⟩⟩
      rw [spot.tokenAfter?_span hs, List.head?_append, hnext, Option.some_or]
  case expression =>
    intro v hv label hl t hc hk
    obtain ⟨items, before, run, after, hf, hs, hin, ⟨spot⟩⟩ := Document.exists_spot h hv hc
    obtain ⟨s, hn, hb⟩ := spot.exists_error (spot.fenced hf).1 hk
    exact spot.exists_token hs hn (hb.isStray hl)

/-- A member, a stray lexeme, statements and a clause that fail, and declarations around them. -/
theorem errors_resynchronize_mixed :
    ∃ text d, text = Text.ofString
        "struct S{int}; @ uniform int u; void f(){x=.;a+;switch(x){y case 1:b+}c+}uniform" ∧
      Document.parse 6 text = .ok d ∧
      (((Tree.walk (fun _ => true) d.trees).filter fun v => v.tree.kind == .error).map
          fun v => v.parent?.map Tree.kind) =
        [some .structDeclaration, none, some .assignmentStatement, some .block,
          some .switchStatement, some .switchCase, some .block, none] ∧
      d.Resynchronized (written text) := by
  obtain ⟨d, hd, herrors⟩ := Document.exists_parse 6 (Text.ofString
      "struct S{int}; @ uniform int u; void f(){x=.;a+;switch(x){y case 1:b+}c+}uniform")
    (fun d => (((Tree.walk (fun _ => true) d.trees).filter fun v => v.tree.kind == .error).map
        fun v => v.parent?.map Tree.kind) ==
      [some .structDeclaration, none, some .assignmentStatement, some .block,
        some .switchStatement, some .switchCase, some .block, none]) (by decide +kernel)
  exact ⟨_, d, rfl, hd, eq_of_beq herrors, errors_resynchronize hd⟩

end ShaderSyntax
