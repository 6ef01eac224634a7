import ShaderSyntax.Proofs.Heading
import ShaderSyntax.Proofs.Shifting

/-!
# Errors stay in their function

A heading, a body between balanced braces and a closing brace are one function, whatever the body
holds. What follows is parsed as if nothing stood before it.
-/
namespace ShaderSyntax

open ShaderSyntax.Parser

namespace Grammar

/-- What starts no other declaration is read as a function. -/
theorem keywordDecl_eq_none {w : Text} (h : Recovery.startsDeclaration (.word w) = false)
    (expr : Parser Expr) : (Keyword.ofText? w).bind (keywordDecl expr) = none := by
  cases hk : Keyword.ofText? w with
  | none => rfl
  | some k =>
    rw [← Keyword.spelling_of_ofText? hk] at h
    cases k <;> first | rfl | exact absurd h (by decide)

theorem declaration_eq_heading {front : List Lexeme} (h : Heading front) (levels : Nat)
    (behind : List Lexeme) :
    declaration levels (front ++ .punct .openBrace :: behind) =
      (heading.andThen fun h => (block (statement levels)).andThen fun body =>
        value (.function h.1 h.2.1 h.2.2 body)) (front ++ .punct .openBrace :: behind) := by
  refine Eq.trans ?_ (congrFun (function_eq (statement levels)) _)
  obtain ⟨parts, found, hd⟩ := h.read
  cases front with
  | nil => cases hd
  | cons l front =>
    cases l with
    | word w =>
      have hnone := keywordDecl_eq_none (h.starts _ rfl) (expression levels)
      simp only [declaration, declarationOf, List.cons_append, hnone]
    | _ => cases hd

/-- A heading and a body between balanced braces are read as a function, through the closing brace
and no further, unless the limit on nesting is met. -/
theorem declaration_heading {front body : List Lexeme} (h : Heading front)
    (hb : Recovery.Balanced body) (levels : Nat) (rest : List Lexeme) :
    (∃ t n ps stmts found, declaration levels
        (front ++ .punct .openBrace :: (body ++ .punct .closeBrace :: rest)) =
          .done (.function t n ps stmts) rest found) ∨
      ∃ left found, declaration levels
        (front ++ .punct .openBrace :: (body ++ .punct .closeBrace :: rest)) =
          .tooDeep left found := by
  obtain ⟨⟨t, n, ps⟩, hread⟩ := h.read_before
  obtain ⟨first, hfirst⟩ := hread (body ++ .punct .closeBrace :: rest)
  rw [declaration_eq_heading h]
  rcases block_between levels hb rest with ⟨stmts, found, hd⟩ | ⟨left, found, hd⟩
  · refine .inl ⟨t, n, ps, stmts, first ++ (found ++ []), andThen_eq_done_iff.mpr ?_⟩
    exact ⟨_, _, first, _, hfirst, andThen_eq_done_iff.mpr ⟨_, _, found, [], hd, rfl, rfl⟩, rfl⟩
  · refine .inr ⟨left, first ++ found, andThen_eq_tooDeep_iff.mpr (.inr ?_)⟩
    exact ⟨_, _, first, found, hfirst, andThen_eq_tooDeep_iff.mpr (.inl hd), rfl⟩

/-- The declarations of such an input are the function and those of what follows it. -/
theorem declarations_heading {front body rest : List Lexeme} (h : Heading front)
    (hb : Recovery.Balanced body) {levels : Nat} {ds : List Decl} {found : List Finding}
    (hd : declarations levels
      (front ++ .punct .openBrace :: (body ++ .punct .closeBrace :: rest)) = .done ds [] found) :
    ∃ t n ps stmts more found', ds = .function t n ps stmts :: more ∧
      declarations levels rest = .done more [] found' := by
  obtain ⟨l, more, hts⟩ : ∃ l more,
      front ++ .punct .openBrace :: (body ++ .punct .closeBrace :: rest) = l :: more :=
    List.exists_cons_of_ne_nil (by simp)
  rw [hts] at hd
  obtain ⟨decl, mid, first, others, last, hi, rfl, hrest⟩ :=
    manyUntil_cons_done (recoveredDecl_reads levels) rfl hd
  rw [← hts] at hi
  rcases declaration_heading h hb levels rest with
    ⟨t, n, ps, stmts, found', hf⟩ | ⟨left, found', hf⟩
  · rw [recoveredDecl, recovering, hf] at hi
    cases hi
    exact ⟨t, n, ps, stmts, others, last, rfl, hrest⟩
  · rw [recoveredDecl, recovering, hf] at hi
    cases hi

end Grammar

section Split

variable {text : Text} {xs ys : List Lexeme}

/-- Where the lexemes of a text are in two parts, so are its tokens, and the end token stands in the
second part. -/
theorem tokenize_split (h : (Source.ofText text).lexemes = xs ++ ys) :
    ∃ run next after, tokenize text = run ++ next :: after ∧ Run text 0 xs run ∧
      lexemes (next :: after) = ys ∧ (next :: after).length = ys.length + 1 := by
  have hrun := Source.run_lexemes text
  rw [h] at hrun
  obtain ⟨run, others, hw, hx, hy⟩ := hrun.split
  obtain ⟨last, htokens, hscan⟩ := tokenize_scan text
  have hlexemes : lexemes (others ++ [last]) = ys := by
    rw [lexemes, List.filterMap_append]
    simpa [hscan.finish, lexemes] using hy.lexemes_run
  obtain ⟨next, after, hnext⟩ := List.exists_cons_of_ne_nil (List.append_ne_nil_of_right_ne_nil
    others (List.cons_ne_nil last []))
  refine ⟨run, next, after, ?_, hx, ?_, ?_⟩
  · rw [htokens, hw, List.append_assoc, hnext]
  · rw [← hnext, hlexemes]
  · rw [← hnext, List.length_append, hy.length_eq, List.length_singleton]

end Split

/-- If the first declaration takes the first lexemes of a text, the other declarations are those of
the text from the next token on, as far on as that token stands. -/
theorem Document.trees_of_first {levels : Nat} {text : Text} {d : Document} {xs ys : List Lexeme}
    {decl : Decl} {others : List Decl} {found : List Finding} {run after : List Token}
    {next : Token} (hd : Document.parse levels text = .ok d) (hdecls : d.decls = decl :: others)
    (hothers : Grammar.declarations levels ys = .done others [] found)
    (hlexemes : (Source.ofText text).lexemes = xs ++ ys)
    (htokens : tokenize text = run ++ next :: after) (hrun : Run text 0 xs run)
    (hys : lexemes (next :: after) = ys) (hlen : (next :: after).length = ys.length + 1) :
    ∃ later, Document.parse levels (text.drop next.span.start) = .ok later ∧
      Covers (decl.node.place (Source.ofText text).locate 0) run ∧
      d.trees = decl.node.place (Source.ofText text).locate 0 ::
        later.trees.map (Tree.shift next.span.start) := by
  obtain ⟨hsource, ha⟩ := Document.account hd .value
  have hrest := Grammar.declarations_account hothers .value
  rw [hdecls, List.map_cons] at ha
  have hsolid : decl.node.Solid := ha.solid.1
  have hxs : decl.node.lexemes = xs := by
    have hwhole := ha.lexemes
    rw [hlexemes, List.append_nil, Item.lexemes_children_cons] at hwhole
    have hrests := hrest.lexemes
    rw [List.append_nil] at hrests
    rw [← hrests] at hwhole
    exact (List.append_cancel_right hwhole).symm
  have hsize : decl.node.size = run.length := by
    rw [← Node.length_lexemes, hxs, hrun.length_eq]
  let later : Document := ⟨.ofText (text.drop next.span.start), others, found⟩
  have hlater : Document.parse levels (text.drop next.span.start) = .ok later := by
    rw [Document.parse_eq_ok_iff, lexemes_drop htokens, hys]
    exact ⟨rfl, hothers⟩
  refine ⟨later, hlater, Node.place_covers hsolid (hxs ▸ hrun), ?_⟩
  have hlocate : ∀ i j, i < j → j ≤ ys.length →
      (Source.ofText text).locate (run.length + i) (run.length + j) =
        ((Source.ofText (text.drop next.span.start)).locate i j).shift next.span.start :=
    fun i j hij hj => Source.locate_drop htokens i j hij (by omega)
  have hbound : 0 + Item.size (Item.children .value (others.map Decl.node)) ≤ ys.length := by
    rw [hrest.length_eq, List.length_nil]
  have hshift := Node.placeAll_shift hlocate .value (others.map Decl.node) 0 hrest.solid hbound
  rw [Document.trees_eq_placeAll hsource, Document.trees_eq_placeAll (d := later) rfl, hdecls,
    List.map_cons, Node.placeAll, hsize, Nat.zero_add, ← hshift, Nat.add_zero]

/-- Whatever stands between the braces of a function, if only they are balanced, the function ends
at the brace that closes its body. The declarations after it are those of the text from the next
token on, parsed by itself. -/
theorem errors_contained {levels : Nat} {text : Text} {d : Document}
    {front body rest : List Lexeme} (hfront : Heading front) (hbody : Recovery.Balanced body)
    (hlexemes : (Source.ofText text).lexemes =
      front ++ .punct .openBrace :: (body ++ .punct .closeBrace :: rest))
    (hd : Document.parse levels text = .ok d) :
    ∃ (function : Tree) (later : Document) (start close next : Token),
      (tokenize text)[0]? = some start ∧
      (tokenize text)[front.length + body.length + 1]? = some close ∧
      (tokenize text)[front.length + body.length + 2]? = some next ∧
      function.kind = .functionDeclaration ∧
      function.span = ⟨start.span.start, close.span.stop⟩ ∧
      (Source.ofText (text.drop next.span.start)).lexemes = rest ∧
      Document.parse levels (text.drop next.span.start) = .ok later ∧
      d.trees = function :: later.trees.map (Tree.shift next.span.start) := by
  obtain ⟨-, hdecls⟩ := Document.parse_eq_ok_iff.mp hd
  rw [hlexemes] at hdecls
  obtain ⟨t, n, ps, stmts, others, found, hds, hothers⟩ :=
    Grammar.declarations_heading hfront hbody hdecls
  have hsplit : (Source.ofText text).lexemes =
      (front ++ .punct .openBrace :: (body ++ [.punct .closeBrace])) ++ rest := by
    simpa using hlexemes
  obtain ⟨run, next, after, htokens, hrun, hys, hlen⟩ := tokenize_split hsplit
  obtain ⟨later, hlater, ⟨start, close, hstart, hclose, hspan⟩, htrees⟩ :=
    Document.trees_of_first hd hds hothers hsplit htokens hrun hys hlen
  have hcount : run.length = front.length + body.length + 2 := by
    rw [hrun.length_eq]
    simp
    omega
  refine ⟨_, later, start, close, next, ?_, ?_, ?_, ?_, hspan, ?_, hlater, htrees⟩
  · rw [htokens, List.getElem?_append_left (by omega), ← hstart, List.head?_eq_getElem?]
  · rw [htokens, List.getElem?_append_left (by omega), ← hclose, List.getLast?_eq_getElem?, hcount]
    rfl
  · rw [htokens, List.getElem?_append_right (by omega), hcount, Nat.sub_self]
    rfl
  · rw [Node.kind_place]
    rfl
  · rw [lexemes_drop htokens, hys]

/-- A body that holds no statement, with braces in it, and a uniform after the function. -/
theorem errors_contained_nonsense :
    ∃ text d, text = Text.ofString "void f(in int a[2]) { ) if { = } else case } uniform int u;" ∧
      Document.parse 4 text = .ok d ∧ d.trees.length = 2 ∧
      ∃ (function : Tree) (later : Document) (start close next : Token),
        (tokenize text)[0]? = some start ∧
        (tokenize text)[18]? = some close ∧
        (tokenize text)[19]? = some next ∧
        function.kind = .functionDeclaration ∧
        function.span = ⟨start.span.start, close.span.stop⟩ ∧
        (Source.ofText (text.drop next.span.start)).lexemes =
          (Source.ofText (Text.ofString "uniform int u;")).lexemes ∧
        Document.parse 4 (text.drop next.span.start) = .ok later ∧
        d.trees = function :: later.trees.map (Tree.shift next.span.start) := by
  have hfront : Heading (Source.ofText (Text.ofString "void f(in int a[2])")).lexemes := by
    decide +kernel
  have hbody : Recovery.Balanced
      (Source.ofText (Text.ofString ") if { = } else case")).lexemes := by
    decide +kernel
  have hlexemes : (Source.ofText (Text.ofString
      "void f(in int a[2]) { ) if { = } else case } uniform int u;")).lexemes =
        (Source.ofText (Text.ofString "void f(in int a[2])")).lexemes ++ .punct .openBrace ::
          ((Source.ofText (Text.ofString ") if { = } else case")).lexemes ++ .punct .closeBrace ::
            (Source.ofText (Text.ofString "uniform int u;")).lexemes) := by
    decide +kernel
  have hcount : (Source.ofText (Text.ofString "void f(in int a[2])")).lexemes.length = 10 ∧
      (Source.ofText (Text.ofString ") if { = } else case")).lexemes.length = 7 := by
    decide +kernel
  obtain ⟨d, hd, hlen⟩ := Document.exists_parse 4
    (Text.ofString "void f(in int a[2]) { ) if { = } else case } uniform int u;")
    (fun d => d.trees.length == 2) (by decide +kernel)
  have hcontained := errors_contained hfront hbody hlexemes hd
  rw [hcount.1, hcount.2] at hcontained
  exact ⟨_, d, rfl, hd, eq_of_beq hlen, hcontained⟩

end ShaderSyntax
