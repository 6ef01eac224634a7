import ShaderSyntax.Proofs.Completeness.Declaration
import ShaderSyntax.Proofs.Layout
import ShaderSyntax.Proofs.Legality
import ShaderSyntax.Proofs.Restarting

/-!
# Two texts in one

A text without errors that ends with its last declaration keeps its declarations when other lines
follow it, whatever they say: no complete declaration looks at what stands after it. What follows is
parsed as it is by itself, so many bytes and lines further on, or it nests too deep as it does by
itself.
-/
namespace ShaderSyntax

open ShaderSyntax.Parser

/-- Canonical declarations in front of other lexemes are parsed, and then the others. -/
theorem Grammar.declarations_append {levels : Nat} {ds : List Decl}
    (h : ∀ d ∈ ds, d.canonical = true ∧ d.depth ≤ levels) (ys : List Lexeme) :
    declarations levels (ds.flatMap (fun d => d.node.lexemes) ++ ys) =
      (declarations levels).andThen (fun more => value (ds ++ more)) ys := by
  induction ds with
  | nil =>
    rw [List.flatMap_nil, List.nil_append, andThen]
    cases declarations levels ys <;> simp [value, Outcome.after]
  | cons d ds ih =>
    have hbrings := declaration_brings (h d (by simp)).1 (h d (by simp)).2
    obtain ⟨l, tail, hl⟩ := List.exists_cons_of_ne_nil (lexemes_ne_nil hbrings)
    have hrest := ih fun e he => h e (by simp [he])
    obtain ⟨more, hmore⟩ : ∃ more, ds.flatMap (fun d => d.node.lexemes) ++ ys = more := ⟨_, rfl⟩
    rw [hmore] at hrest
    have hfirst : recoveredDecl levels (d.node.lexemes ++ more) = .done d more [] :=
      recovering_done (hbrings more)
    calc declarations levels ((d :: ds).flatMap (fun d => d.node.lexemes) ++ ys)
        = (recoveredDecl levels).andThen (fun d =>
            (declarations levels).andThen fun more => value (d :: more))
            (d.node.lexemes ++ more) := by
          rw [List.flatMap_cons, List.append_assoc, hmore, hl, List.cons_append]
          exact manyUntil_cons (recoveredDecl_reads levels) rfl _
      _ = (declarations levels).andThen (fun more => value (d :: more)) more := andThen_done hfirst
      _ = ((declarations levels).andThen fun more => value (ds ++ more)).andThen
            (fun more => value (d :: more)) ys := by
          rw [andThen, hrest]
          rfl
      _ = (declarations levels).andThen (fun more => value (d :: ds ++ more)) ys := by
          simp only [andThen_assoc, value_andThen, List.cons_append]

@[simp] theorem Token.span_below (bytes lines : Nat) (t : Token) :
    (t.below bytes lines).span = t.span.shift bytes := by
  simp only [span, text, below, Position.below, Span.shift, Nat.add_assoc]

namespace Source

section Join

variable {text more whole : Text} {bytes lines : Nat}

/-- The lexemes of the whole are those of the text and those of what follows it. -/
theorem lexemes_join
    (h : tokenize whole = written text ++ (tokenize more).map (Token.below bytes lines)) :
    (ofText whole).lexemes = (ofText text).lexemes ++ (ofText more).lexemes := by
  have hbelow : Token.lexeme? ∘ Token.below bytes lines = Token.lexeme? := rfl
  obtain ⟨last, htokens, hscan⟩ := tokenize_scan text
  change (tokenize whole).filterMap Token.lexeme? =
    (tokenize text).filterMap Token.lexeme? ++ (tokenize more).filterMap Token.lexeme?
  rw [h, htokens, List.filterMap_append, List.filterMap_append, List.filterMap_map, hbelow,
    List.filterMap_cons_none hscan.finish, List.filterMap_nil, List.append_nil]

theorem token_join_left
    (h : tokenize whole = written text ++ (tokenize more).map (Token.below bytes lines)) {i : Nat}
    (hi : i < (written text).length) : (ofText whole).token i = (ofText text).token i := by
  obtain ⟨last, htokens, -⟩ := tokenize_scan text
  simp [token, ofText, h, htokens, List.getElem?_append_left hi]

theorem token_join_right
    (h : tokenize whole = written text ++ (tokenize more).map (Token.below bytes lines)) {i : Nat}
    (hi : i < (tokenize more).length) :
    (ofText whole).token ((written text).length + i) =
      ((ofText more).token i).below bytes lines := by
  simp [token, ofText, h, List.getElem?_append_right, List.getElem?_eq_getElem hi]

/-- Lexemes of the text stand in the whole where they stand in the text. -/
theorem locate_join_left
    (h : tokenize whole = written text ++ (tokenize more).map (Token.below bytes lines)) (i j : Nat)
    (hij : i < j) (hj : j ≤ (written text).length) :
    (ofText whole).locate i j = (ofText text).locate i j := by
  unfold locate
  rw [token_join_left h (by omega), token_join_left h (by omega)]

/-- Lexemes of what follows stand so many bytes further on. -/
theorem locate_join_right
    (h : tokenize whole = written text ++ (tokenize more).map (Token.below bytes lines)) (i j : Nat)
    (hij : i < j) (hj : j ≤ (written more).length) :
    (ofText whole).locate ((written text).length + i) ((written text).length + j) =
      ((ofText more).locate i j).shift bytes := by
  have hlen := length_tokenize more
  have hsub : (written text).length + j - 1 = (written text).length + (j - 1) := by omega
  unfold locate
  rw [hsub, token_join_right h (by omega), token_join_right h (by omega), Token.span_below,
    Token.span_below]
  rfl

theorem size_join
    (h : tokenize whole = written text ++ (tokenize more).map (Token.below bytes lines)) :
    (ofText whole).size = (written text).length + (ofText more).size := by
  have hlen := congrArg List.length h
  rw [List.length_append, List.length_map, length_tokenize, length_tokenize] at hlen
  rw [size_ofText, size_ofText]
  omega

end Join

end Source

/-- The diagnostic so many bytes and lines further on. -/
def Diagnostic.below (bytes lines : Nat) (e : Diagnostic) : Diagnostic :=
  ⟨e.problem, e.token.below bytes lines⟩

/-- The document is the first one, and then the second so many bytes and lines further on. -/
structure Document.Joins (d first second : Document) (bytes lines : Nat) : Prop where
  decls : d.decls = first.decls ++ second.decls
  trees : d.trees = first.trees ++ second.trees.map (Tree.shift bytes)
  diagnostics : d.diagnostics =
    first.diagnostics ++ second.diagnostics.map (Diagnostic.below bytes lines)
  invalidTrees : d.invalidTrees = first.invalidTrees ++ second.invalidTrees.map (Tree.shift bytes)
  comments : d.comments = first.comments ++ second.comments.map (Comment.below bytes lines)

namespace Document

variable {levels : Nat} {text more whole : Text} {bytes lines : Nat} {first second d : Document}

/-- A document without diagnostics has canonical declarations within the limit, and they are all its
lexemes. -/
theorem canonical_of_clean (h : parse levels text = .ok first) (hclean : first.diagnostics = []) :
    (∀ d ∈ first.decls, d.canonical = true ∧ d.depth ≤ levels) ∧
      (Source.ofText text).lexemes = first.decls.flatMap fun d => d.node.lexemes := by
  have hfindings : first.findings = [] := List.map_eq_nil_iff.mp hclean
  obtain ⟨-, hdecls⟩ := parse_eq_ok_iff.mp h
  rw [hfindings] at hdecls
  obtain ⟨-, ha⟩ := Document.account h .value
  refine ⟨Grammar.declarations_canonical hdecls, ?_⟩
  rw [ha.lexemes, List.append_nil, Grammar.lexemes_children_map]

/-- A document without diagnostics has legal lexemes only. -/
theorem isLegal_of_clean (h : parse levels text = .ok first) (hclean : first.diagnostics = []) :
    ∀ t ∈ written text, ∃ l, t.lexeme? = some l ∧ l.isLegal = true := by
  obtain ⟨-, -, hrun⟩ := Document.trees_placed h
  obtain ⟨-, ha⟩ := Document.account h .value
  have hfindings : first.findings = [] := List.map_eq_nil_iff.mp hclean
  rw [hfindings] at ha
  have hitems : Item.Clean (Item.children .value (first.decls.map Decl.node)) :=
    Item.clean_of_sites _ 0 ha.findings.symm
  have hlegal : Item.Legal (Item.children .value (first.decls.map Decl.node)) := by
    simp [Decl.legal_node]
  intro t ht
  have hmem : t.lexeme? ∈ (written text).map Token.lexeme? := List.mem_map_of_mem ht
  rw [hrun.lexemes] at hmem
  obtain ⟨l, hl, hsome⟩ := List.mem_map.mp hmem
  exact ⟨l, hsome.symm, Item.isLegal_of_clean _ hlegal hitems l hl⟩

/-- A text that ends with its last declaration ends with its last token. -/
theorem lastStop_of_trees (h : parse levels text = .ok first)
    (hend : text = [] ∨ ∃ t, first.trees.getLast? = some t ∧ t.span.stop = text.length) :
    Scanner.lastStop 0 (written text) = text.length := by
  rcases hend with rfl | ⟨t, ht, hstop⟩
  · rfl
  · obtain ⟨runs, hruns, hc⟩ := Document.trees_cover h
    have hlast := covers_last hc
    rw [hruns, ht, Option.map_some] at hlast
    rw [Scanner.lastStop_eq, ← hlast, Option.getD_some, hstop]

section Join

variable (htokens : tokenize whole = written text ++ (tokenize more).map (Token.below bytes lines))
include htokens

/-- Trees that were placed in the text and in what follows it are placed in the whole. -/
theorem trees_join (hfirst : parse levels text = .ok first) (hsecond : parse levels more = .ok second)
    (hd : parse levels whole = .ok d) (hdecls : d.decls = first.decls ++ second.decls) :
    d.trees = first.trees ++ second.trees.map (Tree.shift bytes) := by
  obtain ⟨hleft, hleftsolid, hleftrun⟩ := trees_placed hfirst
  obtain ⟨hright, hrightsolid, hrightrun⟩ := trees_placed hsecond
  have hleftsize := hleftrun.length_eq
  have hrightsize := hrightrun.length_eq
  rw [Item.length_lexemes] at hleftsize hrightsize
  have hkept : Node.placeAll (Source.ofText whole).locate 0 (first.decls.map Decl.node) =
      first.trees := by
    have hbound : 0 + Item.size (Item.children .value (first.decls.map Decl.node)) ≤
        (written text).length := by omega
    -- Both are the trees of the whole with each span replaced by itself.
    have hmoved : (Node.placeAll (Source.ofText whole).locate 0 (first.decls.map Decl.node)).map
        (Tree.relocate id) = first.trees := by
      rw [hleft]
      exact Node.relocate_placeAll (f := id) (Source.locate_join_left htokens) .value _ 0 hleftsolid
        hbound
    have hsame : (Node.placeAll (Source.ofText whole).locate 0 (first.decls.map Decl.node)).map
        (Tree.relocate id) =
          Node.placeAll (Source.ofText whole).locate 0 (first.decls.map Decl.node) :=
      Node.relocate_placeAll (fun _ _ _ _ => rfl) .value _ 0 hleftsolid hbound
    rw [← hsame, hmoved]
  have hshifted : Node.placeAll (Source.ofText whole).locate (written text).length
      (second.decls.map Decl.node) = second.trees.map (Tree.shift bytes) := by
    rw [hright]
    exact Node.placeAll_shift (Source.locate_join_right htokens) .value _ 0 hrightsolid (by omega)
  rw [trees_eq_placeAll (account hd .value).1, hdecls, List.map_append,
    Node.placeAll_append _ .value, hkept, ← hleftsize, Nat.zero_add, hshifted]

/-- A problem in what follows is met so many bytes and lines further on. -/
theorem diagnose_join (problem : Problem) {left : Nat} (hleft : left ≤ (Source.ofText more).size) :
    (Source.ofText whole).diagnose problem left =
      ((Source.ofText more).diagnose problem left).below bytes lines := by
  have hlen := length_tokenize more
  have hsize := Source.size_join htokens
  have hindex : (Source.ofText whole).index left =
      (written text).length + (Source.ofText more).index left := by
    simp only [Source.index]
    omega
  have hbound : (Source.ofText more).index left < (tokenize more).length := by
    rw [Source.index, Source.size_ofText]
    omega
  rw [Source.diagnose, Source.tokenLeft, hindex, Source.token_join_right htokens hbound]
  rfl

theorem diagnostics_join (hsecond : parse levels more = .ok second)
    (hd : parse levels whole = .ok d) (hfindings : d.findings = second.findings) :
    d.diagnostics = second.diagnostics.map (Diagnostic.below bytes lines) := by
  rw [diagnostics, diagnostics, (account hd .value).1, (account hsecond .value).1, hfindings]
  simp only [Source.diagnostics, List.map_map]
  refine List.map_congr_left fun f hf => ?_
  have hleft := left_le_of_mem_findings hsecond hf
  rw [← (Source.run_lexemes more).length_eq, ← Source.size_ofText] at hleft
  exact diagnose_join htokens f.problem hleft

end Join

/-- A text of canonical declarations and others is parsed if the text of the others is. -/
theorem parse_eq_ok_iff_append {ds : List Decl}
    (hcanonical : ∀ d ∈ ds, d.canonical = true ∧ d.depth ≤ levels)
    (hlexemes : (Source.ofText whole).lexemes =
      ds.flatMap (fun d => d.node.lexemes) ++ (Source.ofText more).lexemes) :
    parse levels whole = .ok d ↔ ∃ second, parse levels more = .ok second ∧
      d = ⟨.ofText whole, ds ++ second.decls, second.findings⟩ := by
  rw [parse_eq_ok_iff, hlexemes, Grammar.declarations_append hcanonical, andThen_eq_done_iff]
  constructor
  · rintro ⟨hsource, others, mid, found, last, hmore, hvalue, hfound⟩
    obtain ⟨source, decls, findings⟩ := d
    cases hvalue
    rw [List.append_nil] at hfound
    obtain rfl : source = .ofText whole := hsource
    obtain rfl : findings = found := hfound
    exact ⟨⟨.ofText more, others, findings⟩, parse_eq_ok_iff.mpr ⟨rfl, hmore⟩, rfl⟩
  · rintro ⟨second, hsecond, rfl⟩
    obtain ⟨-, hmore⟩ := parse_eq_ok_iff.mp hsecond
    exact ⟨rfl, second.decls, [], second.findings, [], hmore, rfl, by rw [List.append_nil]⟩

end Document

/-- Whatever the limit and whatever follows it, a text without errors that is empty or ends with its
last declaration is parsed by itself: what follows it on other lines is parsed if and only if it is
alone, and to the same declarations, diagnostics, invalid trees and comments further on. -/
theorem parse_append_lines {levels : Nat} {text : Text} {first : Document}
    (hfirst : Document.parse levels text = .ok first) (hclean : first.diagnostics = [])
    (hend : text = [] ∨ ∃ t, first.trees.getLast? = some t ∧ t.span.stop = text.length)
    (more : Text) :
    ((∃ d, Document.parse levels (text ++ Byte.lineFeed :: more) = .ok d) ↔
        ∃ second, Document.parse levels more = .ok second) ∧
      ∀ d second, Document.parse levels (text ++ Byte.lineFeed :: more) = .ok d →
        Document.parse levels more = .ok second →
        d.Joins first second (text.length + 1) (text.count Byte.lineFeed + 1) := by
  obtain ⟨hcanonical, hlexemes⟩ := Document.canonical_of_clean hfirst hclean
  obtain ⟨hcomments, htokens⟩ := tokenize_append more (Document.isLegal_of_clean hfirst hclean)
    (Document.lastStop_of_trees hfirst hend)
  have hiff := fun d => Document.parse_eq_ok_iff_append (d := d) hcanonical
    (hlexemes ▸ Source.lexemes_join htokens)
  refine ⟨⟨?_, ?_⟩, ?_⟩
  · rintro ⟨d, hd⟩
    obtain ⟨second, hsecond, -⟩ := (hiff d).mp hd
    exact ⟨second, hsecond⟩
  · rintro ⟨second, hsecond⟩
    exact ⟨_, (hiff _).mpr ⟨second, hsecond, rfl⟩⟩
  · intro d second hd hsecond
    obtain ⟨_, hsecond', hdeq⟩ := (hiff d).mp hd
    obtain rfl := Except.ok.inj (hsecond.symm.trans hsecond')
    have hdecls : d.decls = first.decls ++ second.decls := by rw [hdeq]
    have hfound : d.findings = second.findings := by rw [hdeq]
    have htrees := Document.trees_join htokens hfirst hsecond hd hdecls
    refine ⟨hdecls, htrees, ?_, ?_, ?_⟩
    · rw [hclean, List.nil_append, Document.diagnostics_join htokens hsecond hd hfound]
    · rw [Document.invalidTrees_walk hd, htrees, invalids_walk_append, invalids_walk_shift,
        Document.invalidTrees_walk hfirst, Document.invalidTrees_walk hsecond]
    · have hsource {text : Text} {d : Document} (h : Document.parse levels text = .ok d) :
          d.comments = comments (tokenize text) := by
        rw [Document.comments, (Document.account h .value).1]
        rfl
      rw [hsource hd, hsource hfirst, hsource hsecond, htokens, hcomments]
      simp [comments, List.flatMap_append, List.flatMap_map, List.map_flatMap, Token.below]

/-- A comment and a function; on the lines after them a stray variable, a comment and a function whose
block is not closed. -/
theorem parse_append_lines_stray_variable :
    let text := Text.ofString "// f\nvoid f() \x7b\x7d"
    let more := Text.ofString "int a; /* b */\nvoid g() \x7b"
    ∃ first second d t, Document.parse 3 text = .ok first ∧ first.diagnostics = [] ∧
      first.trees.getLast? = some t ∧ t.span = ⟨5, 16⟩ ∧ t.span.stop = text.length ∧
      Document.parse 3 more = .ok second ∧
      second.diagnostics.map Diagnostic.position = [⟨5, 1, 6⟩, ⟨25, 2, 11⟩] ∧
      Document.parse 3 (text ++ Byte.lineFeed :: more) = .ok d ∧ d.Joins first second 17 2 := by
  intro text more
  obtain ⟨first, hfirst, hchecked⟩ := Document.exists_parse 3 text
    (fun d => d.diagnostics.isEmpty && d.trees.getLast?.map Tree.span == some ⟨5, 16⟩)
    (by decide +kernel)
  obtain ⟨hclean, hlast⟩ := Bool.and_eq_true_iff.mp hchecked
  obtain ⟨t, ht, hspan⟩ := Option.map_eq_some_iff.mp (eq_of_beq hlast)
  obtain ⟨second, hsecond, hplaces⟩ := Document.exists_parse 3 more
    (fun d => d.diagnostics.map Diagnostic.position == [⟨5, 1, 6⟩, ⟨25, 2, 11⟩])
    (by decide +kernel)
  have hstop : t.span.stop = text.length := by
    rw [hspan]
    decide +kernel
  obtain ⟨hiff, hjoins⟩ := parse_append_lines hfirst (List.isEmpty_iff.mp hclean)
    (.inr ⟨t, ht, hstop⟩) more
  obtain ⟨d, hd⟩ := hiff.mpr ⟨second, hsecond⟩
  exact ⟨first, second, d, t, hfirst, List.isEmpty_iff.mp hclean, ht, hspan, hstop, hsecond,
    eq_of_beq hplaces, hd, hjoins d second hd hsecond⟩

end ShaderSyntax
