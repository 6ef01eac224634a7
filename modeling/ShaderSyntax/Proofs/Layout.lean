import ShaderSyntax.Proofs.Coverage
import ShaderSyntax.Tree.SExpr

/-!
# Layout

Blanks, comments and line continuations separate tokens and do nothing else. Two texts with the same
tokens, whatever stands between them, are parsed alike: both nest too deep, at the same token, or
their documents differ in nothing but where the tokens stand. To compare trees of different texts,
every span in them is told by the numbers of the tokens it covers.
-/
namespace ShaderSyntax

/-- The texts have tokens of the same kinds and spellings, in the same order. -/
def SameTokens (a b : Text) : Prop :=
  (tokenize a).map (fun t => (t.kind, t.text)) = (tokenize b).map fun t => (t.kind, t.text)

instance (a b : Text) : Decidable (SameTokens a b) :=
  inferInstanceAs (Decidable (_ = _))

/-- The lexeme of a kind with a spelling. -/
def Lexeme.spelled? (kind : TokenKind) (text : Text) : Option Lexeme :=
  match kind with
  | .eof => none
  | .illegal => some (.illegal text)
  | .ident => some (.word text)
  | .int => some (.int text)
  | .float => some (.float text)
  | .bool => some (.word text)
  | .string => some (.string text)
  | .punct p => some (.punct p)

theorem Lexeme.spelled?_kind_text (l : Lexeme) : spelled? l.kind l.text = some l := by
  cases l with
  | word w => by_cases hb : (boolOf? w).isSome = true <;> simp [kind, hb, spelled?, text]
  | _ => rfl

/-- A token's kind and spelling tell its lexeme. -/
theorem Token.lexeme?_eq_spelled? (t : Token) : t.lexeme? = Lexeme.spelled? t.kind t.text := by
  unfold Token.kind Token.text
  cases t.lexeme? with
  | none => rfl
  | some l => exact l.spelled?_kind_text.symm

theorem SameTokens.lexemes {a b : Text} (h : SameTokens a b) :
    (Source.ofText a).lexemes = (Source.ofText b).lexemes := by
  have hspelled (text : Text) : (Source.ofText text).lexemes =
      ((tokenize text).map fun t => (t.kind, t.text)).filterMap fun s =>
        Lexeme.spelled? s.1 s.2 := by
    change (tokenize text).filterMap Token.lexeme? = _
    rw [List.filterMap_map]
    exact congrFun (congrArg List.filterMap (funext Token.lexeme?_eq_spelled?)) _
  rw [hspelled a, hspelled b, h]

/-- The span in numbers of tokens: from the token it starts with to the one after the token it stops
with. -/
def tokenRange (tokens : List Token) (span : Span Nat) : Span Nat :=
  ⟨tokens.findIdx (fun t => t.span.start = span.start),
    tokens.findIdx (fun t => t.span.stop = span.stop) + 1⟩

/-- No two tokens start at the same place, and no two that are not empty stop at the same place. -/
theorem tokenRange_locate {text : Text} {i j : Nat} (hij : i < j) (hj : j ≤ (written text).length) :
    tokenRange (tokenize text) ((Source.ofText text).locate i j) = ⟨i, j⟩ := by
  have hlen := length_tokenize text
  have hstart : (tokenize text).findIdx
      (fun t => t.span.start = ((Source.ofText text).token i).span.start) = i := by
    rw [List.findIdx_eq (by omega), ← Source.token_eq_getElem]
    refine ⟨by simp, ?_⟩
    intro k hk
    have := Source.token_before hk (by omega : i ≤ (written text).length)
    rw [← Source.token_eq_getElem, decide_eq_false_iff_not]
    omega
  have hstop : (tokenize text).findIdx
      (fun t => t.span.stop = ((Source.ofText text).token (j - 1)).span.stop) = j - 1 := by
    have hlast := (Source.token_before (by omega : j - 1 < j) hj).1
    rw [List.findIdx_eq (by omega), ← Source.token_eq_getElem]
    refine ⟨by simp, ?_⟩
    intro k hk
    have := Source.token_before hk (by omega : j - 1 ≤ (written text).length)
    rw [← Source.token_eq_getElem, decide_eq_false_iff_not]
    omega
  rw [tokenRange, Source.locate, hstart, hstop, Nat.sub_add_cancel (by omega)]

mutual

/-- The tree with each of its spans replaced. -/
def Tree.relocate (f : Span Nat → Span Nat) : Tree → Tree
  | .leaf k s t => .leaf k (f s) t
  | .error s m => .error (f s) m
  | .branch k s fields => .branch k (f s) (Field.relocates f fields)

def Field.relocates (f : Span Nat → Span Nat) : List Field → List Field
  | [] => []
  | .attribute label t :: rest => .attribute label t :: Field.relocates f rest
  | .child label t :: rest => .child label (t.relocate f) :: Field.relocates f rest

end

mutual

/-- No span shows in a dump. -/
theorem Tree.sexpr_relocate (f : Span Nat → Span Nat) : ∀ t : Tree, (t.relocate f).sexpr = t.sexpr
  | .leaf _ _ _ => rfl
  | .error _ _ => rfl
  | .branch _ _ fields => by
    simp only [Tree.relocate, Tree.sexpr, Field.sexprs_relocates f fields]

theorem Field.sexprs_relocates (f : Span Nat → Span Nat) :
    ∀ fields : List Field, Field.sexprs (Field.relocates f fields) = Field.sexprs fields
  | [] => rfl
  | .attribute _ _ :: rest => by
    simp only [Field.relocates, Field.sexprs, Field.sexprs_relocates f rest]
  | .child _ t :: rest => by
    simp only [Field.relocates, Field.sexprs, Tree.sexpr_relocate f t,
      Field.sexprs_relocates f rest]

end

theorem Tree.fileSexpr_relocate (f : Span Nat → Span Nat) (trees : List Tree) :
    Tree.fileSexpr (trees.map (Tree.relocate f)) = Tree.fileSexpr trees := by
  simp only [Tree.fileSexpr, List.flatMap_map, Tree.sexpr_relocate]

section Placing

variable {locate locate' : Nat → Nat → Span Nat} {f : Span Nat → Span Nat} {bound : Nat}

mutual

/-- Where one location is told from the other, so are the trees of solid nodes. -/
theorem Node.relocate_place (hl : ∀ i j, i < j → j ≤ bound → f (locate i j) = locate' i j) :
    ∀ (n : Node) (start : Nat), n.Solid → start + n.size ≤ bound →
      (n.place locate start).relocate f = n.place locate' start
  | .leaf k l, start, _, hb => by
    simp only [Node.place, Tree.relocate, hl start (start + 1) (by omega) hb]
  | .error s, start, hs, hb => by
    have hpos := Node.Solid.size_pos hs
    simp only [Node.size] at hb hpos
    simp only [Node.place, Tree.relocate, hl start _ (by omega) hb]
  | .branch k items, start, hs, hb => by
    have hpos := Node.Solid.size_pos hs
    simp only [Node.size] at hb hpos
    simp only [Node.place, Tree.relocate, hl start _ (by omega) hb,
      Item.relocate_place hl items start hs.2.2 hb]

theorem Item.relocate_place (hl : ∀ i j, i < j → j ≤ bound → f (locate i j) = locate' i j) :
    ∀ (items : List Item) (start : Nat), Item.Solid items → start + Item.size items ≤ bound →
      Field.relocates f (Item.place locate start items) = Item.place locate' start items
  | [], _, _, _ => rfl
  | .token l :: rest, start, hs, hb => by
    simp only [Item.size] at hb
    exact Item.relocate_place hl rest (start + 1) hs (by omega)
  | .attribute label l :: rest, start, hs, hb => by
    simp only [Item.size] at hb
    simp only [Item.place, Field.relocates, Item.relocate_place hl rest (start + 1) hs (by omega)]
  | .child label n :: rest, start, hs, hb => by
    simp only [Item.size] at hb
    simp only [Item.place, Field.relocates, Node.relocate_place hl n start hs.1 (by omega),
      Item.relocate_place hl rest (start + n.size) hs.2 (by omega)]

end

theorem Node.relocate_placeAll (hl : ∀ i j, i < j → j ≤ bound → f (locate i j) = locate' i j)
    (label : Label) (nodes : List Node) (start : Nat) (hs : Item.Solid (Item.children label nodes))
    (hb : start + Item.size (Item.children label nodes) ≤ bound) :
    (Node.placeAll locate start nodes).map (Tree.relocate f) =
      Node.placeAll locate' start nodes := by
  induction nodes generalizing start with
  | nil => rfl
  | cons n nodes ih =>
    rw [Item.size_children_cons] at hb
    rw [Node.placeAll, List.map_cons, Node.relocate_place hl n start hs.1 (by omega),
      ih (start + n.size) hs.2 (by omega), Node.placeAll]

end Placing

namespace Document

/-- The declarations as trees whose spans are told in numbers of tokens. -/
def indexedTrees (d : Document) : List Tree :=
  d.trees.map (Tree.relocate (tokenRange d.source.tokens.toList))

/-- In numbers of tokens a tree stands where its node does among the lexemes. -/
theorem indexedTrees_eq {levels : Nat} {text : Text} {d : Document}
    (h : parse levels text = .ok d) :
    d.indexedTrees = Node.placeAll Span.mk 0 (d.decls.map Decl.node) := by
  obtain ⟨htrees, hsolid, hrun⟩ := Document.trees_placed h
  have hsize := hrun.length_eq
  rw [Item.length_lexemes] at hsize
  rw [indexedTrees, htrees, (Document.account h .value).1]
  exact Node.relocate_placeAll (fun _ _ => tokenRange_locate) .value _ 0 hsolid (by omega)

/-- The documents have the same trees, dumps, diagnostics and invalid nodes, wherever their tokens
stand. -/
structure SameButLayout (d e : Document) : Prop where
  trees : d.indexedTrees = e.indexedTrees
  sexpr : Tree.fileSexpr d.trees = Tree.fileSexpr e.trees
  diagnostics : d.diagnostics.map (fun g => (g.kind, g.message)) =
    e.diagnostics.map fun g => (g.kind, g.message)
  invalid : d.invalidTrees.map Tree.kind = e.invalidTrees.map Tree.kind

/-- Parsing looks at the lexemes only. -/
theorem parse_of_lexemes {a b : Text} (h : (Source.ofText a).lexemes = (Source.ofText b).lexemes)
    (levels : Nat) :
    (∃ left, parse levels a = .error ((Source.ofText a).tooDeep levels left) ∧
      parse levels b = .error ((Source.ofText b).tooDeep levels left)) ∨
    ∃ decls found, parse levels a = .ok ⟨.ofText a, decls, found⟩ ∧
      parse levels b = .ok ⟨.ofText b, decls, found⟩ := by
  unfold parse ofSource
  rw [← h]
  cases Grammar.declarations levels (Source.ofText a).lexemes with
  | done decls rest found => exact .inr ⟨decls, found, rfl, rfl⟩
  | failed problem rest found => exact .inr ⟨[], found, rfl, rfl⟩
  | tooDeep rest found => exact .inl ⟨rest.length, rfl, rfl⟩

/-- A document is told, but for its layout, by its declarations and findings. -/
theorem sameButLayout_of_eq {levels : Nat} {a b : Text} {d e : Document}
    (hd : parse levels a = .ok d) (he : parse levels b = .ok e) (hdecls : d.decls = e.decls)
    (hfindings : d.findings = e.findings) : d.SameButLayout e := by
  have htrees : d.indexedTrees = e.indexedTrees := by
    rw [indexedTrees_eq hd, indexedTrees_eq he, hdecls]
  refine ⟨htrees, ?_, ?_, ?_⟩
  · have hdump := congrArg Tree.fileSexpr htrees
    rw [indexedTrees, indexedTrees, Tree.fileSexpr_relocate, Tree.fileSexpr_relocate] at hdump
    exact hdump
  · simp only [diagnostics, Source.diagnostics, hfindings, List.map_map]
    rfl
  · simp only [invalidTrees, Source.invalidTrees, hfindings, List.map_map]
    refine List.map_congr_left fun f _ => ?_
    simp [Source.place]

end Document

/-- What parsing two texts with the same limit comes to: both nest too deep, at tokens of the same
number, or both give documents that differ in their layout only. -/
inductive SameOutcome (a b : Text) : Except TooDeep Document → Except TooDeep Document → Prop
  | tooDeep (levels index : Nat) (t u : Token) (ht : (tokenize a)[index]? = some t)
      (hu : (tokenize b)[index]? = some u) :
      SameOutcome a b (.error ⟨levels, t.position⟩) (.error ⟨levels, u.position⟩)
  | parsed (d e : Document) (h : d.SameButLayout e) : SameOutcome a b (.ok d) (.ok e)

theorem Source.getElem?_index (text : Text) (left : Nat) :
    (tokenize text)[(Source.ofText text).index left]? =
      some ((Source.ofText text).tokenLeft left) := by
  have hlen := length_tokenize text
  have hsize := Source.size_ofText text
  have hindex : (Source.ofText text).index left < (tokenize text).length := by
    rw [Source.index]
    omega
  rw [Source.tokenLeft, Source.token_eq_getElem hindex]
  exact List.getElem?_eq_getElem hindex

/-- Whatever the limit, texts with the same tokens are parsed alike. -/
theorem parse_sameOutcome {a b : Text} (h : SameTokens a b) (levels : Nat) :
    SameOutcome a b (Document.parse levels a) (Document.parse levels b) := by
  rcases Document.parse_of_lexemes h.lexemes levels with
    ⟨left, ha, hb⟩ | ⟨decls, found, ha, hb⟩
  · have hindex : (Source.ofText a).index left = (Source.ofText b).index left := by
      have hcount := congrArg List.length h
      simp only [List.length_map, length_tokenize] at hcount
      simp only [Source.index, Source.size_ofText]
      omega
    rw [ha, hb]
    have hu := Source.getElem?_index b left
    rw [← hindex] at hu
    exact .tooDeep levels _ _ _ (Source.getElem?_index a left) hu
  · have hsame := Document.sameButLayout_of_eq ha hb rfl rfl
    rw [ha, hb]
    exact .parsed _ _ hsame

/-- A file with a misused keyword and an unfinished statement, on one line and spread over several
with comments and a continued line. Three levels are enough for both, and two for neither. -/
theorem parse_sameOutcome_spread :
    let line := Text.ofString "uniform if a;void f()\x7ba=;b=(c);\x7d"
    let spread := Text.ofString
      "uniform // name\nif \\\n a ;\nvoid f( ) \x7b\n  a = /* ? */ ;\n  b = (c);\n\x7d"
    SameTokens line spread ∧
      (∃ d e, Document.parse 3 line = .ok d ∧ Document.parse 3 spread = .ok e ∧
        d.trees.map Tree.span = [⟨0, 13⟩, ⟨13, 32⟩] ∧
        e.trees.map Tree.span = [⟨0, 25⟩, ⟨26, 66⟩] ∧ d.SameButLayout e) ∧
      ∃ e e', Document.parse 2 line = .error e ∧ Document.parse 2 spread = .error e' ∧
        SameOutcome line spread (.error e) (.error e') := by
  intro line spread
  have hsame : SameTokens line spread := by decide +kernel
  refine ⟨hsame, ?_, ?_⟩
  · obtain ⟨d, hd, hspans⟩ := Document.exists_parse 3 line
      (fun d => d.trees.map Tree.span == [⟨0, 13⟩, ⟨13, 32⟩]) (by decide +kernel)
    obtain ⟨e, he, hspans'⟩ := Document.exists_parse 3 spread
      (fun d => d.trees.map Tree.span == [⟨0, 25⟩, ⟨26, 66⟩]) (by decide +kernel)
    have hout := parse_sameOutcome hsame 3
    rw [hd, he] at hout
    cases hout with
    | parsed _ _ h => exact ⟨d, e, hd, he, eq_of_beq hspans, eq_of_beq hspans', h⟩
  · have hline : (Document.parse 2 line).toOption.isNone = true := by decide +kernel
    have hout := parse_sameOutcome hsame 2
    cases hd : Document.parse 2 line with
    | ok d => simp [hd, Except.toOption] at hline
    | error e =>
      cases he : Document.parse 2 spread with
      | ok d' =>
        rw [hd, he] at hout
        cases hout
      | error e' =>
        rw [hd, he] at hout
        exact ⟨e, e', rfl, rfl, hout⟩

end ShaderSyntax
