import ShaderSyntax.Proofs.Judging.Declaration
import ShaderSyntax.Proofs.Parallel
import ShaderSyntax.Proofs.Roles.Declaration
import ShaderSyntax.Proofs.Shape.Tree

/-!
# Leaves and vocabularies

The kind of a leaf follows from its place in the tree, the class of its word, and for an operand the
token after it. This holds of every leaf that a walk through a document meets, however broken the
text around it is. A leaf of a kind for invalid words has a diagnostic of its own.
-/
namespace ShaderSyntax

/-- The leaf stands on one token of the source, and its kind is what the role tells for that token
before the next one. -/
def Role.Tells (role : Role) (s : Source) (kind : Kind) (span : Span Nat) (word : Text) : Prop :=
  ∃ i l, (s.token i).lexeme? = some l ∧ span = (s.token i).span ∧ word = l.text ∧
    role.kind? (s.token (i + 1)).lexeme? l = some kind

/-- The leaves of the tree itself are of the kinds that their places in it tell. -/
def Tree.InRoles (s : Source) (t : Tree) : Prop :=
  ∀ label kind span word, t.Holds label (.leaf kind span word) →
    (t.kind.role label).Tells s kind span word

theorem Source.lexeme?_token (text : Text) (i : Nat) :
    ((ofText text).token i).lexeme? = (ofText text).lexemes[i]? := by
  obtain ⟨last, htokens, hlast⟩ := tokens_ofText text
  have hlexemes := (run_lexemes text).lexemes
  have hlen := (run_lexemes text).length_eq
  rw [token, ← Array.getElem?_toList, htokens]
  rcases Nat.lt_or_ge i (written text).length with hi | hi
  · have hget := congrArg (fun ls : List (Option Lexeme) => ls[i]?) hlexemes
    simp only [List.getElem?_map] at hget
    rw [List.getElem?_append_left hi]
    have hl : i < (ofText text).lexemes.length := by omega
    simpa [List.getElem?_eq_getElem hi, List.getElem?_eq_getElem hl] using hget
  · have hnone : (ofText text).lexemes[i]? = none := List.getElem?_eq_none (by omega)
    rw [hnone, List.getElem?_append_right hi]
    cases i - (written text).length with
    | zero => exact hlast
    | succ j => rfl

section Transfer

variable {text : Text}

/-- A leaf that is placed where the source has its lexeme. -/
theorem Role.tells_place {role : Role} {k : Kind} {l : Lexeme} {start : Nat} {tail : List Lexeme}
    (h : (Source.ofText text).lexemes.drop start = l :: tail)
    (hk : role.kind? tail.head? l = some k) :
    role.Tells (.ofText text) k ((Source.ofText text).locate start (start + 1)) l.text := by
  refine ⟨start, l, ?_, rfl, rfl, ?_⟩
  · rw [Source.lexeme?_token, ← Nat.add_zero start, ← List.getElem?_drop, h]
    rfl
  · rw [Source.lexeme?_token, ← List.getElem?_drop, h, List.getElem?_cons_succ,
      ← List.head?_eq_getElem?]
    exact hk

/-- What is left behind the first part of a list. -/
theorem drop_of_append {α : Type} {l a b : List α} {start : Nat} (h : l.drop start = a ++ b) :
    l.drop (start + a.length) = b := by
  rw [← List.drop_drop, h, List.drop_left]

/-- A leaf among placed items is of the kind that its place tells. -/
theorem Item.inRoles_place {items : List Item} {owner : Kind} {start : Nat} {tail : List Lexeme}
    (h : (Source.ofText text).lexemes.drop start = Item.lexemes items ++ tail)
    (hi : Item.InRoles owner tail.head? items) {label : Label} {kind : Kind} {span : Span Nat}
    {word : Text}
    (hc : Field.child label (.leaf kind span word) ∈
      Item.place (Source.ofText text).locate start items) :
    (owner.role label).Tells (.ofText text) kind span word := by
  induction items generalizing start with
  | nil => cases hc
  | cons x items ih =>
    rcases x with l | ⟨label', l⟩ | ⟨label', n⟩
    · exact ih (drop_of_append (a := [l]) h) hi hc
    · exact ih (drop_of_append (a := [l]) h) hi (by simpa [Item.place] using hc)
    · rw [Item.lexemes, List.append_assoc] at h
      rcases List.mem_cons.mp hc with heq | hc
      · -- The leaf is the child itself, so the child is a leaf.
        cases n with
        | error s => cases heq
        | branch k below => cases heq
        | leaf k l =>
          cases heq
          have hk := hi.1
          rw [← List.head?_append] at hk
          exact Role.tells_place h hk
      · have hrest := drop_of_append h
        rw [Node.length_lexemes] at hrest
        exact ih hrest hi.2 hc

mutual

/-- A walk through a placed node meets leaves in their roles only. -/
theorem Node.visits_inRoles : ∀ (n : Node) (role : Role) (start : Nat) (tail : List Lexeme)
    (parent? : Option Tree),
    (Source.ofText text).lexemes.drop start = n.lexemes ++ tail → n.InRole role tail.head? →
    ∀ v ∈ (n.place (Source.ofText text).locate start).visits (fun _ => true) parent?,
      v.tree.InRoles (.ofText text)
  | .leaf k l, role, start, tail, parent?, h, hi, v, hv => by
    rw [List.mem_singleton.mp hv]
    intro label kind span word hc
    cases hc
  | .error s, role, start, tail, parent?, h, hi, v, hv => by
    rw [List.mem_singleton.mp hv]
    intro label kind span word hc
    cases hc
  | .branch k items, role, start, tail, parent?, h, hi, v, hv => by
    rcases List.mem_cons.mp hv with rfl | hv
    · intro label kind span word hc
      exact Item.inRoles_place h hi hc
    · exact Item.visits_inRoles items k start tail _ h hi v hv

theorem Item.visits_inRoles : ∀ (items : List Item) (owner : Kind) (start : Nat)
    (tail : List Lexeme) (parent? : Option Tree),
    (Source.ofText text).lexemes.drop start = Item.lexemes items ++ tail →
    Item.InRoles owner tail.head? items →
    ∀ v ∈ Field.visits (fun _ => true) parent?
        (Item.place (Source.ofText text).locate start items),
      v.tree.InRoles (.ofText text)
  | [], _, _, _, _, _, _, v, hv => absurd hv List.not_mem_nil
  | .token l :: rest, owner, start, tail, parent?, h, hi, v, hv =>
    Item.visits_inRoles rest owner (start + 1) tail parent? (drop_of_append (a := [l]) h) hi v hv
  | .attribute label l :: rest, owner, start, tail, parent?, h, hi, v, hv =>
    Item.visits_inRoles rest owner (start + 1) tail parent? (drop_of_append (a := [l]) h) hi v hv
  | .child label n :: rest, owner, start, tail, parent?, h, hi, v, hv => by
    rw [Item.lexemes, List.append_assoc] at h
    rcases List.mem_append.mp hv with hv | hv
    · have hn := hi.1
      rw [← List.head?_append] at hn
      exact Node.visits_inRoles n _ start _ parent? h hn v hv
    · have hrest := drop_of_append h
      rw [Node.length_lexemes] at hrest
      exact Item.visits_inRoles rest owner (start + n.size) tail parent? hrest hi.2 v hv

end

/-- Nodes that stand anywhere in their roles are placed as trees whose leaves do. -/
theorem Node.walk_inRoles {nodes : List Node} {label : Label} {start : Nat} {tail : List Lexeme}
    (h : (Source.ofText text).lexemes.drop start =
      Item.lexemes (Item.children label nodes) ++ tail)
    (hi : ∀ n ∈ nodes, ∀ role next, n.InRole role next) :
    ∀ v ∈ Tree.walk (fun _ => true) (Node.placeAll (Source.ofText text).locate start nodes),
      v.tree.InRoles (.ofText text) := by
  induction nodes generalizing start with
  | nil => exact fun v hv => absurd hv List.not_mem_nil
  | cons n nodes ih =>
    intro v hv
    rw [Item.lexemes_children_cons, List.append_assoc] at h
    rw [Node.placeAll, Tree.walk, List.flatMap_cons] at hv
    rcases List.mem_append.mp hv with hv | hv
    · exact Node.visits_inRoles n .operand start _ none h (hi n (by simp) _ _) v hv
    · have hrest := drop_of_append h
      rw [Node.length_lexemes] at hrest
      exact ih hrest (fun m hm => hi m (by simp [hm])) v hv

end Transfer

section Owners

mutual

/-- What a walk meets below its root belongs to a tree that it meets. -/
theorem Tree.exists_owner : ∀ (t : Tree) (parent? : Option Tree),
    ∀ v ∈ t.visits (fun _ => true) parent?, v = ⟨parent?, t⟩ ∨
      ∃ u ∈ t.visits (fun _ => true) parent?, ∃ label, v.parent? = some u.tree ∧
        u.tree.Holds label v.tree
  | .leaf k s w, parent?, v, hv => .inl (List.mem_singleton.mp hv)
  | .error s m, parent?, v, hv => .inl (List.mem_singleton.mp hv)
  | .branch k s fields, parent?, v, hv => by
    rcases List.mem_cons.mp hv with rfl | hv
    · exact .inl rfl
    · right
      rcases Field.exists_owner fields _ v hv with ⟨hparent, label, hc⟩ | ⟨u, hu, hrest⟩
      · exact ⟨⟨parent?, .branch k s fields⟩, List.mem_cons_self, label, hparent, hc⟩
      · exact ⟨u, List.mem_cons_of_mem _ hu, hrest⟩

theorem Field.exists_owner : ∀ (fields : List Field) (parent? : Option Tree),
    ∀ v ∈ Field.visits (fun _ => true) parent? fields,
      (v.parent? = parent? ∧ ∃ label, Field.child label v.tree ∈ fields) ∨
        ∃ u ∈ Field.visits (fun _ => true) parent? fields, ∃ label, v.parent? = some u.tree ∧
          u.tree.Holds label v.tree
  | [], _, v, hv => absurd hv List.not_mem_nil
  | .attribute label w :: rest, parent?, v, hv => by
    rcases Field.exists_owner rest parent? v hv with ⟨hparent, label', hc⟩ | howner
    · exact .inl ⟨hparent, label', List.mem_cons_of_mem _ hc⟩
    · exact .inr howner
  | .child label t :: rest, parent?, v, hv => by
    rcases List.mem_append.mp hv with hv | hv
    · rcases Tree.exists_owner t parent? v hv with rfl | ⟨u, hu, howner⟩
      · exact .inl ⟨rfl, label, List.mem_cons_self⟩
      · exact .inr ⟨u, List.mem_append_left _ hu, howner⟩
    · rcases Field.exists_owner rest parent? v hv with ⟨hparent, label', hc⟩ | ⟨u, hu, howner⟩
      · exact .inl ⟨hparent, label', List.mem_cons_of_mem _ hc⟩
      · exact .inr ⟨u, List.mem_append_right _ hu, howner⟩

end

/-- No declaration is a leaf. -/
theorem Decl.leafText?_place (d : Decl) (locate : Nat → Nat → Span Nat) (start : Nat) :
    (d.node.place locate start).leafText? = none := by
  cases d <;> rfl

end Owners

namespace Document

variable {levels : Nat} {text : Text} {d : Document}

/-- Every leaf that a walk meets is held by a tree that it meets. -/
theorem exists_owner_of_leaf (h : parse levels text = .ok d) {v : Visit}
    (hv : v ∈ Tree.walk (fun _ => true) d.trees) (hleaf : v.tree.leafText? ≠ none) :
    ∃ u ∈ Tree.walk (fun _ => true) d.trees, ∃ label, v.parent? = some u.tree ∧
      u.tree.Holds label v.tree := by
  obtain ⟨t, ht, hvt⟩ := List.mem_flatMap.mp hv
  rcases Tree.exists_owner t none v hvt with rfl | ⟨u, hu, howner⟩
  · rw [(trees_placed h).1] at ht
    obtain ⟨n, hn, start, rfl⟩ := Node.exists_of_mem_placeAll ht
    obtain ⟨decl, -, rfl⟩ := List.mem_map.mp hn
    exact absurd (decl.leafText?_place _ start) hleaf
  · exact ⟨u, List.mem_flatMap.mpr ⟨t, ht, hu⟩, howner⟩

theorem judged_of_mem (h : parse levels text = .ok d) : ∀ decl ∈ d.decls, decl.Judged :=
  fun decl hdecl => (Grammar.declarations_judged levels _ _ _ _ (parse_eq_ok_iff.mp h).2 decl
    hdecl).judged

/-- Every tree that a walk meets holds leaves in their roles only. -/
theorem walk_inRoles (h : parse levels text = .ok d) :
    ∀ v ∈ Tree.walk (fun _ => true) d.trees, v.tree.InRoles (.ofText text) := by
  have hshaped : ∀ decl ∈ d.decls, decl.node.Shaped :=
    Grammar.declarations_yields levels _ _ _ _ (parse_eq_ok_iff.mp h).2
  obtain ⟨-, ha⟩ := Document.account h .value
  rw [(trees_placed h).1]
  refine Node.walk_inRoles ha.lexemes ?_
  intro n hn role next
  obtain ⟨decl, hdecl, rfl⟩ := List.mem_map.mp hn
  exact Decl.inRole_node (hshaped decl hdecl) (judged_of_mem h decl hdecl)

/-- The diagnostic of an invalid tree has its number. -/
theorem exists_match (h : parse levels text = .ok d) {i : Nat} {t : Tree}
    (ht : d.invalidTrees[i]? = some t) : ∃ e, d.diagnostics[i]? = some e ∧ e.Matches t := by
  rw [invalidTrees, Source.invalidTrees, List.getElem?_map, Option.map_eq_some_iff] at ht
  obtain ⟨f, hf, rfl⟩ := ht
  refine ⟨d.source.diagnose f.problem f.left, ?_, ?_⟩
  · rw [diagnostics, Source.diagnostics, List.getElem?_map, hf, Option.map_some]
  · rw [(account h .value).1]
    exact (findings_fit h f (List.mem_of_getElem? hf)).matches text

/-- No two invalid trees have the same span. -/
theorem index_eq_of_span (h : parse levels text = .ok d) {i j : Nat} {t u : Tree}
    (ht : d.invalidTrees[i]? = some t) (hu : d.invalidTrees[j]? = some u) (hs : t.span = u.span) :
    i = j := by
  obtain ⟨runs, hsub, hc⟩ := invalidTrees_cover h
  have ho := (written_ordered text).sublist hsub
  have hlt := covers_start_lt_stop hc ho t (List.mem_of_getElem? ht)
  have hu' : u.span.contains t.span = true := hs ▸ t.span.contains_refl
  exact Tree.index_eq_of_contains (covers_pairwise hc ho) hlt ht hu t.span.contains_refl hu'

/-- An invalid tree that is a leaf has one diagnostic about its word, at the leaf itself. -/
theorem existsUnique_diagnostic (h : parse levels text = .ok d) {k : Kind} {span : Span Nat}
    {word : Text} (ht : .leaf k span word ∈ d.invalidTrees) :
    ∃! i : Nat, ∃ e, d.diagnostics[i]? = some e ∧ e.kind = .invalidVocabulary ∧ e.span = span := by
  obtain ⟨i, hi⟩ := List.mem_iff_getElem?.mp ht
  obtain ⟨e, he, hm⟩ := exists_match h hi
  cases hm with
  | word _ _ hkind hk hne =>
    refine ⟨i, ⟨e, he, hkind, rfl⟩, ?_⟩
    rintro j ⟨e', he', hkind', hspan'⟩
    obtain ⟨t, ht⟩ : ∃ t, d.invalidTrees[j]? = some t := by
      have hlen : d.diagnostics.length = d.invalidTrees.length := by
        simp [diagnostics, invalidTrees, Source.diagnostics, Source.invalidTrees]
      obtain ⟨hj, -⟩ := List.getElem?_eq_some_iff.mp he'
      exact ⟨_, List.getElem?_eq_getElem (by omega)⟩
    obtain ⟨e'', he'', hm'⟩ := exists_match h ht
    obtain rfl := Option.some.inj (he'.symm.trans he'')
    have hstart : t.span = e.span := by
      cases hm' with
      | word => exact hspan'
      | skipped _ hstructural => rw [hkind'] at hstructural; cases hstructural
    exact index_eq_of_span h ht hi hstart

end Document

/-- Every word of the document is what its class makes of it in its place. -/
structure Document.WordsJudged (d : Document) : Prop where
  /-- A leaf has an owner, and its kind is what its place there tells. -/
  leaf : ∀ v ∈ Tree.walk (fun _ => true) d.trees, ∀ kind span word, v.tree = .leaf kind span word →
    ∃ owner, v.parent? = some owner ∧ (∃ label, owner.Holds label v.tree) ∧
      ∀ label, owner.Holds label v.tree → (owner.kind.role label).Tells d.source kind span word
  /-- Names and types carry the class of their word, valid or not. -/
  classes : ∀ decl ∈ d.decls, decl.Judged
  reported : ∀ v ∈ Tree.walk (fun _ => true) d.trees, ∀ kind span word,
    v.tree = .leaf kind span word → kind.isInvalid = true →
    ∃! i : Nat, ∃ e, d.diagnostics[i]? = some e ∧ e.kind = .invalidVocabulary ∧ e.span = span

/-- Whatever the text and the limit, the words of a document are judged by their classes and their
places, and each word that is invalid in its place is reported once. -/
theorem words_judged {levels : Nat} {text : Text} {d : Document}
    (h : Document.parse levels text = .ok d) : d.WordsJudged := by
  have hroles := Document.walk_inRoles h
  rw [← (Document.account h .value).1] at hroles
  refine ⟨?_, Document.judged_of_mem h, ?_⟩
  · intro v hv kind span word hleaf
    obtain ⟨u, hu, label, hparent, hholds⟩ :=
      Document.exists_owner_of_leaf h hv (by simp [hleaf, Tree.leafText?])
    rw [hleaf] at hholds ⊢
    exact ⟨u.tree, hparent, ⟨label, hholds⟩, fun label' => hroles u hu label' kind span word⟩
  · intro v hv kind span word hleaf hinvalid
    apply Document.existsUnique_diagnostic h
    rw [Document.invalidTrees_walk h, ← hleaf]
    refine List.mem_filter.mpr ⟨List.mem_map_of_mem hv, ?_⟩
    rw [hleaf]
    exact hinvalid

/-- A keyword as a type, a qualifier as a name, an unknown hint, and a type that is called in one place
and not in another. -/
theorem words_judged_vec2 :
    ∃ d, Document.parse 5 (Text.ofString
        "uniform if in : nope;void f()\x7bvec2(true).TIME=vec2+lowp;\x7d") = .ok d ∧
      (Tree.walk (fun _ => true) d.trees).filterMap
          (fun v => v.tree.leafText?.map fun w => (v.tree.kind, w)) =
        [(.invalidType, Text.ofString "if"), (.invalidIdent, Text.ofString "in"),
          (.invalidHint, Text.ofString "nope"), (.builtinType, Text.ofString "void"),
          (.ident, Text.ofString "f"), (.builtinType, Text.ofString "vec2"),
          (.boolean, Text.ofString "true"), (.builtinVariable, Text.ofString "TIME"),
          (.invalidIdent, Text.ofString "vec2"), (.invalidIdent, Text.ofString "lowp")] ∧
      d.diagnostics.map Diagnostic.kind = List.replicate 5 .invalidVocabulary ∧
      d.WordsJudged := by
  obtain ⟨d, hd, hlists⟩ := Document.exists_parse 5
    (Text.ofString "uniform if in : nope;void f()\x7bvec2(true).TIME=vec2+lowp;\x7d")
    (fun d => (Tree.walk (fun _ => true) d.trees).filterMap
          (fun v => v.tree.leafText?.map fun w => (v.tree.kind, w)) ==
        [(.invalidType, Text.ofString "if"), (.invalidIdent, Text.ofString "in"),
          (.invalidHint, Text.ofString "nope"), (.builtinType, Text.ofString "void"),
          (.ident, Text.ofString "f"), (.builtinType, Text.ofString "vec2"),
          (.boolean, Text.ofString "true"), (.builtinVariable, Text.ofString "TIME"),
          (.invalidIdent, Text.ofString "vec2"), (.invalidIdent, Text.ofString "lowp")] &&
      d.diagnostics.map Diagnostic.kind == List.replicate 5 .invalidVocabulary) (by decide +kernel)
  obtain ⟨hleaves, hkinds⟩ := Bool.and_eq_true_iff.mp hlists
  exact ⟨d, hd, eq_of_beq hleaves, eq_of_beq hkinds, words_judged hd⟩

end ShaderSyntax
