import ShaderSyntax.Proofs.Containment
import ShaderSyntax.Proofs.Invalid
import ShaderSyntax.Proofs.Parallel

/-!
# Starting again at a declaration

A file is parsed one declaration after the other, and nothing is carried from one to the next. So the
text from the start of a declaration on, parsed by itself, has the declarations that were left there,
with their diagnostics and invalid trees. Only the offsets differ, by where that text starts.
-/
namespace ShaderSyntax

open ShaderSyntax.Parser

namespace Parser

variable {α : Type} {node : α → Node}

/-- Where nothing stops them, the first item is parsed, and the others from what it left. -/
theorem manyUntil_cons {item : Parser α} {stop : Lexeme → Bool}
    (h : ∀ ts, ts ≠ [] → (item ts).Reads ts fun a items => (node a).Spells items) {l : Lexeme}
    (hl : stop l = false) (ts : List Lexeme) :
    manyUntil stop item (l :: ts) =
      (item.andThen fun a => (manyUntil stop item).andThen fun as => value (a :: as))
        (l :: ts) := by
  change manyWithin stop item (ts.length + 1) (l :: ts) = _
  simp only [manyWithin, hl, Bool.false_eq_true, if_false, bind_eq_andThen, andThen]
  cases hi : item (l :: ts) with
  | done a mid first =>
    have hlt := length_lt_of_reads (h (l :: ts) (by simp)) hi
    simp only [List.length_cons] at hlt
    dsimp only
    rw [manyWithin_eq stop h ts.length mid.length mid (by omega) (Nat.le_refl _)]
    rfl
  | failed problem rest found => rfl
  | tooDeep rest found => rfl

end Parser

namespace Grammar

/-- The declarations of a file are some that account for its front, and those of what is left
there, with their own findings. -/
theorem declarations_split {levels : Nat} (label : Label) (i : Nat) {ts : List Lexeme}
    {ds : List Decl} {found : List Finding} (h : declarations levels ts = .done ds [] found) :
    ∃ left first last, found = first ++ last ∧
      Item.Account (Item.children label ((ds.take i).map Decl.node)) ts left first ∧
      declarations levels left = .done (ds.drop i) [] last := by
  induction i generalizing ts ds found with
  | zero => exact ⟨ts, [], found, rfl, .nil ts, h⟩
  | succ i ih =>
    cases ts with
    | nil =>
      cases h
      exact ⟨[], [], [], rfl, .nil [], rfl⟩
    | cons l ts =>
      rw [declarations, manyUntil_cons (recoveredDecl_reads levels) rfl,
        andThen_eq_done_iff] at h
      obtain ⟨d, mid, first, last, hi, hrest, rfl⟩ := h
      obtain ⟨more, rest, last', none', hmore, hv, rfl⟩ := andThen_eq_done_iff.mp hrest
      cases hv
      obtain ⟨items, hn, hitems⟩ :=
        (recoveredDecl_reads levels (l :: ts) (by simp)).done d mid first hi
      obtain ⟨left, first', last, rfl, ha, hleft⟩ := ih hmore
      refine ⟨left, first ++ first', last, by simp, ?_, hleft⟩
      exact (hn.child label hitems).append ha

end Grammar

theorem Node.placeAll_append (locate : Nat → Nat → Span Nat) (label : Label) (xs ys : List Node)
    (start : Nat) :
    Node.placeAll locate start (xs ++ ys) = Node.placeAll locate start xs ++
      Node.placeAll locate (start + Item.size (Item.children label xs)) ys := by
  induction xs generalizing start with
  | nil => rfl
  | cons n xs ih =>
    rw [List.cons_append, Node.placeAll, Node.placeAll, ih, Item.size_children_cons, Nat.add_assoc,
      List.cons_append]

theorem Node.length_placeAll (locate : Nat → Nat → Span Nat) (start : Nat) (nodes : List Node) :
    (Node.placeAll locate start nodes).length = nodes.length := by
  induction nodes generalizing start with
  | nil => rfl
  | cons n nodes ih => rw [Node.placeAll, List.length_cons, ih, List.length_cons]

section Shift

variable {offset : Nat}

@[simp] theorem Tree.kind_shift (t : Tree) : (t.shift offset).kind = t.kind := by
  cases t <;> simp [Tree.shift, Tree.kind]

theorem Tree.isInvalid_shift (t : Tree) : (t.shift offset).isInvalid = t.isInvalid := by
  rw [Tree.isInvalid, Tree.kind_shift, Tree.isInvalid]

mutual

/-- A walk meets the same trees further on. -/
theorem Tree.visits_shift : ∀ (t : Tree) (parent? other? : Option Tree),
    ((t.shift offset).visits (fun _ => true) parent?).map Visit.tree =
      ((t.visits (fun _ => true) other?).map Visit.tree).map (Tree.shift offset)
  | .leaf _ _ _, _, _ => rfl
  | .error _ _, _, _ => rfl
  | .branch k s fields, _, _ => by
    simp only [Tree.shift, Tree.visits, if_true, List.map_cons]
    rw [Field.visits_shifts fields]

theorem Field.visits_shifts : ∀ (fields : List Field) (parent? other? : Option Tree),
    (Field.visits (fun _ => true) parent? (Field.shifts offset fields)).map Visit.tree =
      ((Field.visits (fun _ => true) other? fields).map Visit.tree).map (Tree.shift offset)
  | [], _, _ => rfl
  | .attribute _ _ :: rest, parent?, other? => Field.visits_shifts rest parent? other?
  | .child _ t :: rest, parent?, other? => by
    simp only [Field.shifts, Field.visits, List.map_append]
    rw [Tree.visits_shift t parent? other?, Field.visits_shifts rest parent? other?]

end

theorem invalids_walk_append (xs ys : List Tree) :
    invalids (Tree.walk (fun _ => true) (xs ++ ys)) =
      invalids (Tree.walk (fun _ => true) xs) ++ invalids (Tree.walk (fun _ => true) ys) := by
  rw [Tree.walk, List.flatMap_append, invalids_append]
  rfl

theorem invalids_walk_shift (roots : List Tree) :
    invalids (Tree.walk (fun _ => true) (roots.map (Tree.shift offset))) =
      (invalids (Tree.walk (fun _ => true) roots)).map (Tree.shift offset) := by
  have hkept : Tree.isInvalid ∘ Tree.shift offset = Tree.isInvalid :=
    funext Tree.isInvalid_shift
  induction roots with
  | nil => rfl
  | cons t roots ih =>
    rw [List.map_cons, invalids_walk_cons, invalids_walk_cons, ih, List.map_append]
    have hfirst : invalids ((t.shift offset).visits (fun _ => true) none) =
        (invalids (t.visits (fun _ => true) none)).map (Tree.shift offset) := by
      rw [invalids, Tree.visits_shift t none none, List.filter_map, hkept]
      rfl
    rw [hfirst]

end Shift

/-- The document is what another one has from one of its declarations on, so many bytes further on:
those declarations, and the invalid trees and the diagnostics that come after those of the
declarations before. -/
structure Document.EndsWith (d : Document) (i offset : Nat) (later : Document) : Prop where
  trees : d.trees.drop i = later.trees.map (Tree.shift offset)
  invalidTrees : d.invalidTrees =
    invalids (Tree.walk (fun _ => true) (d.trees.take i)) ++
      later.invalidTrees.map (Tree.shift offset)
  diagnostics : ∃ before after, d.diagnostics = before ++ after ∧
    before.length = (invalids (Tree.walk (fun _ => true) (d.trees.take i))).length ∧
    after.map (fun e => (e.kind, e.message, e.span)) =
      later.diagnostics.map fun e => (e.kind, e.message, e.span.shift offset)

namespace Source

variable {s : Source} {problem : Problem} {left : Nat}

theorem kind_diagnose : (s.diagnose problem left).kind = problem.kind := rfl

theorem message_diagnose : (s.diagnose problem left).message = problem.message := rfl

theorem span_diagnose : (s.diagnose problem left).span = (s.token (s.index left)).span := rfl

end Source

namespace Document

variable {levels : Nat} {text : Text} {d later : Document}

/-- No finding of a document was made before its text starts. -/
theorem left_le_of_mem_findings (h : parse levels text = .ok d) {f : Finding}
    (hf : f ∈ d.findings) : f.left ≤ (Source.ofText text).lexemes.length := by
  obtain ⟨-, ha⟩ := Document.account h .value
  have hsite : f.site ∈ Item.sites 0 (Item.children .value (d.decls.map Decl.node)) := by
    have hmem := List.mem_map_of_mem (f := Finding.site) hf
    rw [ha.findings, List.length_nil] at hmem
    exact hmem
  have hinside : f.nodeLeft ≤ 0 + Item.size (Item.children .value (d.decls.map Decl.node)) :=
    (Item.sites_inside _ _ _ hsite).2
  have hleft := (findings_fit h f hf).left_le
  have hlen := ha.length_eq
  rw [List.length_nil] at hlen
  omega

/-- The text from the token at which so many declarations have ended is a document of the others,
and the last findings are its findings. -/
theorem exists_later (h : parse levels text = .ok d) {i : Nat} (hi : i ≤ d.decls.length) :
    ∃ run next after first later, tokenize text = run ++ next :: after ∧
      d.findings = first ++ later.findings ∧
      parse levels (text.drop next.span.start) = .ok later ∧
      later.source.lexemes = lexemes (next :: after) ∧
      d.trees.drop i = Node.placeAll (Source.ofText text).locate run.length
        ((d.decls.drop i).map Decl.node) ∧
      d.trees.drop i = later.trees.map (Tree.shift next.span.start) := by
  obtain ⟨hsource, hdecls⟩ := parse_eq_ok_iff.mp h
  obtain ⟨left, first, last, hfound, ha, hleft⟩ := Grammar.declarations_split .value i hdecls
  obtain ⟨run, next, after, htokens, hrun, hlexemes, hlen⟩ := tokenize_split ha.lexemes
  let later : Document := ⟨.ofText (text.drop next.span.start), d.decls.drop i, last⟩
  have hlater : parse levels (text.drop next.span.start) = .ok later := by
    rw [parse_eq_ok_iff, lexemes_drop htokens, hlexemes]
    exact ⟨rfl, hleft⟩
  have hsize : Item.size (Item.children .value ((d.decls.take i).map Decl.node)) = run.length := by
    rw [hrun.length_eq, Item.length_lexemes]
  have hdrop : d.trees.drop i = Node.placeAll (Source.ofText text).locate run.length
      ((d.decls.drop i).map Decl.node) := by
    have hcount : (Node.placeAll (Source.ofText text).locate 0
        ((d.decls.take i).map Decl.node)).length = i := by
      rw [Node.length_placeAll, List.length_map, List.length_take]
      omega
    rw [trees_eq_placeAll hsource]
    conv_lhs => rw [← List.take_append_drop i d.decls]
    rw [List.map_append, Node.placeAll_append _ .value, hsize, Nat.zero_add,
      List.drop_left' hcount]
  refine ⟨run, next, after, first, later, htokens, hfound, hlater, lexemes_drop htokens, hdrop, ?_⟩
  have hrest := Grammar.declarations_account hleft .value
  have hlocate : ∀ i j, i < j → j ≤ left.length →
      (Source.ofText text).locate (run.length + i) (run.length + j) =
        ((Source.ofText (text.drop next.span.start)).locate i j).shift next.span.start :=
    fun i j hij hj => Source.locate_drop htokens i j hij (by omega)
  have hbound : 0 + Item.size (Item.children .value ((d.decls.drop i).map Decl.node)) ≤
      left.length := by
    rw [hrest.length_eq, List.length_nil]
  have hshift :=
    Node.placeAll_shift hlocate .value ((d.decls.drop i).map Decl.node) 0 hrest.solid hbound
  rw [hdrop, trees_eq_placeAll (d := later) rfl, ← hshift, Nat.add_zero]

/-- A diagnostic of the text from a token on is met so many bytes further on in the whole text. -/
theorem diagnose_drop {before after : List Token} {next : Token}
    (h : tokenize text = before ++ next :: after) (problem : Problem) {left : Nat}
    (hleft : left ≤ (Source.ofText (text.drop next.span.start)).lexemes.length) :
    ((Source.ofText text).diagnose problem left).span =
      ((Source.ofText (text.drop next.span.start)).diagnose problem left).span.shift
        next.span.start := by
  have hlength := (tokenize_drop h).length_eq
  have hwhole := length_tokenize text
  have hpart := length_tokenize (text.drop next.span.start)
  have hlexemes := (Source.run_lexemes (text.drop next.span.start)).length_eq
  rw [h, List.length_append] at hwhole
  have hindex : (Source.ofText text).index left =
      before.length + (Source.ofText (text.drop next.span.start)).index left := by
    simp only [Source.index, Source.size_ofText]
    omega
  have hbound : (Source.ofText (text.drop next.span.start)).index left < (next :: after).length := by
    simp only [Source.index, Source.size_ofText]
    omega
  rw [Source.span_diagnose, hindex, (Source.token_drop h hbound).span, Source.span_diagnose]

end Document

/-- Whatever the text and the limit, and whatever errors stand before it, the text from the start of
a declaration on is parsed as it was in the whole. -/
theorem parse_from_declaration {levels : Nat} {text : Text} {d : Document}
    (h : Document.parse levels text = .ok d) {i : Nat} {t : Tree} (ht : d.trees[i]? = some t) :
    ∃ later, Document.parse levels (text.drop t.span.start) = .ok later ∧
      d.EndsWith i t.span.start later := by
  have hi : i < d.decls.length := by
    obtain ⟨hlt, -⟩ := List.getElem?_eq_some_iff.mp ht
    rwa [Document.trees_eq_placeAll (Document.account h .value).1, Node.length_placeAll,
      List.length_map] at hlt
  obtain ⟨run, next, after, first, later, htokens, hfindings, hlater, hlexemes, hplaced, htrees⟩ :=
    Document.exists_later h (Nat.le_of_lt hi)
  have hstart : t.span.start = next.span.start := by
    have hhead : (d.trees.drop i).head? = some t := by rw [List.head?_drop, ht]
    rw [hplaced, List.drop_eq_getElem_cons hi, List.map_cons, Node.placeAll, List.head?_cons] at hhead
    rw [← Option.some.inj hhead, Node.span_place]
    change ((Source.ofText text).token run.length).span.start = _
    rw [Source.token_eq_getElem (by rw [htokens]; simp)]
    simp [htokens]
  have hinvalid : d.invalidTrees = invalids (Tree.walk (fun _ => true) (d.trees.take i)) ++
      later.invalidTrees.map (Tree.shift next.span.start) := by
    rw [Document.invalidTrees_walk h, Document.invalidTrees_walk hlater, ← invalids_walk_shift,
      ← htrees, ← invalids_walk_append, List.take_append_drop]
  rw [hstart]
  refine ⟨later, hlater, htrees, hinvalid, ?_⟩
  have hsource := (Document.account h .value).1
  have hlatersource := (Document.account hlater .value).1
  refine ⟨d.source.diagnostics first, d.source.diagnostics later.findings, ?_, ?_, ?_⟩
  · rw [Document.diagnostics, hfindings, Source.diagnostics, List.map_append]
    rfl
  · -- There are as many diagnostics as invalid trees, in the whole and in what is left.
    have hcount := congrArg List.length hinvalid
    simp only [Document.invalidTrees, Source.invalidTrees, hfindings, List.length_map,
      List.length_append] at hcount
    rw [Source.diagnostics, List.length_map]
    omega
  · simp only [Document.diagnostics, Source.diagnostics, List.map_map]
    apply List.map_congr_left
    intro f hf
    have hleft := Document.left_le_of_mem_findings hlater hf
    simp only [Function.comp_apply, hsource, hlatersource, Source.kind_diagnose,
      Source.message_diagnose, Document.diagnose_drop htokens f.problem hleft]

/-- The second of three declarations is a stray variable, and the last one holds an unknown word. -/
theorem parse_from_declaration_after_error :
    let text := Text.ofString "void f() \x7b a = ; \x7d\nint b;\nshader_type nope;"
    ∃ d t, Document.parse 4 text = .ok d ∧ d.trees[1]? = some t ∧ t.kind = .error ∧
      t.span.start = 19 ∧ d.diagnostics.length = 3 ∧
      ∃ later, Document.parse 4 (text.drop t.span.start) = .ok later ∧
        d.EndsWith 1 t.span.start later := by
  intro text
  obtain ⟨d, hd, hcheck⟩ := Document.exists_parse 4 text (fun d =>
    d.trees[1]?.map (fun t => (t.kind, t.span.start)) == some (.error, 19) &&
      d.diagnostics.length == 3) (by decide +kernel)
  obtain ⟨htree, hcount⟩ := Bool.and_eq_true_iff.mp hcheck
  obtain ⟨t, ht, hplace⟩ := Option.map_eq_some_iff.mp (eq_of_beq htree)
  obtain ⟨hkind, hstart⟩ := Prod.mk.inj hplace
  exact ⟨d, t, hd, ht, hkind, hstart, eq_of_beq hcount, parse_from_declaration hd ht⟩

end ShaderSyntax
