import ShaderSyntax.Proofs.Decoding
import ShaderSyntax.Proofs.Leaves
import ShaderSyntax.Proofs.Tidy

/-!
# What dumps tell

The one-line dump of a document tells its declarations, whatever its strings hold and however many
errors it has. Two documents that are dumped alike differ in places and in the messages of their errors
only, and so do any two of their trees.
-/
namespace ShaderSyntax

/-- The bare trees of a document are those of its declarations. -/
theorem Document.bares_trees {levels : Nat} {text : Text} {d : Document}
    (h : parse levels text = .ok d) :
    d.trees.map Tree.bare = d.decls.map fun decl => decl.node.bare := by
  rw [(trees_placed h).1, Node.bares_placeAll, List.map_map]
  rfl

/-- The declarations of a document are read back from its bare trees. -/
theorem Document.read_bares {levels : Nat} {text : Text} {d : Document}
    (h : parse levels text = .ok d) :
    (d.trees.map Tree.bare).map Decl.read = d.decls.map Decl.bare := by
  rw [bares_trees h, List.map_map]
  exact List.map_congr_left fun decl hdecl => Decl.read_bare (judged_of_mem h decl hdecl)

/-- Documents are dumped alike exactly if their trees are alike but for places and messages, and then
so are their declarations; any two of their trees are dumped alike exactly if they are alike in this
way. -/
theorem dumps_readable {m n : Nat} {a b : Text} {d e : Document}
    (hd : Document.parse m a = .ok d) (he : Document.parse n b = .ok e) :
    (Tree.fileSexpr d.trees = Tree.fileSexpr e.trees ↔
      d.trees.map Tree.bare = e.trees.map Tree.bare) ∧
    (Tree.fileSexpr d.trees = Tree.fileSexpr e.trees →
      d.decls.map Decl.bare = e.decls.map Decl.bare) ∧
    ∀ v ∈ Tree.walk (fun _ => true) d.trees, ∀ w ∈ Tree.walk (fun _ => true) e.trees,
      v.tree.sexpr = w.tree.sexpr ↔ v.tree.bare = w.tree.bare := by
  have hld := Document.legible_trees hd
  have hle := Document.legible_trees he
  refine ⟨⟨Tree.bares_eq_of_fileSexpr hld hle, ?_⟩, ?_, ?_⟩
  · intro h
    rw [← Tree.fileSexpr_bares d.trees, h, Tree.fileSexpr_bares]
  · intro h
    rw [← Document.read_bares hd, ← Document.read_bares he, Tree.bares_eq_of_fileSexpr hld hle h]
  · intro v hv w hw
    constructor
    · intro h
      have happend : v.tree.sexpr ++ [] = w.tree.sexpr ++ [] := by rw [h]
      exact (Tree.bare_eq_of_sexpr _ _ [] [] (Tree.legible_of_mem_walk hld v hv)
        (Tree.legible_of_mem_walk hle w hw) happend).1
    · intro h
      rw [← Tree.sexpr_bare v.tree, h, Tree.sexpr_bare]

/-- A string of delimiters, a hint with and without parentheses, and two errors with different
messages: the documents are dumped alike, and their declarations are alike. -/
theorem dumps_readable_delimiters :
    ∃ d e, Document.parse 9 (Text.ofString
        "#include \"a) (file: b\n\" uniform float f : source_color() = 1.0; @;") = .ok d ∧
      Document.parse 5 (Text.ofString
        "#include\"a) (file: b\n\"uniform float f:source_color=1.0;uniform;") = .ok e ∧
      Tree.fileSexpr d.trees = Tree.fileSexpr e.trees ∧
      d.trees.map Tree.span ≠ e.trees.map Tree.span ∧
      d.diagnostics.map Diagnostic.message ≠ e.diagnostics.map Diagnostic.message ∧
      d.decls.map Decl.bare = e.decls.map Decl.bare := by
  let dump := Text.ofString ("(source_file (include_declaration file: (string \"a) (file: b\n\")) " ++
    "(uniform_declaration specifier: (var_specifier type: (builtin_type float) name: (ident f)) " ++
    "hints: (hint_list hint: (hint name: (hint_name source_color))) value: (float 1.0)) (ERROR))")
  obtain ⟨d, hd, hdumped⟩ := Document.exists_parse 9 (Text.ofString
      "#include \"a) (file: b\n\" uniform float f : source_color() = 1.0; @;")
    (fun d => Tree.fileSexpr d.trees == dump &&
      (d.trees.map Tree.span == [⟨0, 23⟩, ⟨24, 63⟩, ⟨64, 66⟩] &&
        d.diagnostics.map Diagnostic.message ==
          [Text.ofString "expected declaration, got ILLEGAL \"@\""])) (by decide +kernel)
  obtain ⟨e, he, hedumped⟩ := Document.exists_parse 5 (Text.ofString
      "#include\"a) (file: b\n\"uniform float f:source_color=1.0;uniform;")
    (fun e => Tree.fileSexpr e.trees == dump &&
      (e.trees.map Tree.span == [⟨0, 22⟩, ⟨22, 55⟩, ⟨55, 63⟩] &&
        e.diagnostics.map Diagnostic.message ==
          [Text.ofString "expected type, got ';'"])) (by decide +kernel)
  simp only [Bool.and_eq_true, beq_iff_eq] at hdumped hedumped
  obtain ⟨hd', hdspans, hdmessages⟩ := hdumped
  obtain ⟨he', hespans, hemessages⟩ := hedumped
  have hdump : Tree.fileSexpr d.trees = Tree.fileSexpr e.trees := hd'.trans he'.symm
  refine ⟨d, e, hd, he, hdump, ?_, ?_, (dumps_readable hd he).2.1 hdump⟩
  · rw [hdspans, hespans]
    decide
  · rw [hdmessages, hemessages]
    decide +kernel

end ShaderSyntax
