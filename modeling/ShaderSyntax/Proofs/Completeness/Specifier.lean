import ShaderSyntax.Grammar.Specifier
import ShaderSyntax.Proofs.Canonical
import ShaderSyntax.Proofs.Completeness

/-!
# Names, types and specifiers come back

A canonical word has the class that its place asks for, and no word has two classes. So the keywords
that start productions are not mistaken for names, nor names for them.
-/
namespace ShaderSyntax

theorem classify_keyword (k : Keyword) : classify k.spelling = .keyword := by
  -- One evaluation for all keywords, since each reads through all vocabularies.
  have hall : ∀ k ∈ Keyword.all, classify k.spelling = .keyword := by decide +kernel
  exact hall k (Keyword.mem_all k)

theorem classify_boolText (b : Bool) : classify (boolText b) = .boolean := by
  cases b <;> decide +kernel

theorem Keyword.ofText?_eq_none {w : Text} (h : classify w ≠ .keyword) : ofText? w = none := by
  cases hk : ofText? w with
  | none => rfl
  | some k =>
    rw [← spelling_of_ofText? hk] at h
    exact absurd (classify_keyword k) h

theorem boolOf?_eq_none {w : Text} (h : classify w ≠ .boolean) : boolOf? w = none := by
  cases hb : boolOf? w with
  | none => rfl
  | some b =>
    rw [← boolText_of_boolOf? hb] at h
    exact absurd (classify_boolText b) h

theorem Recovery.isKeyword_word {w : Text} (h : classify w ≠ .keyword) (k : Keyword) :
    isKeyword k (.word w) = false := by
  simp only [isKeyword, decide_eq_false_iff_not, Lexeme.word.injEq]
  rintro rfl
  exact h (classify_keyword k)

namespace Grammar

open ShaderSyntax.Parser

theorem name_done {n : Name} (h : n.canonical = true) (rest : List Lexeme) :
    name (.word n.word :: rest) = .done n rest [] := by
  cases n with
  | valid cls w =>
    simp only [Name.canonical, Bool.and_eq_true, beq_iff_eq] at h
    obtain ⟨rfl, hn⟩ := h
    simp [name, Name.word, hn]
  | invalid cls w => cases h

theorem term_done {wanted : Wanted} {cls : WordClass} {good bad : Kind} {problem : Text → Problem}
    {t : Term} (h : t.canonical cls = true) (rest : List Lexeme) :
    term wanted cls good bad problem ((t.node good bad).lexemes ++ rest) = .done t rest [] := by
  cases t with
  | known w =>
    have hc : classify w = cls := by simpa [Term.canonical] using h
    simp [term, Term.node, Node.lexemes, hc]
  | unknown w => cases h

theorem lexemes_size (digits : Text) (rest : List Lexeme) :
    Item.lexemes (sizeItems digits) ++ rest =
      .punct .openBracket :: .int digits :: .punct .closeBracket :: rest := rfl

theorem sizeSuffixes_size (digits : Text) (rest : List Lexeme) :
    sizeSuffixes (.punct .openBracket :: .int digits :: .punct .closeBracket :: rest) =
      (digits :: (sizeSuffixes rest).1, (sizeSuffixes rest).2) := rfl

/-- A type takes its own sizes first, and then all that follow. -/
theorem typeRef_grows {t : TypeRef} (h : t.canonical = true) (rest : List Lexeme) :
    typeRef (t.node.lexemes ++ rest) =
      .done ((sizeSuffixes rest).1.foldl .array t) (sizeSuffixes rest).2 [] := by
  induction t generalizing rest with
  | builtin w =>
    have hc : (classify w).typeRole = .builtin := by simpa [TypeRef.canonical] using h
    have hb : baseType (.word w :: rest) = .done (.builtin w) rest [] := by simp [baseType, hc]
    exact bind_done hb
  | named w =>
    have hc : (classify w).typeRole = .named := by simpa [TypeRef.canonical] using h
    have hb : baseType (.word w :: rest) = .done (.named w) rest [] := by simp [baseType, hc]
    exact bind_done hb
  | invalid cls w => cases h
  | array base size ih =>
    have hl : (TypeRef.array base size).node.lexemes ++ rest =
        base.node.lexemes ++ (Item.lexemes (sizeItems size) ++ rest) := by
      simp [TypeRef.node, Node.lexemes, Item.lexemes]
    rw [hl, lexemes_size, ih h, sizeSuffixes_size]
    rfl

theorem typeRef_done {t : TypeRef} (h : t.canonical = true) (w : Text) (rest : List Lexeme) :
    typeRef (t.node.lexemes ++ .word w :: rest) = .done t (.word w :: rest) [] := by
  rw [typeRef_grows h]
  rfl

theorem arraySizesWithin_done (sizes : List Text) (rest : List Lexeme)
    (hend : Ends (Recovery.isPunct .openBracket) rest) (rounds : Nat)
    (hr : sizes.length ≤ rounds) :
    arraySizesWithin rounds (Item.lexemes (sizes.flatMap sizeItems) ++ rest) =
      .done sizes rest [] := by
  induction sizes generalizing rounds with
  | nil =>
    cases rounds with
    | zero => rfl
    | succ rounds => exact onPunct_other _ _ hend
  | cons digits sizes ih =>
    obtain ⟨rounds, rfl⟩ : ∃ n, rounds = n + 1 := ⟨rounds - 1, by simp at hr; omega⟩
    have hsize : arraySize (.int digits :: .punct .closeBracket ::
        (Item.lexemes (sizes.flatMap sizeItems) ++ rest)) =
        .done digits (Item.lexemes (sizes.flatMap sizeItems) ++ rest) [] := by
      unfold arraySize
      exact andThen_done (require_done .afterArraySize _)
    have hrest := ih rounds (by simpa using hr)
    rw [List.flatMap_cons, Item.lexemes_append, List.append_assoc, lexemes_size, arraySizesWithin,
      onPunct_same, bind_done hsize, bind_done hrest]
    rfl

theorem length_sizes (sizes : List Text) :
    sizes.length ≤ (Item.lexemes (sizes.flatMap sizeItems)).length := by
  induction sizes with
  | nil => exact Nat.le_refl 0
  | cons digits sizes ih =>
    rw [List.flatMap_cons, Item.lexemes_append, List.length_append, List.length_cons]
    have : (Item.lexemes (sizeItems digits)).length = 3 := rfl
    omega

theorem specifier_lexemes (s : Specifier) :
    Item.lexemes s.items = s.type.node.lexemes ++
      .word s.name.word :: Item.lexemes (s.sizes.flatMap sizeItems) := by
  cases hs : s.sizes <;>
    simp [Specifier.items, Specifier.sizesNode?, hs, Item.child?, Item.lexemes, Name.node,
      Node.lexemes]

/-- A specifier comes back if no further size follows it. -/
theorem specifier_done {s : Specifier} (h : s.canonical = true) {rest : List Lexeme}
    (hend : Ends (Recovery.isPunct .openBracket) rest) :
    specifier (Item.lexemes s.items ++ rest) = .done s rest [] := by
  simp only [Specifier.canonical, Bool.and_eq_true] at h
  have hsizes : arraySizes (Item.lexemes (s.sizes.flatMap sizeItems) ++ rest) =
      .done s.sizes rest [] := by
    refine arraySizesWithin_done s.sizes rest hend _ ?_
    have := length_sizes s.sizes
    rw [List.length_append]
    omega
  rw [specifier_lexemes, List.append_assoc, List.cons_append, specifier,
    bind_done (typeRef_done h.1 _ _), bind_done (name_done h.2 _), bind_done hsizes]
  rfl

/-- A type starts with a word of its own class. -/
theorem typeRef_head {t : TypeRef} (h : t.canonical = true) :
    ∃ w tail, t.node.lexemes = .word w :: tail ∧
      (classify w = .builtinType ∨ classify w = .plain) := by
  induction t with
  | builtin w =>
    refine ⟨w, [], rfl, ?_⟩
    simp only [TypeRef.canonical, beq_iff_eq] at h
    revert h
    cases classify w <;> decide
  | named w =>
    refine ⟨w, [], rfl, ?_⟩
    simp only [TypeRef.canonical, beq_iff_eq] at h
    revert h
    cases classify w <;> decide
  | invalid cls w => cases h
  | array base size ih =>
    obtain ⟨w, tail, hl, hc⟩ := ih h
    refine ⟨w, tail ++ Item.lexemes (sizeItems size), ?_, hc⟩
    simp [TypeRef.node, Node.lexemes, Item.lexemes, hl]

theorem specifier_head {s : Specifier} (h : s.canonical = true) :
    ∃ w tail, Item.lexemes s.items = .word w :: tail ∧
      (classify w = .builtinType ∨ classify w = .plain) := by
  simp only [Specifier.canonical, Bool.and_eq_true] at h
  obtain ⟨w, tail, hl, hc⟩ := typeRef_head h.1
  exact ⟨w, _, by rw [specifier_lexemes, hl, List.cons_append], hc⟩

end Grammar

end ShaderSyntax
