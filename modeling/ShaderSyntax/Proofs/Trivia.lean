import ShaderSyntax.Proofs.Scanning

/-!
# Blanks and comments

What may stand between two tokens, said without the readers: a blank byte, a line break that a
backslash joins to the next line, or a comment. A line comment runs up to the first line feed that
no backslash escapes, a block comment through the first closing mark, and either of them to the end
of the text where there is none. The readers take exactly such pieces.
-/
namespace ShaderSyntax.Trivia

/-- A blank byte, or a joined line break. -/
def IsBlank (t : Text) : Prop :=
  (∃ b ∈ [Byte.space, Byte.tab, Byte.lineFeed, Byte.carriageReturn, 12, 11], t = [b]) ∨
    t = [Byte.backslash, Byte.lineFeed] ∨
    t = [Byte.backslash, Byte.carriageReturn, Byte.lineFeed]

/-- A line feed after this text is escaped: a backslash stands last, or last before a carriage
return. -/
def Escapes (before : Text) : Prop :=
  [Byte.backslash] <:+ before ∨ [Byte.backslash, Byte.carriageReturn] <:+ before

/-- The body of a line comment that started with `before`: every line feed in it is escaped, and
after it the text ends or comes to a line feed that is not. -/
structure IsLineBody (before body after : Text) : Prop where
  escaped : ∀ u v, body = u ++ Byte.lineFeed :: v → Escapes (before ++ u)
  stops : after = [] ∨ after.head? = some Byte.lineFeed ∧ ¬ Escapes (before ++ body)

def IsLineComment (t after : Text) : Prop :=
  ∃ body, t = Byte.slash :: Byte.slash :: body ∧ IsLineBody [] body after

def closingMark : Text :=
  [Byte.star, Byte.slash]

/-- A slash, a star and a body that ends with the first closing mark, or has none and ends with the
text. -/
def IsBlockComment (t after : Text) : Prop :=
  ∃ body, t = Byte.slash :: Byte.star :: body ∧
    ((∃ inner, body = inner ++ closingMark ∧ ¬ closingMark <:+: inner ++ [Byte.star]) ∨
      after = [] ∧ ¬ closingMark <:+: body)

/-- A comment in a text that goes on with `after`. -/
def IsComment (t after : Text) : Prop :=
  IsLineComment t after ∨ IsBlockComment t after

theorem IsComment.length_pos {t after : Text} (h : IsComment t after) : 0 < t.length := by
  rcases h with ⟨body, rfl, -⟩ | ⟨body, rfl, -⟩ <;> exact Nat.succ_pos _

/-- The piece is what it says, in a text that goes on with `after`. -/
def Stands : Trivia → Text → Prop
  | blank t, _ => IsBlank t
  | comment t, after => IsComment t after

theorem isBlank_of_isBlankByte {b : UInt8} (h : isBlankByte b = true) : IsBlank [b] := by
  have hb : b ∈ [Byte.space, Byte.tab, Byte.lineFeed, Byte.carriageReturn, 12, 11] := by
    simp only [isBlankByte, Bool.or_eq_true, beq_iff_eq, Bool.and_eq_true, decide_eq_true_eq] at h
    simp only [List.mem_cons, List.not_mem_nil, or_false]
    grind
  exact .inl ⟨b, hb, rfl⟩

theorem continuation?_stands {rest : Text} {piece : Trivia} (h : continuation? rest = some piece)
    (after : Text) : piece.Stands after := by
  unfold continuation? at h
  split at h
  · cases h
    exact .inr (.inl rfl)
  · split at h
    · cases h
      exact .inr (.inr rfl)
    · cases h

section LineComments

theorem snoc_suffix_snoc (s before : Text) (x b : UInt8) :
    s ++ [x] <:+ before ++ [b] ↔ x = b ∧ s <:+ before := by
  rw [← List.reverse_prefix, List.reverse_concat, List.reverse_concat, List.cons_prefix_cons,
    List.reverse_prefix]

theorem backslash_suffix_snoc {before : Text} {b : UInt8} :
    [Byte.backslash] <:+ before ++ [b] ↔ Byte.backslash = b := by
  have h := snoc_suffix_snoc [] before Byte.backslash b
  simpa only [List.nil_append, List.nil_suffix, and_true] using h

theorem backslash_return_suffix_snoc {before : Text} {b : UInt8} :
    [Byte.backslash, Byte.carriageReturn] <:+ before ++ [b] ↔
      Byte.carriageReturn = b ∧ [Byte.backslash] <:+ before :=
  snoc_suffix_snoc [Byte.backslash] before Byte.carriageReturn b

/-- What the reader of a line comment knows of the text before it: whether the next byte is escaped.
After an escaped carriage return that is known of a line feed only. -/
def Tracks (escaped : Bool) (before t : Text) : Prop :=
  escaped = true ↔ [Byte.backslash] <:+ before ∨
    [Byte.backslash, Byte.carriageReturn] <:+ before ∧ t.head? = some Byte.lineFeed

theorem Tracks.escapes {escaped : Bool} {before rest : Text}
    (h : Tracks escaped before (Byte.lineFeed :: rest)) : escaped = true ↔ Escapes before := by
  simpa [Tracks, Escapes] using h

theorem Tracks.backslash (before rest : Text) : Tracks true (before ++ [Byte.backslash]) rest := by
  simp [Tracks]

/-- An escaped byte escapes nothing itself, but a carriage return hands the escape on. -/
theorem Tracks.escaped {before rest : Text} {b : UInt8} (h : Tracks true before (b :: rest))
    (hb : b ≠ Byte.backslash) :
    Tracks (b = Byte.carriageReturn ∧ rest.head? = some Byte.lineFeed) (before ++ [b]) rest := by
  simp only [Tracks, List.head?_cons, Option.some.injEq, true_iff] at h
  simp only [Tracks, decide_eq_true_eq, backslash_suffix_snoc, backslash_return_suffix_snoc]
  constructor
  · rintro ⟨rfl, hr⟩
    rcases h with h | ⟨-, h⟩
    · exact .inr ⟨⟨rfl, h⟩, hr⟩
    · exact absurd h (by decide)
  · rintro (h' | ⟨⟨h', -⟩, hr⟩)
    · exact absurd h'.symm hb
    · exact ⟨h'.symm, hr⟩

theorem Tracks.plain {before rest : Text} {b : UInt8} (h : Tracks false before (b :: rest))
    (hb : b ≠ Byte.backslash) : Tracks false (before ++ [b]) rest := by
  simp only [Tracks, Bool.false_eq_true, false_iff, not_or, not_and] at h
  simp only [Tracks, Bool.false_eq_true, false_iff, backslash_suffix_snoc,
    backslash_return_suffix_snoc]
  rintro (h' | ⟨⟨-, h'⟩, -⟩)
  · exact hb h'.symm
  · exact h.1 h'

theorem IsLineBody.cons {before body after : Text} {b : UInt8}
    (hb : b = Byte.lineFeed → Escapes before) (h : IsLineBody (before ++ [b]) body after) :
    IsLineBody before (b :: body) after := by
  constructor
  · intro u v hu
    cases u with
    | nil =>
      injection hu with hu
      rw [List.append_nil]
      exact hb hu
    | cons c u =>
      injection hu with hc hu
      subst hc
      simpa using h.escaped u v hu
  · simpa using h.stops

/-- In what a line comment takes every line feed is escaped, and where it stops none is. -/
theorem isLineBody_lineComment (escaped : Bool) (t before : Text) (h : Tracks escaped before t) :
    IsLineBody before (lineComment escaped t) (t.drop (lineComment escaped t).length) := by
  fun_induction lineComment escaped t generalizing before with
  | case1 => exact ⟨by simp, .inl rfl⟩
  | case2 escaped rest ih =>
    exact .cons (fun hb => absurd hb (by decide)) (ih _ (.backslash before rest))
  | case3 b rest hb ih =>
    refine .cons ?_ (ih _ (h.escaped hb))
    rintro rfl
    exact h.escapes.mp rfl
  | case4 escaped rest he _ =>
    refine ⟨by simp, .inr ⟨rfl, ?_⟩⟩
    rw [List.append_nil, ← h.escapes]
    exact he
  | case5 escaped b rest hb he hl ih =>
    obtain rfl : escaped = false := by simpa using he
    exact .cons (fun hb' => absurd hb' hl) (ih _ (h.plain hb))

end LineComments

section BlockComments

theorem not_closingMark_cons {b : UInt8} {body : Text}
    (hb : ¬ (b = Byte.star ∧ body.head? = some Byte.slash)) (h : ¬ closingMark <:+: body) :
    ¬ closingMark <:+: b :: body := by
  rw [List.infix_cons_iff, not_or]
  refine ⟨?_, h⟩
  rintro ⟨more, he⟩
  injection he with hs hm
  exact hb ⟨hs.symm, by rw [← hm]; rfl⟩

/-- A block comment takes the first closing mark, or all there is. -/
theorem blockComment_closes (t : Text) :
    (∃ inner, blockComment t = inner ++ closingMark ∧ ¬ closingMark <:+: inner ++ [Byte.star]) ∨
      blockComment t = t ∧ ¬ closingMark <:+: t := by
  fun_induction blockComment t with
  | case1 => exact .inr ⟨rfl, by decide⟩
  | case2 => exact .inl ⟨[], rfl, by decide⟩
  | case3 b rest hb ih =>
    rcases ih with ⟨inner, he, hn⟩ | ⟨he, hn⟩
    · refine .inl ⟨b :: inner, by rw [he]; rfl, not_closingMark_cons ?_ hn⟩
      -- The head of the rest is the head of what the comment takes of it.
      have hp : inner ++ closingMark <+: rest := he ▸ blockComment_isPrefix rest
      obtain ⟨more, rfl⟩ := hp
      cases inner with
      | nil => exact fun h => absurd h.2 (by decide)
      | cons c inner => simpa using hb
    · exact .inr ⟨by rw [he], not_closingMark_cons hb hn⟩

end BlockComments

theorem comment?_stands {rest : Text} {piece : Trivia} (h : comment? rest = some piece) :
    piece.Stands ((Byte.slash :: rest).drop piece.text.length) := by
  unfold comment? at h
  split at h
  · cases h
  · next b rest =>
    split at h
    · next hb =>
      subst hb
      cases h
      refine .inl ⟨_, rfl, ?_⟩
      exact isLineBody_lineComment false rest [] (by simp [Tracks])
    · split at h
      · next hb =>
        subst hb
        cases h
        refine .inr ⟨_, rfl, ?_⟩
        rcases blockComment_closes rest with hc | ⟨he, hn⟩
        · exact .inl hc
        · right
          simp only [text, he, List.length_cons, List.drop_succ_cons, List.drop_length]
          exact ⟨trivial, hn⟩
      · cases h

/-- A piece of trivia stands in the text it was read from. -/
theorem first?_stands {t : Text} {piece : Trivia} (h : first? t = some piece) :
    piece.Stands (t.drop piece.text.length) := by
  unfold first? at h
  split at h
  · cases h
  · next b rest =>
    split at h
    · next hb =>
      cases h
      exact isBlank_of_isBlankByte hb
    · split at h
      · exact continuation?_stands h _
      · split at h
        · next hb =>
          subst hb
          exact comment?_stands h
        · cases h

end ShaderSyntax.Trivia
