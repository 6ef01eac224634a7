import ShaderSyntax.Proofs.Pointing

/-!
# How wide a mark is

The padding of a report is as wide as the characters before the token, and the marks are as many as
the bytes of the token on its line. So the marks end where the token does, but for the bytes that its
characters have behind their first ones. Only a string or an illegal token can have such characters.
-/
namespace ShaderSyntax

namespace Utf8

/-- The bytes of a piece behind its first. -/
def Piece.extra : Piece → Nat
  | .char c => c.utf8Size - 1
  | .stray _ => 0

/-- The number of characters and stray bytes. -/
def width (t : Text) : Nat :=
  (pieces t).length

/-- The number of bytes behind the first ones of the characters. -/
def surplus (t : Text) : Nat :=
  (pieces t).foldr (fun p n => p.extra + n) 0

variable {t : Text} {n : Nat}

theorem length_eq_width_add_surplus (t : Text) : t.length = width t + surplus t := by
  induction hn : t.length using Nat.strongRecOn generalizing t with
  | _ n ih =>
    subst hn
    cases t with
    | nil => rfl
    | cons b rest =>
      cases hc : char? (b :: rest) with
      | some c =>
        have hsize := c.utf8Size_pos
        have hle := utf8Size_le_length hc
        have hdrop : ((b :: rest).drop c.utf8Size).length = (b :: rest).length - c.utf8Size :=
          List.length_drop
        have hrest := ih _ (by omega) ((b :: rest).drop c.utf8Size) rfl
        simp only [width, surplus, pieces_of_char? hc, List.length_cons, List.foldr_cons,
          Piece.extra] at hrest hle hdrop ⊢
        omega
      | none =>
        have hrest := ih _ (Nat.lt_succ_self rest.length) rest rfl
        simp only [width, surplus, pieces_of_stray hc, List.length_cons, List.foldr_cons,
          Piece.extra] at hrest ⊢
        omega

theorem Piece.extra_eq_zero_iff (p : Piece) :
    p.extra = 0 ↔ ∀ c, p = .char c → c.utf8Size = 1 := by
  cases p with
  | char c =>
    have hsize := c.utf8Size_pos
    simp only [extra, char.injEq, forall_eq']
    omega
  | stray b => simp [extra]

theorem surplus_eq_zero_iff : surplus t = 0 ↔ ∀ c, .char c ∈ pieces t → c.utf8Size = 1 := by
  unfold surplus
  induction pieces t with
  | nil => simp
  | cons p ps ih =>
    rw [List.foldr_cons, Nat.add_eq_zero_iff, ih, p.extra_eq_zero_iff, ← forall_and]
    simp only [List.mem_cons, or_imp, eq_comm]

theorem Boundary.width_eq (h : Boundary t n) : width t = width (t.take n) + width (t.drop n) := by
  rw [width, h.pieces_eq, List.length_append]
  rfl

theorem width_pos (ht : t ≠ []) : 1 ≤ width t := by
  cases t with
  | nil => exact absurd rfl ht
  | cons b rest =>
    unfold width
    cases hc : char? (b :: rest) with
    | some c => simp [pieces_of_char? hc]
    | none => simp [pieces_of_stray hc]

/-- Of ASCII bytes each is a character. -/
theorem surplus_of_ascii (h : ∀ b ∈ t, b < 0x80) : surplus t = 0 := by
  induction t with
  | nil => rfl
  | cons b rest ih =>
    obtain ⟨hb, hrest⟩ := List.forall_mem_cons.mp h
    have hwidth : width (b :: rest) = width [b] + width rest := (boundary_one hb rest).width_eq
    have hone : 1 ≤ width [b] := width_pos (List.cons_ne_nil b [])
    have hzero := ih hrest
    have hlength := length_eq_width_add_surplus (b :: rest)
    have hlengthRest := length_eq_width_add_surplus rest
    rw [List.length_cons] at hlength
    omega

end Utf8

open Utf8

/-- A token that is neither a string nor illegal has ASCII bytes. -/
theorem Token.ReadAt.ascii {token : Token} {rest : Text} (h : token.ReadAt rest)
    (hstring : token.kind ≠ .string) (hlegal : token.kind ≠ .illegal) :
    ∀ b ∈ token.text, b < 0x80 := by
  cases hl : token.lexeme? with
  | none => simp [Token.text, hl]
  | some l =>
    have hkind : token.kind = l.kind := by simp only [Token.kind, hl]
    have htext : token.text = l.text := by simp only [Token.text, hl]
    rw [hkind] at hstring hlegal
    rw [htext]
    exact ((Lexeme.munched_first? (h.lexeme.trans hl)).longest hlegal).1.ascii hstring

namespace Text

variable {text before line after t : Text} {column : Nat}

/-- A line goes on up to the next line feed. -/
theorem IsLine.firstLine_drop (h : text.IsLine before line after) (hcolumn : column ≤ line.length) :
    firstLine (text.drop (before.length + column)) = line.drop column := by
  have hbare : ∀ b ∈ line.drop column, (b != Byte.lineFeed) = true := by
    intro b hb
    rw [bne_iff_ne]
    rintro rfl
    exact h.bare (List.mem_of_mem_drop hb)
  have hafter : after.firstLine = [] := by
    rcases h.stops with rfl | hstops
    · rfl
    · obtain ⟨more, rfl⟩ := List.head?_eq_some_iff.mp hstops
      rfl
  rw [h.parts, List.append_assoc, ← List.drop_drop, List.drop_left,
    List.drop_append_of_le_length hcolumn, firstLine, List.takeWhile_append_of_pos hbare]
  change line.drop column ++ after.firstLine = _
  rw [hafter, List.append_nil]

theorem firstLine_take (t : Text) (n : Nat) : firstLine (t.take n) = (firstLine t).take n :=
  (List.take_takeWhile ..).symm

end Text

/-- What is before a boundary in a text is as wide in a longer part of it. -/
theorem Utf8.Boundary.width_take {t : Text} {column : Nat} (h : Boundary t column) (n : Nat) :
    width (t.take (column + n)) = width (t.take column) + width ((t.drop column).take n) := by
  have hin : Boundary (t.take (column + n)) column := by
    refine h.of_isPrefix (List.take_prefix _ t) ?_
    rw [List.length_take]
    exact Nat.le_min.mpr ⟨Nat.le_add_right _ _, h.le_length⟩
  rw [hin.width_eq, List.take_take, Nat.min_eq_left (Nat.le_add_right _ _), List.drop_take,
    Nat.add_sub_cancel_left]

theorem Report.length_padding (line : Text) (column : Nat) :
    (padding line column).length = width (line.take column) :=
  List.length_map _

/-- The marks go as far as the part of the line that they are for, but for the surplus of this
part. -/
theorem Report.length_underline {line : Text} {column : Nat} (h : Boundary line column) (n : Nat) :
    (padding line column).length + caretCount line column n =
      max (width (line.take (column + n))) ((padding line column).length + 1) +
        surplus ((line.drop column).take n) := by
  have hpart := length_eq_width_add_surplus ((line.drop column).take n)
  rw [List.length_take, List.length_drop] at hpart
  have hsurplus : width ((line.drop column).take n) = 0 →
      surplus ((line.drop column).take n) = 0 := by
    intro hzero
    have hnil : (line.drop column).take n = [] := by
      by_contra hne
      have hpos := width_pos hne
      omega
    rw [hnil]
    rfl
  rw [h.width_take, length_padding, caretCount]
  omega

/-- The part of a token on the line where it starts. -/
def Token.shown (t : Token) : Text :=
  t.text.firstLine

namespace Diagnostic.Points

variable {text : Text} {e : Diagnostic}

theorem boundary (h : e.Points text) (hboundary : Boundary text e.span.start) :
    Boundary (text.lineAt e.span.start) (e.position.column - 1) := by
  obtain ⟨before, after, hline, hstart⟩ := h.place
  have hlength : ((text.lineAt e.span.start).take (e.position.column - 1)).length =
      e.position.column - 1 := List.length_take_of_le h.column_le
  rw [← hlength] at hstart
  rw [← hlength]
  exact hboundary.inLine hline (List.take_prefix _ _) hstart

/-- The part of the line that the marks are for is the part of the token that is shown. -/
theorem take_drop (h : e.Points text) (hplaced : e.token.text <+: text.drop e.span.start) :
    ((text.lineAt e.span.start).drop (e.position.column - 1)).take e.span.length =
      e.token.shown := by
  obtain ⟨before, after, hline, hstart⟩ := h.place
  have hlength : e.span.length = e.token.text.length := Nat.add_sub_cancel_left _ _
  rw [← hline.firstLine_drop h.column_le, ← hstart, ← Text.firstLine_take, hlength,
    ← List.prefix_iff_eq_take.mp hplaced]
  rfl

end Diagnostic.Points

/-- The token of a diagnostic is one of the tokens of the text. -/
theorem Document.exists_token {levels : Nat} {text : Text} {d : Document}
    (h : Document.parse levels text = .ok d) {e : Diagnostic} (he : e ∈ d.diagnostics) :
    ∃ index, e.token = (Source.ofText text).token index := by
  rw [Document.diagnostics, (Document.account h .value).1] at he
  obtain ⟨f, -, rfl⟩ := List.mem_map.mp he
  exact ⟨_, rfl⟩

/-- The marks of a report end where the offending token ends, or its line, whichever comes first,
but for the surplus of the part of the token that is shown: for each of its characters there are as
many marks as this has bytes. They are as wide as this part just if its characters have one byte each,
which is so for all tokens but strings and illegal ones. -/
theorem underline_width {levels : Nat} {text : Text} {d : Document}
    (h : Document.parse levels text = .ok d) : ∀ e ∈ d.diagnostics, ∀ colored,
      let line := text.lineAt e.span.start
      let column := e.position.column - 1
      line.isBlank = false → ∃ padding count,
        Report.Shows (Report.excerpt colored text e) colored line column padding count ∧
          (line.drop column).take e.span.length = e.token.shown ∧
          padding.length + count =
            max (width (line.take (column + e.span.length))) (padding.length + 1) +
              surplus e.token.shown ∧
          (surplus e.token.shown = 0 ↔ ∀ c, .char c ∈ pieces e.token.shown → c.utf8Size = 1) ∧
          (e.token.kind ≠ .string → e.token.kind ≠ .illegal → surplus e.token.shown = 0) := by
  intro e he colored line column hblank
  obtain ⟨index, htoken⟩ := Document.exists_token h he
  have hboundary : Boundary text e.span.start := by
    rw [Diagnostic.span, htoken]
    exact Source.token_boundary text index
  have hpoints : e.Points text := by
    refine Diagnostic.points_of_tells ?_ hboundary
    rw [Diagnostic.position, htoken]
    exact Source.token_tells text index
  have hplaced : e.token.text <+: text.drop e.span.start := by
    rw [Diagnostic.span, htoken]
    exact Source.forall_token (tokenize_tiled text).placed List.nil_prefix
  have hascii : e.token.kind ≠ .string → e.token.kind ≠ .illegal → ∀ b ∈ e.token.text, b < 0x80 := by
    rw [htoken]
    exact Source.forall_token (fun _ ht => (readAt_of_mem_tokenize ht).ascii)
      fun _ _ _ hb => absurd hb List.not_mem_nil
  have hshown := hpoints.take_drop hplaced
  refine ⟨_, _, Report.excerpt_shows colored hblank hpoints.column_le, hshown, ?_,
    surplus_eq_zero_iff, fun hstring hlegal => ?_⟩
  · rw [← hshown]
    exact Report.length_underline (hpoints.boundary hboundary) _
  · exact surplus_of_ascii fun b hb =>
      hascii hstring hlegal b (List.takeWhile_sublist _ |>.subset hb)

/-- A string of two lines, the first with a character of two bytes, and behind it an unknown word. -/
theorem underline_width_string :
    let text := Text.ofString "shader_type \"aé\nb\"; shader_type nope;"
    let above := Text.ofString "shader_type \"aé"
    let below := Text.ofString "b\"; shader_type nope;"
    ∃ d first last, Document.parse 9 text = .ok d ∧ d.diagnostics = [first, last] ∧
      first.token.kind = .string ∧ last.token.kind = .ident ∧
      (∃ padding count, Report.Shows (Report.excerpt false text first) false above 12 padding count ∧
        padding.length + count = max (width (above.take 19)) (padding.length + 1) + 1) ∧
      ∃ padding count, Report.Shows (Report.excerpt false text last) false below 16 padding count ∧
        padding.length + count = max (width (below.take 20)) (padding.length + 1) := by
  intro text above below
  let string : Token := ⟨some (.string (Text.ofString "\"aé\nb\"")), ⟨12, 1, 13⟩, []⟩
  let word : Token := ⟨some (.word (Text.ofString "nope")), ⟨33, 2, 17⟩, []⟩
  obtain ⟨d, hd, htokens⟩ := Document.exists_parse 9 text
    (fun d => d.diagnostics.map Diagnostic.token == [string, word]) (by decide +kernel)
  obtain ⟨first, others, hds, hfirst, hothers⟩ := List.map_eq_cons_iff.mp (eq_of_beq htokens)
  obtain ⟨last, rfl, hlast⟩ := List.map_eq_singleton_iff.mp hothers
  have hfirstPlace : text.lineAt first.span.start = above ∧ first.position.column - 1 = 12 ∧
      first.span.length = 7 := by
    rw [Diagnostic.span, Diagnostic.position, hfirst]
    decide +kernel
  have hlastPlace : text.lineAt last.span.start = below ∧ last.position.column - 1 = 16 ∧
      last.span.length = 4 := by
    rw [Diagnostic.span, Diagnostic.position, hlast]
    decide +kernel
  have hfirstMarks := underline_width hd first (by simp [hds]) false
  have hlastMarks := underline_width hd last (by simp [hds]) false
  dsimp only at hfirstMarks hlastMarks
  rw [hfirstPlace.1, hfirstPlace.2.1, hfirstPlace.2.2, hfirst] at hfirstMarks
  rw [hlastPlace.1, hlastPlace.2.1, hlastPlace.2.2, hlast] at hlastMarks
  obtain ⟨padding, count, hshows, -, hwidth, -, -⟩ := hfirstMarks (by decide +kernel)
  obtain ⟨padding', count', hshows', -, hwidth', -, hascii⟩ := hlastMarks (by decide +kernel)
  have hsurplus : surplus string.shown = 1 := by decide +kernel
  rw [hsurplus] at hwidth
  rw [hascii (by decide) (by decide)] at hwidth'
  exact ⟨d, first, last, hd, hds, by rw [hfirst]; rfl, by rw [hlast]; decide,
    ⟨padding, count, hshows, hwidth⟩, padding', count', hshows', hwidth'⟩

/-- The text is one character that starts no token. It has two marks. -/
theorem character_with_two_marks :
    let text := Text.ofString "é"
    ∃ d e, Document.parse 1 text = .ok d ∧ d.diagnostics = [e] ∧ e.span = ⟨0, text.length⟩ ∧
      Report.Shows (Report.excerpt false text e) false text 0 [] 2 ∧ width text = 1 := by
  intro text
  obtain ⟨d, hd, hreports⟩ := Document.exists_parse 1 text
    (fun d => d.diagnostics.map (fun e => (e.span, Report.excerpt false text e)) ==
      [(⟨0, text.length⟩, Text.ofString "  é\n  ^^\n")]) (by decide +kernel)
  obtain ⟨e, he, hreport⟩ := List.map_eq_singleton_iff.mp (eq_of_beq hreports)
  obtain ⟨hspan, hshown⟩ := Prod.mk.inj hreport
  exact ⟨d, e, hd, he, hspan, ⟨hshown.trans (by decide), .nil, by decide, by decide⟩,
    by decide +kernel⟩

end ShaderSyntax
