import Mathlib.Data.List.Forall2
import ShaderSyntax.Command.Report
import ShaderSyntax.Proofs.Munching
import ShaderSyntax.Proofs.Positions
import ShaderSyntax.Proofs.Runes
import ShaderSyntax.Proofs.Spelling

/-!
# What a report points at

A diagnostic tells a line and a column, and a report looks the line up again by the offset. Both
come to the same line, the column lies within it, and the marks stand under the token: no token
starts within a character, so the padding is one character wide for every character before it.
-/
namespace ShaderSyntax

namespace Text

/-- The text with one of its lines singled out. -/
structure IsLine (text before line after : Text) : Prop where
  parts : text = before ++ line ++ after
  bare : Byte.lineFeed ∉ line
  starts : before = [] ∨ before.getLast? = some Byte.lineFeed
  stops : after = [] ∨ after.head? = some Byte.lineFeed

variable {text before line after t : Text} {offset : Nat}

theorem exists_firstLine (t : Text) : ∃ after, t = t.firstLine ++ after ∧
    Byte.lineFeed ∉ t.firstLine ∧ (after = [] ∨ after.head? = some Byte.lineFeed) := by
  induction t with
  | nil => exact ⟨[], rfl, List.not_mem_nil, .inl rfl⟩
  | cons b t ih =>
    by_cases hb : b = Byte.lineFeed
    · subst hb
      exact ⟨Byte.lineFeed :: t, by simp [firstLine], by simp [firstLine], .inr rfl⟩
    · obtain ⟨after, hparts, hbare, hstops⟩ := ih
      have hfirst : firstLine (b :: t) = b :: firstLine t := by simp [firstLine, hb]
      refine ⟨after, ?_, ?_, hstops⟩
      · rw [hfirst, List.cons_append, ← hparts]
      · simp [hfirst, Ne.symm hb, hbare]

theorem exists_lastLine (t : Text) : ∃ before, t = before ++ t.lastLine ∧
    Byte.lineFeed ∉ t.lastLine ∧ (before = [] ∨ before.getLast? = some Byte.lineFeed) := by
  obtain ⟨after, hparts, hbare, hstops⟩ := exists_firstLine t.reverse
  have hlast : t.lastLine = (firstLine t.reverse).reverse := rfl
  have hreverse := congrArg List.reverse hparts
  rw [List.reverse_reverse, List.reverse_append, ← hlast] at hreverse
  refine ⟨after.reverse, hreverse, ?_, by simpa using hstops⟩
  rwa [hlast, List.mem_reverse]

/-- The line that holds an offset, with the offset in it. -/
theorem exists_isLine (text : Text) (offset : Nat) : ∃ before after,
    text.IsLine before (text.lineAt offset) after ∧
      text.take offset = before ++ lastLine (text.take offset) := by
  obtain ⟨before, hbefore, hlast, hstarts⟩ := exists_lastLine (text.take offset)
  obtain ⟨after, hafter, hfirst, hstops⟩ := exists_firstLine (text.drop offset)
  refine ⟨before, after, ⟨?_, ?_, hstarts, hstops⟩, hbefore⟩
  · rw [lineAt, ← List.append_assoc, ← hbefore, List.append_assoc, ← hafter,
      List.take_append_drop]
  · rw [lineAt, List.mem_append, not_or]
    exact ⟨hlast, hfirst⟩

theorem length_split (separator : UInt8) (t : Text) :
    (split separator t).length = t.count separator + 1 := by
  induction t with
  | nil => rfl
  | cons b t ih =>
    by_cases hb : b = separator
    · simp [split, hb, ih]
    · obtain ⟨first, others, hs⟩ := List.exists_cons_of_ne_nil (split_ne_nil separator t)
      rw [hs] at ih
      simpa [split, hb, hs] using ih

/-- There are as many lines before a line as there are line feeds. -/
theorem IsLine.split (h : text.IsLine before line after) :
    (text.split Byte.lineFeed)[before.count Byte.lineFeed]? = some line := by
  have hline : ∃ others, (line ++ after).split Byte.lineFeed = line :: others := by
    rcases h.stops with rfl | hstops
    · exact ⟨[], by rw [List.append_nil, split_of_not_mem h.bare]⟩
    · obtain ⟨more, rfl⟩ := List.head?_eq_some_iff.mp hstops
      exact ⟨_, split_append_cons h.bare more⟩
  obtain ⟨others, hline⟩ := hline
  rw [h.parts, List.append_assoc]
  rcases h.starts with rfl | hstarts
  · rw [List.nil_append, hline]
    rfl
  · obtain ⟨above, rfl⟩ := List.getLast?_eq_some_iff.mp hstarts
    have hlength := length_split Byte.lineFeed above
    rw [List.append_assoc, List.singleton_append, split_append, hline, List.count_append,
      List.count_singleton_self, ← hlength, List.getElem?_append_right (Nat.le_refl _),
      Nat.sub_self]
    rfl

/-- A line starts where the last line feed before an offset in it says. -/
theorem IsLine.lineStart (h : text.IsLine before line after) (ht : t <+: line)
    (hoffset : offset = before.length + t.length) : text.lineStart offset = before.length := by
  obtain ⟨more, rfl⟩ := ht
  unfold Text.lineStart
  rw [Nat.findGreatest_eq_iff]
  refine ⟨by omega, ?_, ?_⟩
  · intro hne
    have hlast := h.starts.resolve_left fun hnil => hne (by simp [hnil])
    rw [h.parts, List.append_assoc, List.getElem?_append_left (by omega),
      ← List.getLast?_eq_getElem?, hlast]
  · intro start hlt hle hfeed
    have hindex : start - 1 - before.length < t.length := by omega
    rw [h.parts, List.append_assoc, List.append_assoc,
      List.getElem?_append_right (by omega), List.getElem?_append_left hindex] at hfeed
    exact h.bare (List.mem_append_left more (List.mem_of_getElem? hfeed))

end Text

namespace Utf8

variable {text before line after t : Text} {offset : Nat}

/-- Lines divide a text between characters. So what is a boundary in the text is one in its line. -/
theorem Boundary.inLine (h : Boundary text offset) (hline : text.IsLine before line after)
    (ht : t <+: line) (hoffset : offset = before.length + t.length) : Boundary line t.length := by
  have hstart : Boundary text before.length := by
    rcases hline.starts with rfl | hstarts
    · exact .start text
    · obtain ⟨above, rfl⟩ := List.getLast?_eq_some_iff.mp hstarts
      rw [hline.parts, List.append_assoc, List.append_assoc, List.length_append]
      exact boundary_concat (by decide) above (line ++ after)
  have hrest := hstart.drop h (by omega)
  rw [hline.parts, List.append_assoc, List.drop_left, hoffset, Nat.add_sub_cancel_left] at hrest
  exact hrest.of_isPrefix (List.prefix_append line after) ht.length_le

end Utf8

section Boundaries

open Utf8

variable {text rest t : Text} {start stop : Nat} {cs : List Comment} {k : TokenKind}

theorem Trivia.IsBlank.boundary (h : Trivia.IsBlank t) (after : Text) :
    Boundary (t ++ after) t.length := by
  rcases h with ⟨b, hb, rfl⟩ | rfl | rfl
  · have hlt : b < 0x80 := by
      simp only [List.mem_cons, List.not_mem_nil, or_false] at hb
      rcases hb with rfl | rfl | rfl | rfl | rfl | rfl <;> decide
    exact boundary_one hlt after
  · exact boundary_concat (b := Byte.lineFeed) (by decide) [Byte.backslash] after
  · exact boundary_concat (b := Byte.lineFeed) (by decide) [Byte.backslash, Byte.carriageReturn]
      after

/-- A comment ends with its closing mark, before a line feed, or with the text. -/
theorem Trivia.IsComment.boundary {after : Text} (h : Trivia.IsComment t after) :
    Boundary (t ++ after) t.length := by
  have hstop : after = [] ∨ after.head? = some Byte.lineFeed →
      Boundary (t ++ after) t.length := by
    intro hafter
    apply boundary_of_head
    · simp
    · rw [List.drop_left]
      rintro b hb
      rcases hafter with rfl | hfeed
      · cases hb
      · obtain rfl := Option.some.inj (hb.symm.trans hfeed)
        decide
  rcases h with ⟨body, rfl, hbody⟩ | ⟨body, rfl, hclosed | ⟨hafter, -⟩⟩
  · exact hstop (hbody.stops.imp_right And.left)
  · obtain ⟨inner, rfl, -⟩ := hclosed
    have hlast := boundary_concat (b := Byte.slash) (by decide)
      (Byte.slash :: Byte.star :: (inner ++ [Byte.star])) after
    simpa [Trivia.closingMark] using hlast
  · exact hstop (.inl hafter)

theorem Gap.boundary (h : Gap text start cs stop) (hb : Boundary text start) :
    Boundary text stop := by
  induction h with
  | nil => exact hb
  | blank form placed more ih =>
    obtain ⟨after, hafter⟩ := placed
    exact ih (hb.trans (hafter ▸ form.boundary after))
  | @comment start stop cs c starts placed form more ih =>
    obtain ⟨after, hafter⟩ := placed
    have hstop : c.span.stop = start + c.text.length := by
      rw [← starts]
      rfl
    have hrest : text.drop c.span.stop = after := by
      rw [hstop, ← List.drop_drop, ← hafter, List.drop_left]
    rw [hrest] at form
    rw [hstop] at ih
    exact ih (hb.trans (hafter ▸ form.boundary))

/-- Only in strings can a legal token hold other than ASCII bytes. -/
theorem Lexical.ascii (h : Lexical k t) (hk : k ≠ .string) : ∀ b ∈ t, b < 0x80 := by
  have hletter : ∀ b, Byte.isLetter b = true → b < 0x80 := by grind [Byte.isLetter]
  have hdigit : ∀ b, Byte.isDigit b = true → b < 0x80 := by grind [Byte.isDigit]
  have hword : ∀ {t}, IsWord t → ∀ b ∈ t, b < 0x80 := by
    rintro _ ⟨b, rest, rfl, hb, hrest⟩
    refine List.forall_mem_cons.mpr ⟨hletter b hb, fun c hc => ?_⟩
    exact (hrest c hc).elim (hletter c) (hdigit c)
  have hdigits : ∀ {t}, IsDigits t → ∀ b ∈ t, b < 0x80 := fun ht b hb => hdigit b (ht.2 b hb)
  cases h with
  | ident word other => exact hword word
  | bool value => exact hword (isWord_of_mem value)
  | int digits => exact hdigits digits
  | float decimal =>
    obtain ⟨whole, fraction, rfl, hwhole, hfraction⟩ := decimal
    refine List.forall_mem_append.mpr ⟨hdigits hwhole, ?_⟩
    exact List.forall_mem_cons.mpr ⟨by decide, hdigits hfraction⟩
  | string quoted => exact absurd rfl hk
  | punct p => cases p <;> decide +kernel

/-- A legal token ends with an ASCII byte. -/
theorem Lexical.exists_last (h : Lexical k t) : ∃ init b, t = init ++ [b] ∧ b < 0x80 := by
  by_cases hk : k = .string
  · subst hk
    cases h with
    | string quoted =>
      obtain ⟨inner, rfl, -⟩ := quoted
      exact ⟨Byte.quote :: inner, Byte.quote, rfl, by decide⟩
  · exact ⟨t.dropLast, t.getLast h.ne_nil, (List.dropLast_append_getLast h.ne_nil).symm,
      h.ascii hk _ (List.getLast_mem h.ne_nil)⟩

theorem Munched.boundary (h : Munched rest k t) (hp : t <+: rest) : Boundary rest t.length := by
  by_cases hlegal : k = .illegal
  · by_cases hquote : rest.head? = some Byte.quote
    · obtain ⟨more, rfl⟩ := List.head?_eq_some_iff.mp hquote
      rw [(h.quote hlegal hquote).1]
      exact boundary_one (by decide) more
    · by_cases hchar : ∃ c, Text.ofChar c <+: rest
      · obtain ⟨c, hc⟩ := hchar
        rw [h.char hlegal hquote c hc, Text.length_ofChar]
        exact .char (char?_eq_some_iff.mpr hc) (.start _)
      · have hnone := not_exists.mp hchar
        obtain ⟨b, hb, rfl⟩ := h.byte hlegal hquote hnone
        obtain ⟨more, rfl⟩ := List.head?_eq_some_iff.mp hb
        exact .stray (char?_eq_none_iff.mpr hnone) (.start more)
  · obtain ⟨init, b, rfl, hb⟩ := (h.longest hlegal).1.exists_last
    obtain ⟨more, rfl⟩ := hp
    simpa using boundary_concat hb init more

theorem Token.ReadAt.boundary {token : Token} (h : token.ReadAt rest) (hp : token.text <+: rest) :
    Boundary rest token.text.length := by
  cases hl : token.lexeme? with
  | none =>
    have htext : token.text = [] := by simp only [Token.text, hl]
    rw [htext]
    exact .start rest
  | some l =>
    have htext : token.text = l.text := by simp only [Token.text, hl]
    rw [htext] at hp ⊢
    exact (Lexeme.munched_first? (h.lexeme.trans hl)).boundary hp

/-- From one token to the next the text is read between characters. -/
theorem Tiled.boundary {tokens : List Token} (h : Tiled text start tokens)
    (hread : ∀ t ∈ tokens, t.ReadAt (text.drop t.span.start)) (hb : Boundary text start) :
    ∀ t ∈ tokens, Boundary text t.span.start := by
  induction tokens generalizing start with
  | nil => simp
  | cons token rest ih =>
    obtain ⟨hgap, hplaced, hrest⟩ := h
    obtain ⟨hfirst, hothers⟩ := List.forall_mem_cons.mp hread
    have hstart := hgap.boundary hb
    have hstop : Boundary text token.span.stop := hstart.trans (hfirst.boundary hplaced)
    exact List.forall_mem_cons.mpr ⟨hstart, ih hrest hothers hstop⟩

end Boundaries

/-- No token starts within a character. -/
theorem tokenize_boundary (text : Text) :
    ∀ t ∈ tokenize text, Utf8.Boundary text t.span.start :=
  Tiled.boundary (tokenize_tiled text) (fun _ ht => readAt_of_mem_tokenize ht) (.start text)

theorem Source.token_boundary (text : Text) (index : Nat) :
    Utf8.Boundary text ((Source.ofText text).token index).span.start :=
  Source.forall_token (tokenize_boundary text) (.start text)

/-- What stands in the padding under a piece of the line. -/
inductive Report.Underlines : Utf8.Piece → UInt8 → Prop where
  | tab : Underlines (.char '\t') Byte.tab
  | other {p : Utf8.Piece} : p ≠ .char '\t' → Underlines p Byte.space

/-- The report shows the line, and below it marks behind a padding that is as wide as the line
before the column. No mark but the first stands behind the line. -/
structure Report.Shows (shown : Text) (colored : Bool) (line : Text) (column : Nat)
    (padding : Text) (count : Nat) : Prop where
  shown : shown = Text.ofString "  " ++ line ++ Text.ofString "\n  " ++ padding ++
    Report.painted colored .caret (List.replicate count 94) ++ [Byte.lineFeed]
  padding : List.Forall₂ Report.Underlines (Utf8.pieces (line.take column)) padding
  count_pos : 1 ≤ count
  count_le : count ≤ max (line.length - column) 1

/-- The diagnostic tells the line and the column of its token, and the report shows that line with
marks under the token. -/
structure Diagnostic.Points (text : Text) (e : Diagnostic) : Prop where
  start_le : e.span.start ≤ text.length
  line_pos : 1 ≤ e.position.line
  column_pos : 1 ≤ e.position.column
  line : (text.split Byte.lineFeed)[e.position.line - 1]? = some (text.lineAt e.span.start)
  column_le : e.position.column - 1 ≤ (text.lineAt e.span.start).length
  /-- The line stands in the text where the offset and the column say. -/
  place : ∃ before after, text.IsLine before (text.lineAt e.span.start) after ∧
    e.span.start = before.length + (e.position.column - 1)
  /-- The offset divides the line between two characters. -/
  pieces : Utf8.pieces (text.lineAt e.span.start) =
    Utf8.pieces ((text.lineAt e.span.start).take (e.position.column - 1)) ++
      Utf8.pieces ((text.lineAt e.span.start).drop (e.position.column - 1))
  blank : ∀ colored, (text.lineAt e.span.start).isBlank = true →
    Report.excerpt colored text e = []
  shown : ∀ colored, (text.lineAt e.span.start).isBlank = false → ∃ padding count,
    Report.Shows (Report.excerpt colored text e) colored (text.lineAt e.span.start)
      (e.position.column - 1) padding count

theorem Report.padding_underlines (line : Text) (column : Nat) :
    List.Forall₂ Report.Underlines (Utf8.pieces (line.take column))
      (Report.padding line column) := by
  unfold Report.padding
  induction Utf8.pieces (line.take column) with
  | nil => exact .nil
  | cons p pieces ih =>
    refine .cons ?_ ih
    by_cases hp : p = .char '\t'
    · rw [hp]
      exact .tab
    · rw [Report.padPiece, if_neg hp]
      exact .other hp

/-- A column within the line is taken as it is. -/
theorem Report.excerpt_shows {text : Text} {e : Diagnostic} (colored : Bool)
    (hblank : (text.lineAt e.span.start).isBlank = false)
    (hcolumn : e.position.column - 1 ≤ (text.lineAt e.span.start).length) :
    Report.Shows (Report.excerpt colored text e) colored (text.lineAt e.span.start)
      (e.position.column - 1) (padding (text.lineAt e.span.start) (e.position.column - 1))
      (caretCount (text.lineAt e.span.start) (e.position.column - 1) e.span.length) := by
  refine ⟨?_, padding_underlines _ _, Nat.le_max_right _ _, ?_⟩
  · simp only [Report.excerpt, hblank, Bool.false_eq_true, if_false, Nat.min_eq_left hcolumn]
  · unfold Report.caretCount
    omega

theorem Diagnostic.points_of_tells {text : Text} {e : Diagnostic} (htells : e.position.Tells text)
    (hboundary : Utf8.Boundary text e.span.start) : e.Points text := by
  have hle := hboundary.le_length
  obtain ⟨before, after, hline, htake⟩ := Text.exists_isLine text e.span.start
  -- The part of the line before the offset.
  have hpart : Text.lastLine (text.take e.span.start) <+: text.lineAt e.span.start :=
    List.prefix_append _ _
  have hstart : e.span.start =
      before.length + (Text.lastLine (text.take e.span.start)).length := by
    rw [← List.length_append, ← htake, List.length_take, Nat.min_eq_left hle]
  have hcount : e.position.line - 1 = before.count Byte.lineFeed := by
    have hlast := fun h => hline.bare (hpart.subset h)
    rw [htells.line, Nat.add_sub_cancel_left]
    change (text.take e.span.start).count Byte.lineFeed = _
    rw [htake, List.count_append, List.count_eq_zero.mpr hlast, Nat.add_zero]
  have hcolumn : e.position.column - 1 = (Text.lastLine (text.take e.span.start)).length := by
    have hlineStart := hline.lineStart hpart hstart
    rw [htells.column, Nat.add_sub_cancel]
    change e.span.start - text.lineStart e.span.start = _
    omega
  have hcolumnLe : e.position.column - 1 ≤ (text.lineAt e.span.start).length :=
    hcolumn ▸ hpart.length_le
  constructor
  · exact hle
  · rw [htells.line]
    exact Nat.le_add_right 1 _
  · rw [htells.column]
    exact Nat.le_add_left 1 _
  · rw [hcount]
    exact hline.split
  · exact hcolumnLe
  · exact ⟨before, after, hline, by rw [hcolumn]; exact hstart⟩
  · rw [hcolumn]
    exact (hboundary.inLine hline hpart hstart).pieces_eq
  · intro colored hblank
    simp only [Report.excerpt, hblank, if_true]
  · exact fun colored hblank => ⟨_, _, Report.excerpt_shows colored hblank hcolumnLe⟩

/-- Every diagnostic of a document points at its token. -/
theorem diagnostics_point {levels : Nat} {text : Text} {d : Document}
    (h : Document.parse levels text = .ok d) : ∀ e ∈ d.diagnostics, e.Points text := by
  intro e he
  rw [Document.diagnostics, (Document.account h .value).1] at he
  obtain ⟨f, -, rfl⟩ := List.mem_map.mp he
  exact Diagnostic.points_of_tells (Source.token_tells text _) (Source.token_boundary text _)

/-- A semicolon behind a string of two lines, the second with a tab, a character of two bytes and a
stray byte, and the end of the text behind a last line feed. -/
theorem diagnostics_point_stray_byte :
    let line := Text.ofString "\té" ++ [0xE2] ++ Text.ofString "b\" ;\r"
    let text := Text.ofString "#include \"a\n" ++ line ++ Text.ofString "\n/* \n */ int\n"
    ∃ d first last, Document.parse 1 text = .ok d ∧ d.diagnostics = [first, last] ∧
      first.position = ⟨19, 2, 8⟩ ∧ first.Points text ∧
      Report.excerpt false text first =
        Text.ofString "  " ++ line ++ Text.ofString "\n  \t     ^\n" ∧
      last.position = ⟨34, 5, 1⟩ ∧ last.Points text ∧ Report.excerpt false text last = [] := by
  intro line text
  obtain ⟨d, hd, hreports⟩ := Document.exists_parse 1 text
    (fun d => d.diagnostics.map (fun e => (e.position, Report.excerpt false text e)) ==
      [(⟨19, 2, 8⟩, Text.ofString "  " ++ line ++ Text.ofString "\n  \t     ^\n"),
        (⟨34, 5, 1⟩, [])]) (by decide +kernel)
  obtain ⟨first, others, hfirst, hreport, hothers⟩ := List.map_eq_cons_iff.mp (eq_of_beq hreports)
  obtain ⟨last, rfl, hlast⟩ := List.map_eq_singleton_iff.mp hothers
  obtain ⟨hplace, hshown⟩ := Prod.mk.inj hreport
  obtain ⟨hplace', hshown'⟩ := Prod.mk.inj hlast
  have hpoint := diagnostics_point hd
  exact ⟨d, first, last, hd, hfirst, hplace, hpoint first (by simp [hfirst]), hshown, hplace',
    hpoint last (by simp [hfirst]), hshown'⟩

end ShaderSyntax
