import ShaderSyntax.Source

/-!
# Scanning

What the tokens of a text are: every reader takes a part from the front of what is left, so the
tokens lie one after the other in the text, each where its offset says, and the end token comes
after all of them.
-/
namespace ShaderSyntax

namespace Trivia

theorem lineComment_isPrefix (escaped : Bool) (t : Text) : lineComment escaped t <+: t := by
  fun_induction lineComment escaped t with
  | case1 => exact List.nil_prefix
  | case2 _ rest ih => exact (List.prefix_cons_inj _).mpr ih
  | case3 b rest _ ih => exact (List.prefix_cons_inj _).mpr ih
  | case4 => exact List.nil_prefix
  | case5 _ b rest _ _ _ ih => exact (List.prefix_cons_inj _).mpr ih

theorem blockComment_isPrefix (t : Text) : blockComment t <+: t := by
  fun_induction blockComment t with
  | case1 => exact List.nil_prefix
  | case2 b rest h =>
    obtain ⟨rfl, hr⟩ := h
    obtain ⟨more, rfl⟩ := List.head?_eq_some_iff.mp hr
    exact ⟨more, rfl⟩
  | case3 b rest _ ih => exact (List.prefix_cons_inj _).mpr ih

theorem continuation?_text {rest : Text} {piece : Trivia} (h : continuation? rest = some piece) :
    piece.text ≠ [] ∧ piece.text <+: Byte.backslash :: rest := by
  unfold continuation? at h
  split at h
  · next hr =>
    cases h
    refine ⟨by simp [text], (List.prefix_cons_inj _).mpr ?_⟩
    rw [← hr]
    exact List.take_prefix 1 rest
  · split at h
    · next hr =>
      cases h
      refine ⟨by simp [text], (List.prefix_cons_inj _).mpr ?_⟩
      rw [← hr]
      exact List.take_prefix 2 rest
    · cases h

theorem comment?_text {rest : Text} {piece : Trivia} (h : comment? rest = some piece) :
    piece.text ≠ [] ∧ piece.text <+: Byte.slash :: rest := by
  unfold comment? at h
  split at h
  · cases h
  · next b rest =>
    split at h
    · cases h
      refine ⟨by simp [text], (List.prefix_cons_inj _).mpr ((List.prefix_cons_inj _).mpr ?_)⟩
      exact lineComment_isPrefix false rest
    · split at h
      · cases h
        refine ⟨by simp [text], (List.prefix_cons_inj _).mpr ((List.prefix_cons_inj _).mpr ?_)⟩
        exact blockComment_isPrefix rest
      · cases h

/-- A piece of trivia is a part of the front of the text. -/
theorem first?_text {t : Text} {piece : Trivia} (h : first? t = some piece) :
    piece.text ≠ [] ∧ piece.text <+: t := by
  unfold first? at h
  split at h
  · cases h
  · next b rest =>
    split at h
    · cases h
      exact ⟨by simp [text], rest, rfl⟩
    · split at h
      · next hb =>
        subst hb
        exact continuation?_text h
      · split at h
        · next hb =>
          subst hb
          exact comment?_text h
        · cases h

end Trivia

theorem Punct.spelling_ne_nil (p : Punct) : p.spelling ≠ [] := by
  cases p <;> decide

theorem Punct.first?_spelling {t : Text} {p : Punct} (h : Punct.first? t = some p) :
    p.spelling <+: t := by
  obtain ⟨before, n, after, -, hp, -⟩ := List.findSome?_eq_some_iff.mp h
  rw [Punct.spelling_of_ofText? hp]
  exact List.take_prefix n t

namespace Lexeme

theorem number_text {b : UInt8} (hb : Byte.isDigit b = true) (rest : Text) :
    (number (b :: rest)).text ≠ [] ∧ (number (b :: rest)).text <+: b :: rest := by
  have hw : (b :: rest).takeWhile Byte.isDigit ≠ [] := by simp [hb]
  have hsplit : (b :: rest).takeWhile Byte.isDigit ++ (b :: rest).dropWhile Byte.isDigit =
      b :: rest := List.takeWhile_append_dropWhile
  unfold number
  dsimp only
  split
  · exact ⟨hw, List.takeWhile_prefix _⟩
  · next c more hd =>
    split
    · have hp : (b :: rest).takeWhile Byte.isDigit ++ c :: more.takeWhile Byte.isDigit <+:
          (b :: rest).takeWhile Byte.isDigit ++ c :: more := by
        rw [List.prefix_append_right_inj, List.prefix_cons_inj]
        exact List.takeWhile_prefix _
      rw [hd] at hsplit
      rw [hsplit] at hp
      exact ⟨by simp [text], hp⟩
    · exact ⟨hw, List.takeWhile_prefix _⟩

/-- A text with a quote in it starts with what stands before the first one, and that quote. -/
theorem takeWhile_quote {rest : Text} (h : Byte.quote ∈ rest) :
    rest.takeWhile (· != Byte.quote) ++ [Byte.quote] <+: rest := by
  induction rest with
  | nil => simp at h
  | cons b rest ih =>
    by_cases hb : b = Byte.quote
    · subst hb
      exact ⟨rest, by simp⟩
    · have hr : Byte.quote ∈ rest := by
        rcases List.mem_cons.mp h with he | hm
        · exact absurd he.symm hb
        · exact hm
      have he : (b :: rest).takeWhile (· != Byte.quote) =
          b :: rest.takeWhile (· != Byte.quote) := by simp [hb]
      rw [he]
      exact (List.prefix_cons_inj _).mpr (ih hr)

theorem closedString_text (rest : Text) :
    (closedString rest).text ≠ [] ∧ (closedString rest).text <+: Byte.quote :: rest := by
  unfold closedString
  split
  · next h => exact ⟨by simp [text], (List.prefix_cons_inj _).mpr (takeWhile_quote h)⟩
  · exact ⟨by simp [text], rest, rfl⟩

theorem stray_text {t : Text} (ht : t ≠ []) : (stray t).text ≠ [] ∧ (stray t).text <+: t := by
  unfold stray
  split
  · next c _ =>
    refine ⟨?_, List.take_prefix _ t⟩
    have hc : 0 < c.utf8Size := c.utf8Size_pos
    have hne : t.take c.utf8Size ≠ [] := by
      rw [Ne, List.take_eq_nil_iff]
      rintro (h | h)
      · omega
      · exact ht h
    exact hne
  · refine ⟨?_, List.take_prefix _ t⟩
    obtain ⟨b, rest, rfl⟩ := List.exists_cons_of_ne_nil ht
    simp [text]

/-- A lexeme is a part of the front of the text. -/
theorem first?_text {t : Text} {l : Lexeme} (h : first? t = some l) :
    l.text ≠ [] ∧ l.text <+: t := by
  unfold first? at h
  split at h
  · cases h
  · next b rest =>
    split at h
    · next hb =>
      cases h
      exact ⟨by simp [text, isWordByte, hb], List.takeWhile_prefix _⟩
    · split at h
      · next hb =>
        cases h
        exact number_text hb rest
      · split at h
        · next hb =>
          cases h
          subst hb
          exact closedString_text rest
        · split at h
          · next p hp =>
            cases h
            exact ⟨Punct.spelling_ne_nil p, Punct.first?_spelling hp⟩
          · cases h
            exact stray_text (List.cons_ne_nil b rest)

end Lexeme

namespace Scanner

theorem offset_skip (s : Scanner) (t : Text) :
    (s.skip t).position.offset = s.position.offset + t.length :=
  Position.offset_after s.position t

/-- The next token stands behind a gap, and the source after it is what follows them both. -/
theorem next_spec (s : Scanner) : ∃ gap : Text,
    s.next.1.position = (s.skip gap).position ∧ s.next.1.text <+: (s.skip gap).rest ∧
      s.next.2 = (s.skip gap).skip s.next.1.text ∧
      (s.next.1.lexeme? ≠ none → s.next.1.text ≠ []) := by
  refine ⟨(Trivia.gap s.rest).flatMap Trivia.text, ?_⟩
  unfold next
  dsimp only
  split
  · exact ⟨rfl, List.nil_prefix, rfl, fun h => absurd rfl h⟩
  · next l hl =>
    obtain ⟨hne, hp⟩ := Lexeme.first?_text hl
    exact ⟨rfl, hp, rfl, fun _ => hne⟩

/-- A token with a lexeme takes at least one byte. -/
theorem length_next_lt {s : Scanner} (h : s.next.1.lexeme? ≠ none) :
    s.next.2.rest.length < s.rest.length := by
  obtain ⟨gap, -, hprefix, hnext, hne⟩ := s.next_spec
  have hle := hprefix.length_le
  have hpos := List.length_pos_iff.mpr (hne h)
  rw [hnext]
  simp only [skip, List.length_drop] at hle ⊢
  omega

/-- The scanner stands in the text where its position says. -/
def Within (text : Text) (s : Scanner) : Prop :=
  s.rest = text.drop s.position.offset

theorem Within.skip {text : Text} {s : Scanner} (h : s.Within text) (t : Text) :
    (s.skip t).Within text := by
  unfold Within
  rw [offset_skip, ← List.drop_drop, ← h]
  rfl

theorem Within.next {text : Text} {s : Scanner} (h : s.Within text) : s.next.2.Within text := by
  obtain ⟨gap, -, -, hnext, -⟩ := s.next_spec
  rw [hnext]
  exact (h.skip gap).skip _

end Scanner

/-- A span that is as long as a text at its start covers that text. -/
theorem Source.slice_of_isPrefix {text t : Text} {start : Nat} (h : t <+: text.drop start) :
    (Source.ofText text).slice ⟨start, start + t.length⟩ = t := by
  obtain ⟨more, hmore⟩ := h
  have hlen : (⟨start, start + t.length⟩ : Span Nat).length = t.length :=
    Nat.add_sub_cancel_left _ _
  change (text.drop start).take _ = t
  rw [hlen, ← hmore, List.take_left]

/-- The tokens of a text from an offset on: the end token is the last and the only one without a
lexeme, every other token is the part of the text at its offset, and none starts before the one
before it stops. -/
structure Scan (text : Text) (start : Nat) (body : List Token) (last : Token) : Prop where
  lexeme : ∀ t ∈ body, t.lexeme?.isSome
  finish : last.lexeme? = none
  placed : ∀ t ∈ body, t.text ≠ [] ∧ t.text <+: text.drop t.span.start
  ordered : (body ++ [last]).Pairwise fun a b => a.span.stop ≤ b.span.start
  start_le : ∀ t ∈ body ++ [last], start ≤ t.span.start

namespace Scan

/-- One more token in front of a scan. -/
theorem cons {text : Text} {start : Nat} {t : Token} {body : List Token} {last : Token}
    (hs : start ≤ t.span.start) (hl : t.lexeme?.isSome)
    (hp : t.text ≠ [] ∧ t.text <+: text.drop t.span.start) (h : Scan text t.span.stop body last) :
    Scan text start (t :: body) last := by
  have hstop : t.span.start ≤ t.span.stop := Nat.le_add_right _ _
  constructor
  · simpa using ⟨hl, h.lexeme⟩
  · exact h.finish
  · intro u hu
    rcases List.mem_cons.mp hu with rfl | hu
    · exact hp
    · exact h.placed u hu
  · rw [List.cons_append, List.pairwise_cons]
    exact ⟨h.start_le, h.ordered⟩
  · intro u hu
    rcases List.mem_cons.mp hu with rfl | hu
    · exact hs
    · have := h.start_le u hu
      omega

end Scan

namespace Scanner

/-- With a round for every byte left the scan comes to its end. -/
theorem scan_tokensWithin {text : Text} (count : Nat) (s : Scanner) (hs : s.Within text)
    (hc : s.rest.length < count) :
    ∃ body last, (tokensWithin count s).1 = body ++ [last] ∧
      Scan text s.position.offset body last := by
  induction count generalizing s with
  | zero => omega
  | succ count ih =>
    obtain ⟨gap, hpos, hprefix, hnext, hne⟩ := s.next_spec
    have hoff : s.position.offset ≤ s.next.1.span.start := by
      change _ ≤ s.next.1.position.offset
      rw [hpos, offset_skip]
      omega
    simp only [tokensWithin]
    cases hl : s.next.1.lexeme? with
    | none =>
      refine ⟨[], s.next.1, rfl, by simp, hl, by simp, by simp, ?_⟩
      simpa using hoff
    | some l =>
      have hw : s.next.2.Within text := hs.next
      have htext := hne (by simp [hl])
      have hlen : s.next.2.rest.length < count := by
        have := length_next_lt (by simp [hl] : s.next.1.lexeme? ≠ none)
        omega
      have hstop : s.next.2.position.offset = s.next.1.span.stop := by
        rw [hnext, offset_skip, ← hpos]
        rfl
      obtain ⟨body, last, hb, hscan⟩ := ih s.next.2 hw hlen
      refine ⟨s.next.1 :: body, last, by simp [hb], ?_⟩
      refine Scan.cons hoff (by simp [hl]) ⟨htext, ?_⟩ (hstop ▸ hscan)
      have hrest := hs.skip gap
      unfold Within at hrest
      change _ <+: text.drop s.next.1.position.offset
      rw [hpos, ← hrest]
      exact hprefix

end Scanner

/-- The tokens of a text but the end token. -/
def written (text : Text) : List Token :=
  (tokenize text).filter fun t => t.lexeme?.isSome

theorem tokenize_scan (text : Text) :
    ∃ last, tokenize text = written text ++ [last] ∧ Scan text 0 (written text) last := by
  obtain ⟨body, last, htokens, hscan⟩ :=
    Scanner.scan_tokensWithin (text.length + 1) (.start text) rfl (Nat.lt_succ_self _)
  have hw : written text = body := by
    change List.filter _ (Scanner.tokensWithin (text.length + 1) (.start text)).1 = body
    rw [htokens, List.filter_append, List.filter_eq_self.mpr hscan.lexeme]
    simp [hscan.finish]
  refine ⟨last, ?_, hw ▸ hscan⟩
  rw [hw]
  exact htokens

end ShaderSyntax
