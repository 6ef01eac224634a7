import ShaderSyntax.Proofs.Canonical
import ShaderSyntax.Source

/-!
# Lexemes with spaces between them

A space ends every lexeme but a string, and starts none. So well spelled lexemes, written one after
the other with a space between each two, are read again.
-/
namespace ShaderSyntax

/-- Nothing follows, or a space. -/
def Spaced (rest : Text) : Prop :=
  ∀ b ∈ rest.head?, b = Byte.space

theorem spaced_nil : Spaced [] := by
  intro b hb
  cases hb

theorem spaced_cons (rest : Text) : Spaced (Byte.space :: rest) := by
  intro b hb
  cases hb
  rfl

theorem takeWhile_spaced {p : UInt8 → Bool} (hp : p Byte.space = false) {t rest : Text}
    (ht : t.all p = true) (hr : Spaced rest) : (t ++ rest).takeWhile p = t := by
  rw [List.takeWhile_append_of_pos (List.all_eq_true.mp ht)]
  cases rest with
  | nil => simp
  | cons b rest => simp [hr b rfl, hp]

theorem dropWhile_spaced {p : UInt8 → Bool} (hp : p Byte.space = false) {t rest : Text}
    (ht : t.all p = true) (hr : Spaced rest) : (t ++ rest).dropWhile p = rest := by
  rw [List.dropWhile_append_of_pos (List.all_eq_true.mp ht)]
  cases rest with
  | nil => simp
  | cons b rest => simp [hr b rfl, hp]

namespace Punct

theorem length_spelling (p : Punct) :
    p.spelling.length = 1 ∨ p.spelling.length = 2 ∨ p.spelling.length = 3 := by
  cases p <;> decide

theorem space_not_mem_spelling (p : Punct) : Byte.space ∉ p.spelling := by
  cases p <;> decide

theorem ofText?_space {t : Text} (h : Byte.space ∈ t) : ofText? t = none := by
  cases hp : ofText? t with
  | none => rfl
  | some p =>
    rw [← spelling_of_ofText? hp] at h
    exact absurd h (space_not_mem_spelling p)

/-- No longer mark is read across a space. -/
theorem first?_spaced (p : Punct) {rest : Text} (hr : Spaced rest) :
    first? (p.spelling ++ rest) = some p := by
  cases rest with
  | nil =>
    have hle : p.spelling.length ≤ 3 := by rcases length_spelling p with h | h | h <;> omega
    rw [List.append_nil]
    simp only [first?, List.findSome?, List.take_of_length_le hle, ofText?_spelling]
  | cons b rest =>
    have hb : b = Byte.space := hr b rfl
    subst hb
    have hexact : ofText? ((p.spelling ++ Byte.space :: rest).take p.spelling.length) = some p := by
      rw [List.take_left, ofText?_spelling]
    have hlonger : ∀ n,
        ofText? ((p.spelling ++ Byte.space :: rest).take (p.spelling.length + (n + 1))) = none := by
      intro n
      apply ofText?_space
      simp [List.take_append]
    rcases length_spelling p with hl | hl | hl <;> rw [hl] at hexact hlonger
    · simp only [first?, List.findSome?, hlonger 1, hlonger 0, hexact]
    · simp only [first?, List.findSome?, hlonger 0, hexact]
    · simp only [first?, List.findSome?, hexact]

end Punct

namespace Lexeme

theorem number_int {digits rest : Text} (h : digits.all Byte.isDigit = true) (hr : Spaced rest) :
    number (digits ++ rest) = .int digits := by
  have hdrop := dropWhile_spaced (by decide) h hr
  have htake := takeWhile_spaced (by decide) h hr
  cases rest with
  | nil => simp only [number, hdrop, htake]
  | cons b rest =>
    have hb : b ≠ Byte.dot := by
      rw [hr b rfl]
      decide
    simp only [number, hdrop, htake, hb, false_and, if_false]

theorem number_float {whole fraction rest : Text} (hw : whole.all Byte.isDigit = true)
    (hf : fraction.all Byte.isDigit = true) (hne : fraction ≠ []) (hr : Spaced rest) :
    number (whole ++ Byte.dot :: fraction ++ rest) = .float (whole ++ Byte.dot :: fraction) := by
  have htake : (whole ++ Byte.dot :: (fraction ++ rest)).takeWhile Byte.isDigit = whole := by
    rw [List.takeWhile_append_of_pos (List.all_eq_true.mp hw)]
    simp [show Byte.isDigit Byte.dot = false by decide]
  have hdrop : (whole ++ Byte.dot :: (fraction ++ rest)).dropWhile Byte.isDigit =
      Byte.dot :: (fraction ++ rest) := by
    rw [List.dropWhile_append_of_pos (List.all_eq_true.mp hw)]
    simp [show Byte.isDigit Byte.dot = false by decide]
  have hfraction := takeWhile_spaced (by decide) hf hr
  rw [List.append_assoc, List.cons_append]
  simp [number, htake, hdrop, hfraction, hne]

theorem closedString_spaced (inner rest : Text) (h : Byte.quote ∉ inner) :
    closedString (inner ++ [Byte.quote] ++ rest) =
      .string (Byte.quote :: (inner ++ [Byte.quote])) := by
  have htake : (inner ++ Byte.quote :: rest).takeWhile (· != Byte.quote) = inner := by
    rw [List.takeWhile_append_of_pos]
    · simp
    · intro b hb
      simp only [bne_iff_ne]
      rintro rfl
      exact h hb
  simp [closedString, htake]

theorem isLetter_of_isDigit {b : UInt8} (h : Byte.isDigit b = true) : Byte.isLetter b = false := by
  grind [Byte.isDigit, Byte.isLetter]

/-- The bytes of words and numbers stand for themselves everywhere. -/
theorem plain_of_isWordByte {b : UInt8} (h : isWordByte b = true) :
    Trivia.isBlankByte b = false ∧ b ≠ Byte.backslash ∧ b ≠ Byte.slash := by
  grind [isWordByte, Trivia.isBlankByte, Byte.isDigit, Byte.isLetter]

/-- The text starts with no blank and no backslash, and not as a comment does. -/
def Bare (t : Text) : Prop :=
  ∃ b more, t = b :: more ∧ Trivia.isBlankByte b = false ∧ b ≠ Byte.backslash ∧
    (b = Byte.slash → more.head? ≠ some Byte.slash ∧ more.head? ≠ some Byte.star)

theorem bare_of_isWordByte {b : UInt8} (h : isWordByte b = true) (more : Text) :
    Bare (b :: more) := by
  obtain ⟨hblank, hbackslash, hslash⟩ := plain_of_isWordByte h
  exact ⟨b, more, rfl, hblank, hbackslash, fun he => absurd he hslash⟩

theorem bare_spelling (p : Punct) : Bare p.spelling := by
  cases p <;> exact ⟨_, _, rfl, by decide⟩

/-- A mark starts neither a word nor a number nor a string. -/
theorem spelling_head (p : Punct) : ∃ b more, p.spelling = b :: more ∧
    Byte.isLetter b = false ∧ Byte.isDigit b = false ∧ b ≠ Byte.quote := by
  cases p <;> exact ⟨_, _, rfl, by decide⟩

theorem float_head {digits : Text} (h : (float digits).wellSpelled = true) :
    ∃ b more, digits = b :: more ∧ Byte.isDigit b = true := by
  cases digits with
  | nil => cases h
  | cons b more =>
    cases hb : Byte.isDigit b with
    | true => exact ⟨b, more, rfl, hb⟩
    | false => simp [wellSpelled, hb] at h

/-- A well spelled lexeme is read where nothing or a space follows. -/
theorem first?_spaced {l : Lexeme} (h : l.wellSpelled = true) {rest : Text} (hr : Spaced rest) :
    first? (l.text ++ rest) = some l := by
  cases l with
  | word w =>
    simp only [wellSpelled, Bool.and_eq_true] at h
    have htake := takeWhile_spaced (by decide) h.2 hr
    cases w with
    | nil => simp at h
    | cons b w =>
      have hb : Byte.isLetter b = true := by simpa using h.1
      rw [text, List.cons_append] at *
      simp only [first?, hb, if_true, htake]
  | int digits =>
    simp only [wellSpelled, Bool.and_eq_true] at h
    have hnumber := number_int h.2 hr
    cases digits with
    | nil => simp at h
    | cons b digits =>
      have hb : Byte.isDigit b = true := (List.all_eq_true.mp h.2) b (by simp)
      rw [text, List.cons_append] at *
      simp [first?, isLetter_of_isDigit hb, hb, hnumber]
  | float digits =>
    obtain ⟨b, more, hb, hdigit⟩ := float_head h
    simp only [wellSpelled, Bool.and_eq_true, Bool.not_eq_true', List.isEmpty_eq_false_iff,
      beq_iff_eq] at h
    obtain ⟨⟨⟨-, hdigits⟩, hne⟩, hfraction⟩ := h
    have hall := List.all_takeWhile (p := Byte.isDigit) (l := digits)
    have hnumber := number_float hall hfraction hne hr
    rw [← hdigits, hb, List.cons_append] at hnumber
    rw [text, hb, List.cons_append]
    simp [first?, isLetter_of_isDigit hdigit, hdigit, hnumber]
  | string raw =>
    simp only [wellSpelled, Bool.and_eq_true, beq_iff_eq] at h
    obtain ⟨hraw, hinner⟩ := h
    have hclosed := closedString_spaced raw.tail.dropLast rest (by simpa using hinner)
    rw [← hraw] at hclosed
    rw [text]
    conv => lhs; rw [hraw]
    simp only [List.cons_append, first?]
    rw [hclosed]
    rfl
  | illegal raw => cases h
  | punct p =>
    obtain ⟨b, more, hp, hletter, hdigit, hquote⟩ := spelling_head p
    have hfirst := Punct.first?_spaced p hr
    rw [text]
    rw [hp, List.cons_append] at hfirst ⊢
    simp [first?, hletter, hdigit, hquote, hfirst]

theorem bare_text {l : Lexeme} (h : l.wellSpelled = true) : Bare l.text := by
  cases l with
  | word w =>
    cases w with
    | nil => cases h
    | cons b w =>
      simp only [wellSpelled, Bool.and_eq_true, List.all_cons] at h
      exact bare_of_isWordByte h.2.1 w
  | int digits =>
    cases digits with
    | nil => cases h
    | cons b digits =>
      simp only [wellSpelled, Bool.and_eq_true, List.all_cons] at h
      exact bare_of_isWordByte (by simp [isWordByte, h.2.1]) digits
  | float digits =>
    obtain ⟨b, more, rfl, hdigit⟩ := float_head h
    exact bare_of_isWordByte (by simp [isWordByte, hdigit]) more
  | string raw =>
    simp only [wellSpelled, Bool.and_eq_true, beq_iff_eq] at h
    exact ⟨Byte.quote, _, h.1, by decide, by decide, fun he => absurd he (by decide)⟩
  | illegal raw => cases h
  | punct p => exact bare_spelling p

end Lexeme

namespace Trivia

theorem first?_lexeme {l : Lexeme} (h : l.wellSpelled = true) {rest : Text} (hr : Spaced rest) :
    first? (l.text ++ rest) = none := by
  obtain ⟨b, more, hl, hblank, hbackslash, hslash⟩ := Lexeme.bare_text h
  have hcomment : b = Byte.slash → comment? (more ++ rest) = none := by
    intro hb
    obtain ⟨hline, hblock⟩ := hslash hb
    cases more with
    | cons c more =>
      simp only [List.head?_cons, ne_eq, Option.some.injEq] at hline hblock
      simp [comment?, hline, hblock]
    | nil =>
      cases rest with
      | nil => rfl
      | cons c rest =>
        rw [hr c rfl]
        rfl
  rw [hl, List.cons_append]
  simp only [first?, hblank, hbackslash]
  simpa using hcomment

theorem gap_lexeme {l : Lexeme} (h : l.wellSpelled = true) {rest : Text} (hr : Spaced rest) :
    gap (l.text ++ rest) = [] := by
  have hfirst := first?_lexeme h hr
  unfold gap
  cases (l.text ++ rest).length with
  | zero => rfl
  | succ n => simp only [gapWithin, hfirst]

theorem gap_space (t : Text) : gap (Byte.space :: t) = .blank [Byte.space] :: gap t := by
  rfl

end Trivia

namespace Scanner

/-- With at most a space before it, a lexeme is the next token. -/
theorem next_spaced {l : Lexeme} (h : l.wellSpelled = true) {rest : Text} (hr : Spaced rest)
    {s : Scanner} (hs : s.rest = l.text ++ rest ∨ s.rest = Byte.space :: (l.text ++ rest)) :
    s.next.1.lexeme? = some l ∧ s.next.2.rest = rest := by
  have hgap := Trivia.gap_lexeme h hr
  have hfirst := Lexeme.first?_spaced h hr
  rcases hs with hs | hs
  · simp [next, hs, hgap, skip, hfirst]
  · simp [next, hs, Trivia.gap_space, Trivia.text, hgap, skip, hfirst]

/-- The lexemes that follow, each after a space. -/
def trail (ls : List Lexeme) : Text :=
  ls.flatMap fun l => Byte.space :: l.text

theorem spaced_trail (ls : List Lexeme) : Spaced (trail ls) := by
  cases ls with
  | nil => exact spaced_nil
  | cons l ls => exact spaced_cons _

theorem length_le_trail (ls : List Lexeme) : ls.length ≤ (trail ls).length := by
  induction ls with
  | nil => exact Nat.zero_le _
  | cons l ls ih =>
    simp only [trail, List.flatMap_cons, List.length_append, List.length_cons] at ih ⊢
    omega

theorem next_empty {s : Scanner} (hs : s.rest = []) : s.next.1.lexeme? = none := by
  simp [next, hs, Trivia.gap, Trivia.gapWithin, skip, Lexeme.first?]

theorem lexemes_tokensWithin_none {s : Scanner} (h : s.next.1.lexeme? = none) (count : Nat) :
    lexemes (tokensWithin (count + 1) s).1 = [] := by
  simp [tokensWithin, h, lexemes]

theorem lexemes_tokensWithin_some {s : Scanner} {l : Lexeme} (h : s.next.1.lexeme? = some l)
    (count : Nat) : lexemes (tokensWithin (count + 1) s).1 =
      l :: lexemes (tokensWithin count s.next.2).1 := by
  simp [tokensWithin, h, lexemes]

theorem lexemes_tokensWithin_trail {ls : List Lexeme} (h : ∀ l ∈ ls, l.wellSpelled = true)
    {count : Nat} (hc : ls.length < count) {s : Scanner} (hs : s.rest = trail ls) :
    lexemes (tokensWithin count s).1 = ls := by
  induction ls generalizing count s with
  | nil =>
    cases count with
    | zero => simp at hc
    | succ count => exact lexemes_tokensWithin_none (next_empty hs) count
  | cons l ls ih =>
    cases count with
    | zero => simp at hc
    | succ count =>
      obtain ⟨hl, hls⟩ := List.forall_mem_cons.mp h
      obtain ⟨hnext, hrest⟩ := next_spaced hl (spaced_trail ls) (.inr hs)
      rw [lexemes_tokensWithin_some hnext, ih hls (by simpa using hc) hrest]

end Scanner

theorem intercalate_trail (l : Lexeme) (ls : List Lexeme) :
    List.intercalate [Byte.space] ((l :: ls).map Lexeme.text) = l.text ++ Scanner.trail ls := by
  induction ls generalizing l with
  | nil => simp [Scanner.trail]
  | cons next ls ih =>
    rw [List.map_cons, List.map_cons, List.intercalate_cons_cons, ← List.map_cons, ih]
    simp [Scanner.trail]

/-- Well spelled lexemes with single spaces between them are read again. -/
theorem Source.lexemes_ofText_spaced {ls : List Lexeme} (h : ∀ l ∈ ls, l.wellSpelled = true) :
    (ofText (List.intercalate [Byte.space] (ls.map Lexeme.text))).lexemes = ls := by
  cases ls with
  | nil => rfl
  | cons l ls =>
    obtain ⟨hl, hls⟩ := List.forall_mem_cons.mp h
    rw [intercalate_trail]
    obtain ⟨hnext, hrest⟩ := Scanner.next_spaced hl (Scanner.spaced_trail ls)
      (s := .start (l.text ++ Scanner.trail ls)) (.inl rfl)
    have hcount : ls.length < (l.text ++ Scanner.trail ls).length := by
      have hle := Scanner.length_le_trail ls
      obtain ⟨b, more, htext, -⟩ := Lexeme.bare_text hl
      rw [htext]
      simp only [List.length_append, List.length_cons]
      omega
    have htrail := Scanner.lexemes_tokensWithin_trail hls hcount hrest
    change ShaderSyntax.lexemes (Scanner.tokensWithin (_ + 1) (.start _)).1 = l :: ls
    rw [Scanner.lexemes_tokensWithin_some hnext]
    exact congrArg (l :: ·) htrail

end ShaderSyntax
