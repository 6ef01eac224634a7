import ShaderSyntax.Proofs.Encoding
import ShaderSyntax.Proofs.Partition
import ShaderSyntax.Proofs.Spacing
import ShaderSyntax.Vocabulary.Words

/-!
# The longest lexeme

The lexical grammar, said without the readers: words, digits, decimals, strings and the marks. A
token is the longest text of the grammar that what is left starts with. Where none stands the token is
illegal, and takes one quote, one character or one byte.
-/
namespace ShaderSyntax

/-- A letter or an underscore, and then letters, underscores and digits. -/
def IsWord (t : Text) : Prop :=
  ∃ b rest, t = b :: rest ∧ Byte.isLetter b = true ∧
    ∀ c ∈ rest, Byte.isLetter c = true ∨ Byte.isDigit c = true

def IsDigits (t : Text) : Prop :=
  t ≠ [] ∧ ∀ b ∈ t, Byte.isDigit b = true

/-- Digits on both sides of a point. -/
def IsDecimal (t : Text) : Prop :=
  ∃ whole fraction, t = whole ++ Byte.dot :: fraction ∧ IsDigits whole ∧ IsDigits fraction

/-- A quote and everything through the next quote. -/
def IsQuoted (t : Text) : Prop :=
  ∃ inner, t = Byte.quote :: (inner ++ [Byte.quote]) ∧ Byte.quote ∉ inner

/-- The texts that legal tokens have, by the kind of the token. -/
inductive Lexical : TokenKind → Text → Prop
  | ident {t : Text} (word : IsWord t) (other : t ∉ Vocabulary.booleans) : Lexical .ident t
  | bool {t : Text} (value : t ∈ Vocabulary.booleans) : Lexical .bool t
  | int {t : Text} (digits : IsDigits t) : Lexical .int t
  | float {t : Text} (decimal : IsDecimal t) : Lexical .float t
  | string {t : Text} (quoted : IsQuoted t) : Lexical .string t
  | punct (p : Punct) : Lexical (.punct p) p.spelling

/-- The token that a text starts with. -/
structure Munched (rest : Text) (k : TokenKind) (t : Text) : Prop where
  /-- A legal token is a longest text of the grammar at the front. -/
  longest : k ≠ .illegal →
    Lexical k t ∧ t <+: rest ∧ ∀ k' u, Lexical k' u → u <+: rest → u.length ≤ t.length
  /-- An illegal token stands where the front has no text of the grammar. -/
  illegal : k = .illegal ↔ ∀ k' u, Lexical k' u → ¬ u <+: rest
  quote : k = .illegal → rest.head? = some Byte.quote →
    t = [Byte.quote] ∧ Byte.quote ∉ rest.tail
  char : k = .illegal → rest.head? ≠ some Byte.quote →
    ∀ c, Text.ofChar c <+: rest → t = Text.ofChar c
  byte : k = .illegal → rest.head? ≠ some Byte.quote → (∀ c, ¬ Text.ofChar c <+: rest) →
    ∃ b, rest.head? = some b ∧ t = [b]
  /-- What makes a number a float. -/
  float : k = .float ↔ ∃ whole b more, IsDigits whole ∧ Byte.isDigit b = true ∧
    rest = whole ++ Byte.dot :: b :: more

section Prefixes

variable {p : UInt8 → Bool} {t u rest more : Text}

/-- A part of the front with the property is no longer than all of the front with it. -/
theorem length_le_takeWhile (h : u <+: rest) (hu : ∀ b ∈ u, p b = true) :
    u.length ≤ (rest.takeWhile p).length := by
  obtain ⟨more, rfl⟩ := h
  rw [List.takeWhile_append_of_pos hu, List.length_append]
  exact Nat.le_add_right _ _

theorem takeWhile_run_cons (ht : ∀ b ∈ t, p b = true) {c : UInt8} (hc : p c = false) :
    (t ++ c :: more).takeWhile p = t := by
  rw [List.takeWhile_append_of_pos ht]
  simp [hc]

theorem dropWhile_run_cons (ht : ∀ b ∈ t, p b = true) {c : UInt8} (hc : p c = false) :
    (t ++ c :: more).dropWhile p = c :: more := by
  rw [List.dropWhile_append_of_pos ht]
  simp [hc]

end Prefixes

namespace Lexical

variable {k : TokenKind} {b : UInt8} {t more : Text}

theorem isWord_of_mem (h : t ∈ Vocabulary.booleans) : IsWord t := by
  simp only [Vocabulary.booleans, List.map, List.mem_cons, List.not_mem_nil, or_false] at h
  rcases h with rfl | rfl <;> exact ⟨_, _, rfl, by decide +kernel, by decide +kernel⟩

theorem legal (h : Lexical k t) : k ≠ .illegal := by
  rintro rfl
  cases h

/-- The first byte tells the class. -/
theorem head (h : Lexical k t) : ∃ b more, t = b :: more ∧
    ((Byte.isLetter b = true ∧ IsWord t ∧
        (k = .ident ∧ t ∉ Vocabulary.booleans ∨ k = .bool ∧ t ∈ Vocabulary.booleans)) ∨
      (Byte.isDigit b = true ∧ (k = .int ∧ IsDigits t ∨ k = .float ∧ IsDecimal t)) ∨
      (b = Byte.quote ∧ k = .string ∧ IsQuoted t) ∨
      (Byte.isLetter b = false ∧ Byte.isDigit b = false ∧ b ≠ Byte.quote ∧
        ∃ p : Punct, k = .punct p ∧ t = p.spelling)) := by
  cases h with
  | ident word other =>
    have hword := word
    obtain ⟨b, more, rfl, hb, -⟩ := word
    exact ⟨b, more, rfl, .inl ⟨hb, hword, .inl ⟨rfl, other⟩⟩⟩
  | bool value =>
    have hword := isWord_of_mem value
    obtain ⟨b, more, rfl, hb, -⟩ := isWord_of_mem value
    exact ⟨b, more, rfl, .inl ⟨hb, hword, .inr ⟨rfl, value⟩⟩⟩
  | int digits =>
    obtain ⟨b, more, rfl⟩ := List.exists_cons_of_ne_nil digits.1
    exact ⟨b, more, rfl, .inr (.inl ⟨digits.2 b (by simp), .inl ⟨rfl, digits⟩⟩)⟩
  | float decimal =>
    obtain ⟨whole, fraction, rfl, hwhole, hfraction⟩ := decimal
    obtain ⟨b, more, rfl⟩ := List.exists_cons_of_ne_nil hwhole.1
    exact ⟨b, more ++ Byte.dot :: fraction, rfl,
      .inr (.inl ⟨hwhole.2 b (by simp), .inr ⟨rfl, _, _, rfl, hwhole, hfraction⟩⟩)⟩
  | string quoted =>
    obtain ⟨inner, rfl, hinner⟩ := quoted
    exact ⟨_, _, rfl, .inr (.inr (.inl ⟨rfl, rfl, inner, rfl, hinner⟩))⟩
  | punct p =>
    obtain ⟨b, more, hp, hother⟩ := Lexeme.spelling_head p
    exact ⟨b, more, hp, .inr (.inr (.inr ⟨hother.1, hother.2.1, hother.2.2, p, rfl, rfl⟩))⟩

theorem ne_nil (h : Lexical k t) : t ≠ [] := by
  obtain ⟨b, more, rfl, -⟩ := h.head
  exact List.cons_ne_nil b more

/-- At the front of a text it starts as the text does. -/
theorem exists_cons {rest : Text} (h : Lexical k t) (hp : t <+: b :: rest) :
    ∃ more, t = b :: more ∧ more <+: rest := by
  obtain ⟨c, more, rfl⟩ := List.exists_cons_of_ne_nil h.ne_nil
  obtain ⟨rfl, hmore⟩ := List.cons_prefix_cons.mp hp
  exact ⟨more, rfl, hmore⟩

theorem isWord (h : Lexical k (b :: more)) (hb : Byte.isLetter b = true) :
    IsWord (b :: more) ∧
      (k = .ident ∧ b :: more ∉ Vocabulary.booleans ∨
        k = .bool ∧ b :: more ∈ Vocabulary.booleans) := by
  obtain ⟨c, rest, he, hc⟩ := h.head
  cases he
  rcases hc with ⟨-, hc⟩ | ⟨hd, -⟩ | ⟨rfl, -⟩ | ⟨hl, -⟩
  · exact hc
  · rw [Lexeme.isLetter_of_isDigit hd] at hb
    cases hb
  · exact absurd hb (by decide)
  · rw [hl] at hb
    cases hb

theorem isNumber (h : Lexical k (b :: more)) (hb : Byte.isDigit b = true) :
    k = .int ∧ IsDigits (b :: more) ∨ k = .float ∧ IsDecimal (b :: more) := by
  have hletter := Lexeme.isLetter_of_isDigit hb
  obtain ⟨c, rest, he, hc⟩ := h.head
  cases he
  rcases hc with ⟨hl, -⟩ | ⟨-, hc⟩ | ⟨rfl, -⟩ | ⟨-, hd, -⟩
  · rw [hletter] at hl
    cases hl
  · exact hc
  · exact absurd hb (by decide)
  · rw [hd] at hb
    cases hb

theorem isQuoted (h : Lexical k (Byte.quote :: more)) :
    k = .string ∧ IsQuoted (Byte.quote :: more) := by
  obtain ⟨c, rest, he, hc⟩ := h.head
  cases he
  rcases hc with ⟨hl, -⟩ | ⟨hd, -⟩ | ⟨-, hc⟩ | ⟨-, -, hq, -⟩
  · exact absurd hl (by decide)
  · exact absurd hd (by decide)
  · exact hc
  · exact absurd rfl hq

theorem isMark (h : Lexical k (b :: more)) (hl : Byte.isLetter b = false)
    (hd : Byte.isDigit b = false) (hq : b ≠ Byte.quote) :
    ∃ p : Punct, k = .punct p ∧ b :: more = p.spelling := by
  obtain ⟨c, rest, he, hc⟩ := h.head
  cases he
  simpa [hl, hd, hq] using hc

theorem not_isDecimal_of_isDigits (h : IsDigits t) : ¬ IsDecimal t := by
  rintro ⟨whole, fraction, rfl, -⟩
  exact absurd (h.2 Byte.dot (by simp)) (by decide)

/-- A text has one kind. -/
theorem kind_unique {k' : TokenKind} (h : Lexical k t) (h' : Lexical k' t) : k = k' := by
  obtain ⟨b, more, rfl⟩ := List.exists_cons_of_ne_nil h.ne_nil
  cases hletter : Byte.isLetter b with
  | true =>
    rcases (h.isWord hletter).2 with ⟨rfl, hw⟩ | ⟨rfl, hw⟩ <;>
      rcases (h'.isWord hletter).2 with ⟨rfl, hw'⟩ | ⟨rfl, hw'⟩ <;>
      first | rfl | contradiction
  | false =>
    cases hdigit : Byte.isDigit b with
    | true =>
      rcases h.isNumber hdigit with ⟨rfl, hn⟩ | ⟨rfl, hn⟩ <;>
        rcases h'.isNumber hdigit with ⟨rfl, hn'⟩ | ⟨rfl, hn'⟩
      · rfl
      · exact absurd hn' (not_isDecimal_of_isDigits hn)
      · exact absurd hn (not_isDecimal_of_isDigits hn')
      · rfl
    | false =>
      by_cases hquote : b = Byte.quote
      · subst hquote
        exact h.isQuoted.1.trans h'.isQuoted.1.symm
      · obtain ⟨p, rfl, hp⟩ := h.isMark hletter hdigit hquote
        obtain ⟨q, rfl, hq⟩ := h'.isMark hletter hdigit hquote
        have hpq := Punct.ofText?_spelling p
        rw [← hp, hq, Punct.ofText?_spelling, Option.some.injEq] at hpq
        rw [hpq]

/-- Of the texts that legal tokens have, strings alone hold blanks. -/
theorem isQuoted_of_isBlankByte (h : Lexical k t) (hb : b ∈ t)
    (hblank : Trivia.isBlankByte b = true) : IsQuoted t := by
  have hnone : Byte.isLetter b = false ∧ Byte.isDigit b = false ∧ b ≠ Byte.dot := by
    grind [Trivia.isBlankByte, Byte.isLetter, Byte.isDigit]
  obtain ⟨hletter, hdigit, hdot⟩ := hnone
  have hword : ¬ IsWord t := by
    rintro ⟨c, more, rfl, hc, hmore⟩
    rcases List.mem_cons.mp hb with rfl | hb
    · simp [hletter] at hc
    · simpa [hletter, hdigit] using hmore b hb
  have hdigits : ∀ v, IsDigits v → b ∉ v := by
    intro v hv hbv
    simpa [hdigit] using hv.2 b hbv
  cases h with
  | ident word other => exact absurd word hword
  | bool value => exact absurd (isWord_of_mem value) hword
  | int digits => exact absurd hb (hdigits t digits)
  | float decimal =>
    obtain ⟨whole, fraction, rfl, hw, hf⟩ := decimal
    rcases List.mem_append.mp hb with hb | hb
    · exact absurd hb (hdigits whole hw)
    · rcases List.mem_cons.mp hb with rfl | hb
      · exact absurd rfl hdot
      · exact absurd hb (hdigits fraction hf)
  | string quoted => exact quoted
  | punct p =>
    have hp : ∀ c ∈ p.spelling, Trivia.isBlankByte c = false := by
      cases p <;> decide +kernel
    rw [hp b hb] at hblank
    cases hblank

end Lexical

namespace Munched

variable {k : TokenKind} {rest t : Text}

/-- A number goes on with a point where a digit follows the point, and only there. -/
theorem float_iff (hk : Lexical k t) (hp : t <+: rest)
    (hmax : ∀ k' u, Lexical k' u → u <+: rest → u.length ≤ t.length) :
    k = .float ↔ ∃ whole b more, IsDigits whole ∧ Byte.isDigit b = true ∧
      rest = whole ++ Byte.dot :: b :: more := by
  constructor
  · rintro rfl
    cases hk with
    | float decimal =>
      obtain ⟨whole, fraction, rfl, hwhole, hfraction⟩ := decimal
      obtain ⟨b, more, rfl⟩ := List.exists_cons_of_ne_nil hfraction.1
      obtain ⟨after, rfl⟩ := hp
      exact ⟨whole, b, more ++ after, hwhole, hfraction.2 b (by simp), by simp⟩
  · rintro ⟨whole, b, more, hwhole, hb, rfl⟩
    have hdecimal : Lexical .float (whole ++ Byte.dot :: [b]) :=
      .float ⟨whole, [b], rfl, hwhole, by simp, by simpa using hb⟩
    have hlen := hmax _ _ hdecimal ⟨more, by simp⟩
    obtain ⟨c, whole, rfl⟩ := List.exists_cons_of_ne_nil hwhole.1
    obtain ⟨t, rfl, -⟩ := hk.exists_cons hp
    rcases hk.isNumber (hwhole.2 c (by simp)) with ⟨-, hdigits⟩ | ⟨hk, -⟩
    · -- Digits alone would end before the point.
      have hle := length_le_takeWhile hp hdigits.2
      rw [takeWhile_run_cons hwhole.2 (by decide)] at hle
      simp only [List.length_append, List.length_cons, List.length_nil] at hlen hle
      omega
    · exact hk

theorem of_longest (hk : Lexical k t) (hp : t <+: rest)
    (hmax : ∀ k' u, Lexical k' u → u <+: rest → u.length ≤ t.length) : Munched rest k t where
  longest _ := ⟨hk, hp, hmax⟩
  illegal := ⟨fun h => absurd h hk.legal, fun h => absurd hp (h k t hk)⟩
  quote h := absurd h hk.legal
  char h := absurd h hk.legal
  byte h := absurd h hk.legal
  float := float_iff hk hp hmax

theorem of_none (hnone : ∀ k u, Lexical k u → ¬ u <+: rest)
    (hquote : rest.head? = some Byte.quote → t = [Byte.quote] ∧ Byte.quote ∉ rest.tail)
    (hchar : rest.head? ≠ some Byte.quote → ∀ c, Text.ofChar c <+: rest → t = Text.ofChar c)
    (hbyte : rest.head? ≠ some Byte.quote → (∀ c, ¬ Text.ofChar c <+: rest) →
      ∃ b, rest.head? = some b ∧ t = [b]) : Munched rest .illegal t where
  longest h := absurd rfl h
  illegal := ⟨fun _ => hnone, fun _ => rfl⟩
  quote _ := hquote
  char _ := hchar
  byte _ := hbyte
  float := by
    refine ⟨fun h => (nomatch h), ?_⟩
    rintro ⟨whole, b, more, hwhole, -, rfl⟩
    exact absurd (List.prefix_append _ _) (hnone .int whole (.int hwhole))

/-- What starts a text is told by the text. -/
theorem unique {k' : TokenKind} {t' : Text} (h : Munched rest k t) (h' : Munched rest k' t') :
    k = k' ∧ t = t' := by
  by_cases hk : k = .illegal
  · obtain rfl : k' = .illegal := h'.illegal.mpr (h.illegal.mp hk)
    subst hk
    refine ⟨rfl, ?_⟩
    by_cases hquote : rest.head? = some Byte.quote
    · exact (h.quote rfl hquote).1.trans (h'.quote rfl hquote).1.symm
    · by_cases hchar : ∃ c, Text.ofChar c <+: rest
      · obtain ⟨c, hc⟩ := hchar
        exact (h.char rfl hquote c hc).trans (h'.char rfl hquote c hc).symm
      · rw [not_exists] at hchar
        obtain ⟨b, hb, rfl⟩ := h.byte rfl hquote hchar
        obtain ⟨b', hb', rfl⟩ := h'.byte rfl hquote hchar
        rw [hb, Option.some.injEq] at hb'
        rw [hb']
  · have hk' : k' ≠ .illegal := fun he => hk (h.illegal.mpr (h'.illegal.mp he))
    obtain ⟨hlex, hp, hmax⟩ := h.longest hk
    obtain ⟨hlex', hp', hmax'⟩ := h'.longest hk'
    have hlen := Nat.le_antisymm (hmax' _ _ hlex hp) (hmax _ _ hlex' hp')
    obtain rfl : t = t' :=
      (List.prefix_of_prefix_length_le hp hp' (Nat.le_of_eq hlen)).eq_of_length hlen
    exact ⟨hlex.kind_unique hlex', rfl⟩

end Munched

namespace Punct

variable {t : Text}

theorem ofText?_take {q : Punct} (hq : q.spelling <+: t) :
    ofText? (t.take q.spelling.length) = some q := by
  rw [← List.prefix_iff_eq_take.mp hq, ofText?_spelling]

theorem length_spelling_mem (p : Punct) : p.spelling.length ∈ [3, 2, 1] := by
  cases p <;> decide

/-- Of the marks at the front the longest is read. -/
theorem length_le_of_first? {p q : Punct} (hp : first? t = some p) (hq : q.spelling <+: t) :
    q.spelling.length ≤ p.spelling.length := by
  have hexact := ofText?_take hq
  have hmem := length_spelling_mem q
  have hle := hq.length_le
  obtain ⟨longer, n, shorter, hsplit, hn, hlonger⟩ := List.findSome?_eq_some_iff.mp hp
  rw [spelling_of_ofText? hn, List.length_take]
  suffices h : q.spelling.length ≤ n by omega
  rw [hsplit, List.mem_append, List.mem_cons] at hmem
  rcases hmem with hmem | hmem | hmem
  · rw [hlonger _ hmem] at hexact
    cases hexact
  · exact Nat.le_of_eq hmem
  · have hsorted : (longer ++ n :: shorter).Pairwise (· ≥ ·) := hsplit ▸ by decide
    exact (List.pairwise_cons.mp (List.pairwise_append.mp hsorted).2.1).1 _ hmem

theorem not_isPrefix_of_first? (hp : first? t = none) (q : Punct) : ¬ q.spelling <+: t := by
  intro hq
  have h := List.findSome?_eq_none_iff.mp hp _ (length_spelling_mem q)
  rw [ofText?_take hq] at h
  cases h

end Punct

namespace Lexeme

variable {b : UInt8} {rest : Text}

theorem boolOf?_isSome_iff {w : Text} : (boolOf? w).isSome = true ↔ w ∈ Vocabulary.booleans := by
  unfold boolOf?
  split
  · simp_all [boolText, Vocabulary.booleans]
  · split <;> simp_all [boolText, Vocabulary.booleans]

/-- A word is all there is of letters, underscores and digits. -/
theorem munched_word (hb : Byte.isLetter b = true) :
    Munched (b :: rest) (word ((b :: rest).takeWhile isWordByte)).kind
      ((b :: rest).takeWhile isWordByte) := by
  have hword : isWordByte b = true := by simp [isWordByte, hb]
  refine .of_longest ?_ (List.takeWhile_prefix _) ?_
  · have hw : IsWord ((b :: rest).takeWhile isWordByte) := by
      rw [List.takeWhile_cons_of_pos hword]
      refine ⟨b, _, rfl, hb, fun c hc => ?_⟩
      have := List.all_eq_true.mp List.all_takeWhile c hc
      simpa [isWordByte] using this
    simp only [kind, boolOf?_isSome_iff]
    split
    · next hbool => exact .bool hbool
    · next hother => exact .ident hw hother
  · intro k u hk hu
    obtain ⟨more, rfl, -⟩ := hk.exists_cons hu
    obtain ⟨⟨d, more', he, hd, hmore⟩, -⟩ := hk.isWord hb
    refine length_le_takeWhile hu fun e he' => ?_
    rw [he, List.mem_cons] at he'
    rcases he' with rfl | he'
    · simp [isWordByte, hd]
    · simpa [isWordByte] using hmore e he'

/-- Where a digit stands, a text of the grammar is no longer than the digits there, or no longer
than a decimal there, of which the front then shows the point and digits behind it. -/
theorem length_le_number (hb : Byte.isDigit b = true) {k : TokenKind} {u : Text}
    (hk : Lexical k u) (hu : u <+: b :: rest) :
    u.length ≤ ((b :: rest).takeWhile Byte.isDigit).length ∨
      ∃ more, (b :: rest).dropWhile Byte.isDigit = Byte.dot :: more ∧
        more.takeWhile Byte.isDigit ≠ [] ∧
        u.length ≤ ((b :: rest).takeWhile Byte.isDigit ++
          Byte.dot :: more.takeWhile Byte.isDigit).length := by
  obtain ⟨more, rfl, -⟩ := hk.exists_cons hu
  rcases hk.isNumber hb with ⟨-, hdigits⟩ | ⟨-, whole, fraction, he, hw, hf⟩
  · exact .inl (length_le_takeWhile hu hdigits.2)
  · obtain ⟨after, hafter⟩ := hu
    have hle := length_le_takeWhile (List.prefix_append fraction after) hf.2
    rw [he, List.append_assoc, List.cons_append] at hafter
    rw [← hafter, takeWhile_run_cons hw.2 (by decide), dropWhile_run_cons hw.2 (by decide), he]
    have hpos := List.length_pos_iff.mpr hf.1
    refine .inr ⟨_, rfl, List.length_pos_iff.mp (by omega), ?_⟩
    simp only [List.length_append, List.length_cons]
    omega

/-- A number is all there is of digits, with a point and all there is of digits after it where the
point has a digit after it. -/
theorem munched_number (hb : Byte.isDigit b = true) :
    Munched (b :: rest) (number (b :: rest)).kind (number (b :: rest)).text := by
  have hprefix := (number_text hb rest).2
  have hwhole : IsDigits ((b :: rest).takeWhile Byte.isDigit) :=
    ⟨by simp [hb], List.all_eq_true.mp List.all_takeWhile⟩
  revert hprefix
  unfold number
  dsimp only
  split
  · next hd =>
    intro hprefix
    refine .of_longest (.int hwhole) hprefix fun k u hk hu => ?_
    rcases length_le_number hb hk hu with h | ⟨more, hmore, -⟩
    · exact h
    · rw [hd] at hmore
      cases hmore
  · next c more hd =>
    split
    · next h =>
      intro hprefix
      obtain ⟨rfl, hne⟩ := h
      refine .of_longest (.float ⟨_, _, rfl, hwhole, hne, List.all_eq_true.mp List.all_takeWhile⟩)
        hprefix fun k u hk hu => ?_
      rcases length_le_number hb hk hu with h | ⟨more', hmore, -, h⟩
      · simp only [text, List.length_append]
        omega
      · rw [hd] at hmore
        cases hmore
        exact h
    · next h =>
      intro hprefix
      refine .of_longest (.int hwhole) hprefix fun k u hk hu => ?_
      rcases length_le_number hb hk hu with h' | ⟨more', hmore, hne, -⟩
      · exact h'
      · rw [hd] at hmore
        cases hmore
        exact absurd ⟨rfl, hne⟩ h

/-- A string runs through the next quote, and a quote without one stands alone. -/
theorem munched_quote :
    Munched (Byte.quote :: rest) (closedString rest).kind (closedString rest).text := by
  -- A string at the front shows its closing quote.
  have hcases : ∀ k u, Lexical k u → u <+: Byte.quote :: rest → ∃ inner after,
      u = Byte.quote :: (inner ++ [Byte.quote]) ∧ rest = inner ++ Byte.quote :: after ∧
        Byte.quote ∉ inner := by
    intro k u hk hu
    obtain ⟨more, rfl, hmore⟩ := hk.exists_cons hu
    obtain ⟨-, inner, he, hinner⟩ := hk.isQuoted
    cases he
    obtain ⟨after, rfl⟩ := hmore
    exact ⟨inner, after, rfl, by simp, hinner⟩
  unfold closedString
  split
  · next hclosed =>
    have hprefix := (List.prefix_cons_inj Byte.quote).mpr (takeWhile_quote hclosed)
    refine .of_longest (.string ⟨_, rfl, ?_⟩) hprefix fun k u hk hu => ?_
    · intro hmem
      have := List.all_eq_true.mp List.all_takeWhile _ hmem
      simp at this
    · obtain ⟨inner, after, rfl, rfl, hinner⟩ := hcases k u hk hu
      rw [takeWhile_run_cons (fun b hb => by
        simp only [bne_iff_ne]
        rintro rfl
        exact hinner hb) (by simp)]
      exact Nat.le_refl _
  · next hnone =>
    refine .of_none (fun k u hk hu => ?_) (fun _ => ⟨rfl, hnone⟩) (fun h => absurd rfl h)
      (fun h => absurd rfl h)
    obtain ⟨inner, after, -, rfl, -⟩ := hcases k u hk hu
    exact hnone (by simp)

/-- What starts none of the lexemes is one character, or one byte. -/
theorem munched_stray (hnone : ∀ k u, Lexical k u → ¬ u <+: b :: rest) (hq : b ≠ Byte.quote) :
    Munched (b :: rest) (stray (b :: rest)).kind (stray (b :: rest)).text := by
  unfold stray
  split
  · next c hc =>
    rw [Utf8.char?_eq_some_iff] at hc
    refine .of_none hnone (fun h => absurd (Option.some.inj h) hq) (fun _ d hd => ?_)
      fun _ h => absurd hc (h c)
    obtain rfl : c = d := by
      rw [← Utf8.char?_eq_some_iff] at hc hd
      exact Option.some.inj (hc.symm.trans hd)
    rw [text, List.prefix_iff_eq_take.mp hd, Text.length_ofChar]
  · next hc =>
    rw [Utf8.char?_eq_none_iff] at hc
    exact .of_none hnone (fun h => absurd (Option.some.inj h) hq) (fun _ d hd => absurd hd (hc d))
      fun _ _ => ⟨b, rfl, rfl⟩

/-- The reader takes the token that the text starts with. -/
theorem munched_first? {t : Text} {l : Lexeme} (h : first? t = some l) :
    Munched t l.kind l.text := by
  have hprefix := (first?_text h).2
  unfold first? at h
  split at h
  · cases h
  · next b rest =>
    split at h
    · next hb =>
      cases h
      exact munched_word hb
    · next hletter =>
      rw [Bool.not_eq_true] at hletter
      split at h
      · next hb =>
        cases h
        exact munched_number hb
      · next hdigit =>
        rw [Bool.not_eq_true] at hdigit
        split at h
        · next hb =>
          cases h
          subst hb
          exact munched_quote
        · next hquote =>
          have hmark : ∀ k u, Lexical k u → u <+: b :: rest → ∃ q : Punct, u = q.spelling := by
            intro k u hk hu
            obtain ⟨more, rfl, -⟩ := hk.exists_cons hu
            obtain ⟨q, -, hq⟩ := hk.isMark hletter hdigit hquote
            exact ⟨q, hq⟩
          split at h
          · next p hp =>
            cases h
            refine .of_longest (.punct p) hprefix fun k u hk hu => ?_
            obtain ⟨q, rfl⟩ := hmark k u hk hu
            exact Punct.length_le_of_first? hp hu
          · next hp =>
            cases h
            refine munched_stray (fun k u hk hu => ?_) hquote
            obtain ⟨q, rfl⟩ := hmark k u hk hu
            exact Punct.not_isPrefix_of_first? hp q hu

end Lexeme

/-- What starts a comment, and what joins two lines. -/
def Trivia.openings : List Text :=
  [[Byte.slash, Byte.slash], [Byte.slash, Byte.star], [Byte.backslash, Byte.lineFeed],
    [Byte.backslash, Byte.carriageReturn, Byte.lineFeed]]

namespace Trivia

variable {t rest : Text}

theorem continuation?_eq_none (h : ¬ [Byte.lineFeed] <+: rest)
    (h' : ¬ [Byte.carriageReturn, Byte.lineFeed] <+: rest) : continuation? rest = none := by
  have ht : rest.take 1 ≠ [Byte.lineFeed] := fun he => h (he ▸ List.take_prefix 1 rest)
  have ht' : rest.take 2 ≠ [Byte.carriageReturn, Byte.lineFeed] :=
    fun he => h' (he ▸ List.take_prefix 2 rest)
  rw [continuation?, if_neg ht, if_neg ht']

theorem comment?_eq_none (h : ¬ [Byte.slash] <+: rest) (h' : ¬ [Byte.star] <+: rest) :
    comment? rest = none := by
  cases rest with
  | nil => rfl
  | cons c more =>
    have hc : c ≠ Byte.slash := fun he => h (he ▸ ⟨more, rfl⟩)
    have hc' : c ≠ Byte.star := fun he => h' (he ▸ ⟨more, rfl⟩)
    simp only [comment?, hc, hc', if_false]

/-- Between two tokens stand blanks and what is opened, and no more. -/
theorem first?_eq_none_iff : first? t = none ↔
    (∀ b ∈ t.head?, isBlankByte b = false) ∧ ∀ opening ∈ openings, ¬ opening <+: t := by
  cases t with
  | nil => simp [first?, openings]
  | cons b rest =>
    constructor
    · intro h
      refine ⟨?_, ?_⟩
      · rintro c ⟨⟩
        cases hb : isBlankByte b with
        | false => rfl
        | true => simp [first?, hb] at h
      · rintro opening ho ⟨more, he⟩
        rw [← he] at h
        simp only [openings, List.mem_cons, List.not_mem_nil, or_false] at ho
        rcases ho with rfl | rfl | rfl | rfl <;> cases h
    · rintro ⟨hblank, hopening⟩
      have hb := hblank b rfl
      have hrest : ∀ more, b :: more ∈ openings → ¬ more <+: rest := fun more hm hp =>
        hopening _ hm ((List.prefix_cons_inj b).mpr hp)
      simp only [first?, hb, Bool.false_eq_true, if_false]
      split
      · next hb =>
        subst hb
        exact continuation?_eq_none (hrest _ (by decide)) (hrest _ (by decide))
      · split
        · next hb =>
          subst hb
          exact comment?_eq_none (hrest _ (by decide)) (hrest _ (by decide))
        · rfl

theorem lt_of_isBlankByte {b : UInt8} (h : isBlankByte b = true) : b < 0x80 := by
  grind [isBlankByte]

end Trivia

/-- What is read where no blank stands is a string if there is a blank in it. -/
theorem Lexeme.isQuoted_of_isBlankByte {t : Text} {l : Lexeme} {b : UInt8}
    (hbare : Trivia.first? t = none) (hl : first? t = some l) (hb : b ∈ l.text)
    (hblank : Trivia.isBlankByte b = true) : l.kind = .string ∧ IsQuoted l.text := by
  have hmunched := munched_first? hl
  by_cases hk : l.kind = .illegal
  · exfalso
    -- An illegal lexeme with a blank would be that blank, at the front.
    have hhead : t.head? ≠ some b := fun hh => by
      rw [(Trivia.first?_eq_none_iff.mp hbare).1 b hh] at hblank
      cases hblank
    by_cases hquote : t.head? = some Byte.quote
    · rw [(hmunched.quote hk hquote).1, List.mem_singleton] at hb
      exact hhead (hb ▸ hquote)
    · by_cases hchar : ∃ c, Text.ofChar c <+: t
      · obtain ⟨c, hc⟩ := hchar
        rw [hmunched.char hk hquote c hc] at hb
        obtain ⟨after, hafter⟩ := hc
        rw [Text.ofChar_eq_singleton hb (Trivia.lt_of_isBlankByte hblank)] at hafter
        exact hhead (by rw [← hafter]; rfl)
      · rw [not_exists] at hchar
        obtain ⟨c, hc, htext⟩ := hmunched.byte hk hquote hchar
        rw [htext, List.mem_singleton] at hb
        exact hhead (hb ▸ hc)
  · obtain ⟨hlex, -, -⟩ := hmunched.longest hk
    have hquoted := hlex.isQuoted_of_isBlankByte hb hblank
    obtain ⟨inner, he, hinner⟩ := hquoted
    rw [he] at hlex ⊢
    exact hlex.isQuoted

/-- The scanner makes a token of the lexeme where it settles. -/
structure Token.ReadAt (t : Token) (rest : Text) : Prop where
  bare : Trivia.first? rest = none
  lexeme : Lexeme.first? rest = t.lexeme?

namespace Scanner

theorem next_readAt (s : Scanner) : s.next.1.ReadAt s.settled.rest := by
  refine ⟨Trivia.first?_after_gapWithin _ s.rest (Nat.le_refl _), ?_⟩
  cases hl : Lexeme.first? s.settled.rest with
  | none => rw [next_of_none hl]
  | some l => rw [next_of_some hl]

theorem readAt_of_mem_tokensWithin {text : Text} {count : Nat} {s : Scanner} (hs : s.Within text)
    {t : Token} (ht : t ∈ (tokensWithin count s).1) : t.ReadAt (text.drop t.span.start) := by
  induction count generalizing s with
  | zero => cases ht
  | succ count ih =>
    have hnext : s.next.1.ReadAt (text.drop s.next.1.span.start) := by
      have hdrop : s.settled.rest = text.drop s.settled.position.offset := hs.skip _
      rw [Token.span, next_position, ← hdrop]
      exact s.next_readAt
    by_cases hl : s.next.1.lexeme? = none
    · rw [tokensWithin_succ_of_none hl, List.mem_singleton] at ht
      rwa [ht]
    · rw [tokensWithin_succ_of_some hl] at ht
      rcases List.mem_cons.mp ht with rfl | ht
      · exact hnext
      · exact ih hs.next ht

end Scanner

theorem readAt_of_mem_tokenize {text : Text} {t : Token} (ht : t ∈ tokenize text) :
    t.ReadAt (text.drop t.span.start) :=
  Scanner.readAt_of_mem_tokensWithin (s := .start text) rfl ht

/-- Every token is the longest text of the grammar that stands where it starts, or illegal where
none does. The end token stands at the end, and no token where a comment or a joined line break
starts. -/
theorem tokens_munch (text : Text) : ∀ t ∈ tokenize text,
    (t.kind = .eof ↔ text.drop t.span.start = []) ∧
      (t.kind ≠ .eof → Munched (text.drop t.span.start) t.kind t.text) ∧
      ∀ opening ∈ Trivia.openings, ¬ opening <+: text.drop t.span.start := by
  intro t ht
  have hread := readAt_of_mem_tokenize ht
  refine ⟨?_, ?_, (Trivia.first?_eq_none_iff.mp hread.bare).2⟩
  · rw [Token.kind_eq_eof_iff, ← hread.lexeme]
    refine ⟨Lexeme.eq_nil_of_first?, fun hrest => ?_⟩
    rw [hrest]
    rfl
  · intro hkind
    obtain ⟨l, hl⟩ := Option.ne_none_iff_exists'.mp (mt t.kind_eq_eof_iff.mpr hkind)
    have hmunched := Lexeme.munched_first? (hread.lexeme.trans hl)
    simpa only [Token.kind, Token.text, hl] using hmunched

/-- A number with a point but no digit behind it, and the first byte of a character that is cut off:
the point is a token by itself, and so is the byte. -/
theorem tokens_munch_truncated :
    let text := Text.ofString "5.x" ++ [0xE2, 0x82] ++ Text.ofString ">>=\"a"
    (tokenize text).map (fun t => (t.span.start, t.kind, t.text)) =
      [(0, .int, Text.ofString "5"), (1, .punct .dot, Text.ofString "."),
        (2, .ident, Text.ofString "x"), (3, .illegal, [0xE2]), (4, .illegal, [0x82]),
        (5, .punct .shiftRightAssign, Text.ofString ">>="), (8, .illegal, [Byte.quote]),
        (9, .ident, Text.ofString "a"), (10, .eof, [])] ∧
      Munched (text.drop 3) .illegal [0xE2] ∧ ¬ [Byte.slash, Byte.slash] <+: text.drop 3 := by
  intro text
  refine ⟨by decide +kernel, ?_⟩
  have hmem : (3, TokenKind.illegal, [0xE2]) ∈
      (tokenize text).map fun t => (t.span.start, t.kind, t.text) := by
    decide +kernel
  obtain ⟨t, ht, he⟩ := List.mem_map.mp hmem
  simp only [Prod.mk.injEq] at he
  obtain ⟨hstart, hkind, htext⟩ := he
  obtain ⟨-, hmunched, hopening⟩ := tokens_munch text t ht
  rw [hstart, hkind, htext] at hmunched
  rw [hstart] at hopening
  exact ⟨hmunched (by decide), hopening _ (by decide)⟩

end ShaderSyntax
