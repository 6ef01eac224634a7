import ShaderSyntax.Proofs.Layout
import ShaderSyntax.Proofs.Munching

/-!
# Tokens with blanks between them

Every token is closed in itself: spaces and tabs behind it end it where it ended before, whatever it
was, and start nothing. So the spellings of the tokens of any text, with spaces and tabs between
each two, have the same tokens again, the illegal ones too.
-/
namespace ShaderSyntax

def Byte.IsSpacing (b : UInt8) : Prop :=
  b = Byte.space ∨ b = Byte.tab

instance (b : UInt8) : Decidable (Byte.IsSpacing b) :=
  inferInstanceAs (Decidable (_ ∨ _))

/-- The texts in order, with spaces and tabs between each two. -/
inductive Joined : List Text → Text → Prop
  | nil : Joined [] []
  | single (t : Text) : Joined [t] t
  | cons {t u sep joined : Text} {us : List Text} (ne_nil : sep ≠ [])
      (spacing : ∀ b ∈ sep, Byte.IsSpacing b) (more : Joined (u :: us) joined) :
      Joined (t :: u :: us) (t ++ (sep ++ joined))

/-- Nothing follows, or a space or a tab. -/
def Parted (rest : Text) : Prop :=
  ∀ b ∈ rest.head?, Byte.IsSpacing b

theorem Joined.uncons {t joined : Text} {ts : List Text} (h : Joined (t :: ts) joined) :
    ∃ sep rest, joined = t ++ (sep ++ rest) ∧ Joined ts rest ∧
      (∀ b ∈ sep, Byte.IsSpacing b) ∧ Parted (sep ++ rest) := by
  cases h with
  | single => exact ⟨[], [], by simp, .nil, by simp, by simp [Parted]⟩
  | cons ne_nil spacing more =>
    refine ⟨_, _, rfl, more, spacing, ?_⟩
    obtain ⟨b, sep, rfl⟩ := List.exists_cons_of_ne_nil ne_nil
    rintro c ⟨⟩
    exact spacing b (by simp)

theorem Joined.mem {joined : Text} {ts : List Text} (h : Joined ts joined) {b : UInt8}
    (hb : b ∈ joined) : Byte.IsSpacing b ∨ ∃ t ∈ ts, b ∈ t := by
  induction h with
  | nil => simp at hb
  | single t => exact .inr ⟨t, by simp, hb⟩
  | cons ne_nil spacing more ih =>
    rcases List.mem_append.mp hb with hb | hb
    · exact .inr ⟨_, by simp, hb⟩
    · rcases List.mem_append.mp hb with hb | hb
      · exact .inl (spacing b hb)
      · rcases ih hb with hs | ⟨t, ht, hbt⟩
        · exact .inl hs
        · exact .inr ⟨t, List.mem_cons_of_mem _ ht, hbt⟩

section Parting

variable {k : TokenKind} {b : UInt8} {rest rest' t u : Text}

/-- What goes on past the end of a text takes the space or tab behind it. -/
theorem isPrefix_or_spacing (h : u <+: t ++ rest) (hr : Parted rest) :
    u <+: t ∨ t <+: u ∧ t.length < u.length ∧ ∃ b ∈ u, Byte.IsSpacing b := by
  rcases List.prefix_or_prefix_of_prefix h (List.prefix_append t rest) with hu | ⟨v, rfl⟩
  · exact .inl hu
  · rw [List.prefix_append_right_inj] at h
    cases v with
    | nil => exact .inl (by simp)
    | cons b v =>
      obtain ⟨more, rfl⟩ := h
      exact .inr ⟨List.prefix_append _ _, by simp, b, by simp, hr b rfl⟩

theorem Byte.IsSpacing.isBlankByte (h : IsSpacing b) : Trivia.isBlankByte b = true := by
  rcases h with rfl | rfl <;> decide

namespace Munched

theorem isPrefix (h : Munched rest k t) : t ≠ [] ∧ t <+: rest := by
  by_cases hk : k = .illegal
  · by_cases hquote : rest.head? = some Byte.quote
    · obtain ⟨more, rfl⟩ := List.head?_eq_some_iff.mp hquote
      obtain ⟨rfl, -⟩ := h.quote hk hquote
      exact ⟨by simp, more, rfl⟩
    · by_cases hchar : ∃ c, Text.ofChar c <+: rest
      · obtain ⟨c, hc⟩ := hchar
        rw [h.char hk hquote c hc]
        refine ⟨List.ne_nil_of_length_pos ?_, hc⟩
        rw [Text.length_ofChar]
        exact c.utf8Size_pos
      · rw [not_exists] at hchar
        obtain ⟨b, hb, rfl⟩ := h.byte hk hquote hchar
        obtain ⟨more, rfl⟩ := List.head?_eq_some_iff.mp hb
        exact ⟨by simp, more, rfl⟩
  · obtain ⟨hlex, hp, -⟩ := h.longest hk
    exact ⟨hlex.ne_nil, hp⟩

/-- A legal token does not go on past a space or a tab: only a string could, and it is closed. -/
theorem respaced_legal (h : Munched rest k t) (hk : k ≠ .illegal) (hr : Parted rest') :
    Munched (t ++ rest') k t := by
  obtain ⟨hlex, hp, -⟩ := h.longest hk
  refine .of_longest hlex (List.prefix_append _ _) fun k' u hu hpu => ?_
  rcases isPrefix_or_spacing hpu hr with hut | ⟨htu, hlt, b, hb, hs⟩
  · exact hut.length_le
  · exfalso
    obtain ⟨inner, rfl, hinner⟩ := hu.isQuoted_of_isBlankByte hb hs.isBlankByte
    obtain ⟨more, rfl, hmore⟩ := hlex.exists_cons htu
    obtain ⟨-, inner', he, -⟩ := hlex.isQuoted
    cases he
    rcases List.prefix_concat_iff.mp hmore with he | hp'
    · rw [he] at hlt
      exact Nat.lt_irrefl _ hlt
    · exact hinner (hp'.subset (by simp))

/-- An illegal token stays one: with what follows it, it starts no text of the grammar and no other
character. -/
theorem respaced_illegal (h : Munched rest .illegal t) (hr : Parted rest')
    (hq : t = [Byte.quote] → Byte.quote ∉ rest') : Munched (t ++ rest') .illegal t := by
  obtain ⟨hne, hp⟩ := h.isPrefix
  obtain ⟨b, more, rfl⟩ := List.exists_cons_of_ne_nil hne
  by_cases hquote : b = Byte.quote
  · subst hquote
    have hhead : rest.head? = some Byte.quote := by
      obtain ⟨after, rfl⟩ := hp
      rfl
    obtain ⟨ht, -⟩ := h.quote rfl hhead
    cases ht
    refine .of_none (fun k u hk hu => ?_) (fun _ => ⟨rfl, hq rfl⟩) (fun hn => absurd rfl hn)
      fun hn => absurd rfl hn
    obtain ⟨more, rfl, hmore⟩ := hk.exists_cons hu
    obtain ⟨-, inner, he, -⟩ := hk.isQuoted
    cases he
    exact hq rfl (hmore.subset (by simp))
  · have hhead : rest.head? ≠ some Byte.quote := by
      obtain ⟨after, rfl⟩ := hp
      simpa using hquote
    have hchar : ∀ c, Text.ofChar c <+: b :: more ++ rest' → b :: more = Text.ofChar c := by
      intro c hc
      rcases isPrefix_or_spacing hc hr with hc | ⟨-, hlt, d, hd, hs⟩
      · exact h.char rfl hhead c (hc.trans hp)
      · rw [Text.ofChar_eq_singleton hd (Trivia.lt_of_isBlankByte hs.isBlankByte)] at hlt
        simp at hlt
    refine .of_none (fun k u hk hu => ?_) (fun hn => ?_) (fun _ => hchar) fun _ hnone => ?_
    · rcases isPrefix_or_spacing hu hr with hu | ⟨htu, -, d, hd, hs⟩
      · exact h.illegal.mp rfl k u hk (hu.trans hp)
      · obtain ⟨inner, rfl, -⟩ := hk.isQuoted_of_isBlankByte hd hs.isBlankByte
        exact hquote (List.cons_prefix_cons.mp htu).1
    · exact absurd (Option.some.inj hn) hquote
    · by_cases hc : ∃ c, Text.ofChar c <+: rest
      · obtain ⟨c, hc⟩ := hc
        have ht := h.char rfl hhead c hc
        exact absurd (ht ▸ List.prefix_append _ _) (hnone c)
      · rw [not_exists] at hc
        obtain ⟨d, -, ht⟩ := h.byte rfl hhead hc
        cases ht
        exact ⟨b, rfl, rfl⟩

end Munched

/-- No comment and no joined line break starts in front of a space or a tab. -/
theorem Trivia.first?_respaced (h : first? rest = none) (hp : t <+: rest) (ht : t ≠ [])
    (hr : Parted rest') : first? (t ++ rest') = none := by
  rw [first?_eq_none_iff] at h ⊢
  refine ⟨?_, fun opening ho hpo => ?_⟩
  · obtain ⟨b, more, rfl⟩ := List.exists_cons_of_ne_nil ht
    obtain ⟨after, rfl⟩ := hp
    exact h.1
  · rcases isPrefix_or_spacing hpo hr with hpo | ⟨-, -, b, hb, hs⟩
    · exact h.2 opening ho (hpo.trans hp)
    · have hnone : ∀ o ∈ openings, ∀ c ∈ o, ¬ Byte.IsSpacing c := by decide +kernel
      exact hnone opening ho b hb hs

end Parting

namespace Lexeme

/-- The lexeme stands at the head of some text. -/
def Readable (l : Lexeme) : Prop :=
  ∃ rest, Trivia.first? rest = none ∧ first? rest = some l

/-- A lexeme that was read anywhere is read where nothing follows it, or a space or a tab. A quote
without a partner must find none in what follows. -/
theorem Readable.respaced {l : Lexeme} (h : l.Readable) {rest' : Text} (hr : Parted rest')
    (hq : l.text = [Byte.quote] → Byte.quote ∉ rest') :
    Trivia.first? (l.text ++ rest') = none ∧ first? (l.text ++ rest') = some l := by
  obtain ⟨rest, hbare, hl⟩ := h
  obtain ⟨hne, hp⟩ := first?_text hl
  have hmunched := munched_first? hl
  refine ⟨Trivia.first?_respaced hbare hp hne hr, ?_⟩
  have hagain : Munched (l.text ++ rest') l.kind l.text := by
    by_cases hk : l.kind = .illegal
    · rw [hk] at hmunched ⊢
      exact hmunched.respaced_illegal hr hq
    · exact hmunched.respaced_legal hk hr
  cases hm : first? (l.text ++ rest') with
  | none => exact absurd (eq_nil_of_first? hm) (by simp [hne])
  | some m =>
    obtain ⟨hkind, htext⟩ := (munched_first? hm).unique hagain
    rw [← m.spelled?_kind_text, hkind, htext, l.spelled?_kind_text]

end Lexeme

/-- Before a lexeme spaces and tabs are all the gap there is. -/
theorem Trivia.gapWithin_spacing {sep rest : Text} (hs : ∀ b ∈ sep, Byte.IsSpacing b)
    (hrest : first? rest = none) {count : Nat} (hc : sep.length ≤ count) :
    (gapWithin count (sep ++ rest)).flatMap text = sep := by
  induction sep generalizing count with
  | nil =>
    cases count with
    | zero => rfl
    | succ count => simp [gapWithin, hrest]
  | cons b sep ih =>
    obtain ⟨count, rfl⟩ : ∃ more, count = more + 1 := ⟨count - 1, by simp at hc; omega⟩
    have hb := (hs b List.mem_cons_self).isBlankByte
    have hsep := ih (fun c hc' => hs c (List.mem_cons_of_mem _ hc')) (by simpa using hc)
    simp only [List.cons_append, gapWithin, first?, hb, if_true, text, List.length_singleton,
      List.drop_succ_cons, List.drop_zero, List.flatMap_cons, hsep, List.cons_append,
      List.nil_append]

namespace Scanner

theorem settled_spacing {s : Scanner} {sep rest : Text} (h : s.rest = sep ++ rest)
    (hs : ∀ b ∈ sep, Byte.IsSpacing b) (hrest : Trivia.first? rest = none) :
    s.settled.rest = rest := by
  have hlen : sep.length ≤ (sep ++ rest).length := by simp
  rw [settled, skip, Trivia.gap, h, Trivia.gapWithin_spacing hs hrest hlen]
  exact List.drop_left

/-- Joined lexemes are read one by one. -/
theorem lexemes_tokensWithin_joined {ls : List Lexeme} (hread : ∀ l ∈ ls, l.Readable)
    (hquote : ls.Pairwise fun l m => l.text = [Byte.quote] → Byte.quote ∉ m.text)
    {joined sep : Text} (hj : Joined (ls.map Lexeme.text) joined)
    (hs : ∀ b ∈ sep, Byte.IsSpacing b) {s : Scanner} (hrest : s.rest = sep ++ joined)
    {count : Nat} (hc : s.rest.length < count) : lexemes (tokensWithin count s).1 = ls := by
  obtain ⟨count, rfl⟩ : ∃ more, count = more + 1 := ⟨count - 1, by omega⟩
  induction ls generalizing joined sep s count with
  | nil =>
    cases hj
    have hnone : Lexeme.first? s.settled.rest = none := by
      rw [settled_spacing hrest hs rfl]
      rfl
    exact lexemes_tokensWithin_none (by rw [next_of_none hnone]) count
  | cons l ls ih =>
    obtain ⟨hl, hls⟩ := List.forall_mem_cons.mp hread
    obtain ⟨hpartner, hquote⟩ := List.pairwise_cons.mp hquote
    obtain ⟨sep', joined', rfl, hj, hs', hparted⟩ := hj.uncons
    have hlone : l.text = [Byte.quote] → Byte.quote ∉ sep' ++ joined' := by
      intro hlone hmem
      rcases List.mem_append.mp hmem with hmem | hmem
      · exact absurd (hs' _ hmem) (by decide)
      · rcases hj.mem hmem with hmem | ⟨t, ht, hmem⟩
        · exact absurd hmem (by decide)
        · obtain ⟨m, hm, rfl⟩ := List.mem_map.mp ht
          exact hpartner m hm hlone hmem
    obtain ⟨hbare, hfirst⟩ := hl.respaced hparted hlone
    have hsettled := settled_spacing hrest hs hbare
    have hnext := next_of_some (hsettled ▸ hfirst)
    have hafter : s.next.2.rest = sep' ++ joined' := by
      rw [hnext, skip, hsettled, List.drop_left]
    have hlexeme : s.next.1.lexeme? = some l := by rw [hnext]
    have hlt := length_next_lt (by simp [hlexeme] : s.next.1.lexeme? ≠ none)
    obtain ⟨count, rfl⟩ : ∃ more, count = more + 1 := ⟨count - 1, by omega⟩
    rw [lexemes_tokensWithin_some hlexeme, ih hls hquote hj hs' hafter count (by omega)]

end Scanner

theorem text_written (text : Text) :
    (written text).map Token.text = (Source.ofText text).lexemes.map Lexeme.text :=
  (Source.run_lexemes text).texts

/-- The lexemes of a text tell the kinds and spellings of all its tokens. -/
theorem kinds_tokenize (text : Text) : (tokenize text).map (fun t => (t.kind, t.text)) =
    (Source.ofText text).lexemes.map (fun l => (l.kind, l.text)) ++ [(.eof, [])] := by
  obtain ⟨last, htokens, hscan⟩ := tokenize_scan text
  -- The kind and the spelling are those of a token with the same lexeme anywhere.
  have hsomewhere : ∀ tokens : List Token, tokens.map (fun t => (t.kind, t.text)) =
      (tokens.map Token.lexeme?).map fun l? =>
        (Token.kind ⟨l?, .start, []⟩, Token.text ⟨l?, .start, []⟩) := by
    intro tokens
    rw [List.map_map]
    rfl
  rw [htokens, hsomewhere, List.map_append, List.map_append, (Source.run_lexemes text).lexemes,
    List.map_map, List.map_singleton, hscan.finish]
  rfl

/-- A quote without a partner has no quote behind it. -/
theorem lone_quote (text : Text) : ((written text).map Token.text).Pairwise fun t u =>
    t = [Byte.quote] → Byte.quote ∉ u := by
  obtain ⟨last, -, hscan⟩ := tokenize_scan text
  have hordered := (List.pairwise_append.mp hscan.ordered).1
  rw [List.pairwise_map]
  refine hordered.imp_of_mem fun {t u} ht hu hstop htext hmem => ?_
  obtain ⟨l, hl⟩ := Option.isSome_iff_exists.mp (hscan.lexeme t ht)
  have hread := readAt_of_mem_tokenize (List.mem_of_mem_filter ht)
  have hmunched := Lexeme.munched_first? (hread.lexeme.trans hl)
  have hlt : l.text = [Byte.quote] := by simpa only [Token.text, hl] using htext
  obtain ⟨hne, hp⟩ := hmunched.isPrefix
  rw [hlt] at hmunched hp
  have hkind : l.kind = .illegal := by
    by_contra hk
    obtain ⟨-, inner, he, -⟩ := (hmunched.longest hk).1.isQuoted
    simp at he
  obtain ⟨more, hmore⟩ := hp
  obtain ⟨-, hnone⟩ := hmunched.quote hkind (by rw [← hmore]; rfl)
  -- The later token lies behind the quote.
  have hsub := (hscan.placed u hu).2.subset hmem
  rw [List.tail_drop] at hnone
  have hspan : t.span.stop = t.span.start + 1 := by
    change t.span.start + t.text.length = _
    rw [htext]
    rfl
  obtain ⟨n, hn⟩ := Nat.exists_eq_add_of_le hstop
  rw [hn, hspan, ← List.drop_drop] at hsub
  exact hnone (List.mem_of_mem_drop hsub)

theorem readable_lexemes (text : Text) : ∀ l ∈ (Source.ofText text).lexemes, l.Readable := by
  intro l hl
  obtain ⟨t, ht, hlexeme⟩ := List.mem_filterMap.mp hl
  have hread := readAt_of_mem_tokenize ht
  exact ⟨_, hread.bare, hread.lexeme.trans hlexeme⟩

/-- The spellings of the tokens of a text, joined by spaces and tabs, have the same tokens. -/
theorem sameTokens_joined {text joined : Text}
    (h : Joined ((written text).map Token.text) joined) : SameTokens joined text := by
  have hquote := lone_quote text
  rw [text_written] at h hquote
  rw [List.pairwise_map] at hquote
  have hlexemes : (Source.ofText joined).lexemes = (Source.ofText text).lexemes :=
    Scanner.lexemes_tokensWithin_joined (readable_lexemes text) hquote h (List.forall_mem_nil _)
      (s := .start joined) rfl (Nat.lt_succ_self _)
  unfold SameTokens
  rw [kinds_tokenize, kinds_tokenize, hlexemes]

/-- A quote and a backslash by themselves, two slashes apart and the first byte of a character. -/
theorem sameTokens_joined_stray :
    let text := Text.ofString "\"\\/ /" ++ [0xE2]
    let joined := Text.ofString "\"\t\\  / \t/ " ++ [0xE2]
    (written text).map Token.text =
      [[Byte.quote], [Byte.backslash], [Byte.slash], [Byte.slash], [0xE2]] ∧
      Joined ((written text).map Token.text) joined ∧ SameTokens joined text := by
  intro text joined
  have htexts : (written text).map Token.text =
      [[Byte.quote], [Byte.backslash], [Byte.slash], [Byte.slash], [0xE2]] := by decide +kernel
  have hjoined : Joined ((written text).map Token.text) joined := by
    have heq : joined = [Byte.quote] ++ ([Byte.tab] ++ ([Byte.backslash] ++
        ([Byte.space, Byte.space] ++ ([Byte.slash] ++ ([Byte.space, Byte.tab] ++
          ([Byte.slash] ++ ([Byte.space] ++ [0xE2]))))))) := by decide +kernel
    rw [htexts, heq]
    exact .cons (by simp) (by decide +kernel) (.cons (by simp) (by decide +kernel)
      (.cons (by simp) (by decide +kernel) (.cons (by simp) (by decide +kernel) (.single _))))
  exact ⟨htexts, hjoined, sameTokens_joined hjoined⟩

end ShaderSyntax
