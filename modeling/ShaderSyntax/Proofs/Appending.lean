import ShaderSyntax.Proofs.Shifting

/-!
# More lines after a text

A text that ends with its last lexeme keeps its tokens when a line feed and any other text follow it:
a legal lexeme is never read past a line feed, and no comment is left open. The tokens after them are
those of the other text by itself, so many bytes and lines further on.
-/
namespace ShaderSyntax

theorem takeWhile_append_cons {p : UInt8 → Bool} {c : UInt8} (hc : p c = false) (t more : Text) :
    (t ++ c :: more).takeWhile p = t.takeWhile p := by
  induction t with
  | nil => simp [hc]
  | cons b t ih => cases hb : p b <;> simp [hb, ih]

theorem dropWhile_append_cons {p : UInt8 → Bool} {c : UInt8} (hc : p c = false) (t more : Text) :
    (t ++ c :: more).dropWhile p = t.dropWhile p ++ c :: more := by
  induction t with
  | nil => simp [hc]
  | cons b t ih => cases hb : p b <;> simp [hb, ih]

namespace Trivia

/-- A line comment that ended before the end of the text was ended by its line. -/
theorem lineComment_append (escaped : Bool) (t more : Text) (h : lineComment escaped t ≠ t) :
    lineComment escaped (t ++ more) = lineComment escaped t := by
  fun_induction lineComment escaped t with
  | case1 => exact absurd rfl h
  | case2 escaped rest ih =>
    have hrest : lineComment true rest ≠ rest := by simpa using h
    simp [lineComment, ih hrest]
  | case3 b rest hb ih =>
    have hrest : lineComment (b = Byte.carriageReturn ∧ rest.head? = some Byte.lineFeed) rest ≠
        rest := by simpa using h
    have hhead : (rest ++ more).head? = rest.head? := by
      cases rest with
      | nil => exact absurd rfl hrest
      | cons c rest => rfl
    simp only [List.cons_append, lineComment, hb, if_false, if_true, hhead, ih hrest]
  | case4 escaped rest he hb => rw [List.cons_append, lineComment, if_neg hb, if_neg he, if_pos rfl]
  | case5 escaped b rest hb he hl ih =>
    have hrest : lineComment false rest ≠ rest := by simpa using h
    simp [lineComment, hb, he, hl, ih hrest]

theorem blockComment_append (t more : Text) (h : blockComment t ≠ t) :
    blockComment (t ++ more) = blockComment t := by
  fun_induction blockComment t with
  | case1 => exact absurd rfl h
  | case2 b rest hb =>
    obtain ⟨rfl, hr⟩ := hb
    obtain ⟨tail, rfl⟩ := List.head?_eq_some_iff.mp hr
    simp [blockComment]
  | case3 b rest hb ih =>
    have hrest : blockComment rest ≠ rest := by simpa using h
    have hhead : (rest ++ more).head? = rest.head? := by
      cases rest with
      | nil => exact absurd rfl hrest
      | cons c rest => rfl
    simp only [List.cons_append, blockComment, hhead, hb, if_false, ih hrest]

theorem continuation?_append {rest : Text} {piece : Trivia} (h : continuation? rest = some piece)
    (more : Text) : continuation? (rest ++ more) = some piece := by
  rcases rest with _ | ⟨b, _ | ⟨c, rest⟩⟩
  · cases h
  · have hb : b = Byte.lineFeed := by
      by_contra hb
      simp [continuation?, hb] at h
    subst hb
    simpa [continuation?] using h
  · simpa [continuation?] using h

theorem comment?_append {rest : Text} {piece : Trivia} (h : comment? rest = some piece)
    (hlt : piece.text.length < rest.length + 1) (more : Text) :
    comment? (rest ++ more) = some piece := by
  cases rest with
  | nil => cases h
  | cons b rest =>
    simp only [List.cons_append, comment?] at h ⊢
    split at h
    · next hline =>
      cases h
      have hne : lineComment false rest ≠ rest := by
        intro he
        simp [text, he] at hlt
      rw [if_pos hline, lineComment_append false rest more hne]
    · next hline =>
      split at h
      · next hblock =>
        cases h
        have hne : blockComment rest ≠ rest := by
          intro he
          simp [text, he] at hlt
        rw [if_neg hline, if_pos hblock, blockComment_append rest more hne]
      · cases h

/-- A piece that something follows is there whatever else follows. -/
theorem first?_append {t : Text} {piece : Trivia} (h : first? t = some piece)
    (hlt : piece.text.length < t.length) (more : Text) : first? (t ++ more) = some piece := by
  cases t with
  | nil => cases h
  | cons b rest =>
    simp only [List.cons_append, first?] at h ⊢
    split at h
    · next hb => rw [if_pos hb, h]
    · next hb =>
      split at h
      · next hs => rw [if_neg hb, if_pos hs, continuation?_append h]
      · next hs =>
        split at h
        · next hc => rw [if_neg hb, if_neg hs, if_pos hc, comment?_append h hlt]
        · cases h

end Trivia

namespace Lexeme

def isLegal : Lexeme → Bool
  | illegal _ => false
  | _ => true

theorem number_append (t more : Text) : number (t ++ Byte.lineFeed :: more) = number t := by
  unfold number
  rw [takeWhile_append_cons (by decide), dropWhile_append_cons (by decide)]
  cases t.dropWhile Byte.isDigit with
  | nil => simp [show ¬Byte.lineFeed = Byte.dot by decide]
  | cons b rest =>
    simp only [List.cons_append]
    rw [takeWhile_append_cons (by decide)]

theorem closedString_append {rest : Text} (h : Byte.quote ∈ rest) (more : Text) :
    closedString (rest ++ more) = closedString rest := by
  have htake : (rest ++ more).takeWhile (· != Byte.quote) = rest.takeWhile (· != Byte.quote) := by
    induction rest with
    | nil => cases h
    | cons b rest ih =>
      by_cases hb : b = Byte.quote
      · simp [hb]
      · have hr : Byte.quote ∈ rest := by simpa [Ne.symm hb] using h
        simp [hb, ih hr]
  simp [closedString, h, htake]

end Lexeme

namespace Punct

theorem lineFeed_not_mem_spelling (p : Punct) : Byte.lineFeed ∉ p.spelling := by
  cases p <;> decide

theorem ofText?_lineFeed {t : Text} (h : Byte.lineFeed ∈ t) : ofText? t = none := by
  cases hp : ofText? t with
  | none => rfl
  | some p =>
    rw [← spelling_of_ofText? hp] at h
    exact absurd h (lineFeed_not_mem_spelling p)

/-- No mark is read across a line feed. -/
theorem first?_append (t more : Text) (ht : t ≠ []) :
    first? (t ++ Byte.lineFeed :: more) = first? t := by
  rcases t with _ | ⟨b, _ | ⟨c, _ | ⟨d, t⟩⟩⟩
  · exact absurd rfl ht
  · have h₃ : ofText? (List.take 3 ([b] ++ Byte.lineFeed :: more)) = none :=
      ofText?_lineFeed (by simp)
    have h₂ : ofText? (List.take 2 ([b] ++ Byte.lineFeed :: more)) = none :=
      ofText?_lineFeed (by simp)
    simp only [first?, List.findSome?, h₃, h₂]
    cases h : ofText? [b] <;> simp [h]
  · have h₃ : ofText? (List.take 3 ([b, c] ++ Byte.lineFeed :: more)) = none :=
      ofText?_lineFeed (by simp)
    simp only [first?, List.findSome?, h₃]
    cases h : ofText? [b, c] <;> simp [h]
  · simp [first?, List.findSome?]

end Punct

namespace Lexeme

theorem isLegal_stray (t : Text) : (stray t).isLegal = false := by
  unfold stray
  split <;> rfl

/-- A legal lexeme ends at a line feed at the latest. -/
theorem first?_append {t : Text} {l : Lexeme} (h : first? t = some l) (hl : l.isLegal = true)
    (more : Text) : first? (t ++ Byte.lineFeed :: more) = some l := by
  cases t with
  | nil => cases h
  | cons b rest =>
    have hword := takeWhile_append_cons (p := isWordByte) (c := Byte.lineFeed) (by decide)
      (b :: rest) more
    have hnumber := number_append (b :: rest) more
    have hpunct := Punct.first?_append (b :: rest) more (List.cons_ne_nil b rest)
    rw [List.cons_append] at hword hnumber hpunct
    simp only [List.cons_append, first?, hword, hnumber, hpunct] at h ⊢
    split at h
    · next hb => rw [if_pos hb, h]
    · next hb =>
      split at h
      · next hd => rw [if_neg hb, if_pos hd, h]
      · next hd =>
        split at h
        · next hq =>
          have hmem : Byte.quote ∈ rest := by
            by_contra hmem
            simp only [closedString, hmem, if_false, Option.some.injEq] at h
            rw [← h] at hl
            cases hl
          rw [if_neg hb, if_neg hd, if_pos hq, closedString_append hmem, h]
        · next hq =>
          rw [if_neg hb, if_neg hd, if_neg hq]
          split at h
          · exact h
          · next hp =>
            injection h with h
            rw [← h, isLegal_stray] at hl
            cases hl

/-- No legal lexeme starts with a backslash. -/
theorem ne_backslash {rest : Text} {l : Lexeme} (h : first? (Byte.backslash :: rest) = some l) :
    l.isLegal = false := by
  have hp : Punct.first? (Byte.backslash :: rest) = none := by
    cases hp : Punct.first? (Byte.backslash :: rest) with
    | none => rfl
    | some p =>
      have hprefix := Punct.first?_spelling hp
      cases p <;> exact absurd (List.cons_prefix_cons.mp hprefix).1 (by decide)
  have hstray : first? (Byte.backslash :: rest) = some (stray (Byte.backslash :: rest)) := by
    simp [first?, hp, show Byte.isLetter Byte.backslash = false by decide,
      show Byte.isDigit Byte.backslash = false by decide,
      show ¬Byte.backslash = Byte.quote by decide]
  rw [hstray] at h
  injection h with h
  rw [← h, isLegal_stray]

end Lexeme

namespace Trivia

/-- Where a legal lexeme starts, no trivia starts even if a line feed follows. -/
theorem first?_append_none {t : Text} {l : Lexeme} (h : first? t = none)
    (hfirst : Lexeme.first? t = some l) (hl : l.isLegal = true) (more : Text) :
    first? (t ++ Byte.lineFeed :: more) = none := by
  cases t with
  | nil => cases hfirst
  | cons b rest =>
    have hb : b ≠ Byte.backslash := by
      rintro rfl
      rw [Lexeme.ne_backslash hfirst] at hl
      cases hl
    simp only [List.cons_append, first?, if_neg hb] at h ⊢
    split at h
    · cases h
    · next hblank =>
      rw [if_neg hblank]
      split at h
      · next hs =>
        rw [if_pos hs]
        cases rest with
        | nil => rfl
        | cons c rest =>
          simp only [List.cons_append, comment?] at h ⊢
          split at h
          · cases h
          · next hline =>
            split at h
            · cases h
            · next hblock => rw [if_neg hline, if_neg hblock]
      · next hs => rw [if_neg hs]

/-- The number of rounds does not matter where it is enough. -/
theorem gapWithin_eq (count count' : Nat) (t : Text) (hc : t.length ≤ count)
    (hc' : t.length ≤ count') : gapWithin count t = gapWithin count' t := by
  induction count generalizing count' t with
  | zero =>
    obtain rfl : t = [] := List.length_eq_zero_iff.mp (by omega)
    cases count' <;> rfl
  | succ count ih =>
    cases count' with
    | zero =>
      obtain rfl : t = [] := List.length_eq_zero_iff.mp (by omega)
      rfl
    | succ count' =>
      unfold gapWithin
      split
      · rfl
      · next piece hp =>
        have hpos := List.length_pos_iff.mpr (first?_text hp).1
        rw [ih count' _ (by rw [List.length_drop]; omega) (by rw [List.length_drop]; omega)]

/-- A gap before a legal lexeme is the same gap when a line feed follows the text. -/
theorem gapWithin_append (count : Nat) (t : Text) (hc : t.length ≤ count) {l : Lexeme}
    (hfirst : Lexeme.first? (t.drop ((gapWithin count t).flatMap text).length) = some l)
    (hl : l.isLegal = true) (more : Text) :
    gapWithin count (t ++ Byte.lineFeed :: more) = gapWithin count t := by
  induction count generalizing t with
  | zero => rfl
  | succ count ih =>
    cases hp : first? t with
    | none =>
      have hgap : gapWithin (count + 1) t = [] := by simp only [gapWithin, hp]
      rw [hgap] at hfirst ⊢
      simp only [gapWithin, first?_append_none hp hfirst hl more]
    | some piece =>
      have hgap : gapWithin (count + 1) t =
          piece :: gapWithin count (t.drop piece.text.length) := by simp only [gapWithin, hp]
      obtain ⟨hne, hprefix⟩ := first?_text hp
      have hpos := List.length_pos_iff.mpr hne
      rw [hgap, List.flatMap_cons, List.length_append, ← List.drop_drop] at hfirst
      have hlt : piece.text.length < t.length := by
        by_contra hge
        rw [List.drop_eq_nil_of_le (Nat.le_of_not_lt hge), List.drop_nil] at hfirst
        cases hfirst
      rw [hgap]
      simp only [gapWithin, first?_append hp hlt]
      rw [List.drop_append_of_le_length (Nat.le_of_lt hlt),
        ih (t.drop piece.text.length) (by rw [List.length_drop]; omega) hfirst]

theorem gap_append (t : Text) {l : Lexeme}
    (hfirst : Lexeme.first? (t.drop ((gap t).flatMap text).length) = some l)
    (hl : l.isLegal = true) (more : Text) : gap (t ++ Byte.lineFeed :: more) = gap t := by
  have hle : t.length ≤ (t ++ Byte.lineFeed :: more).length := by simp
  have hgap : gapWithin (t ++ Byte.lineFeed :: more).length t = gap t :=
    gapWithin_eq _ _ t hle (Nat.le_refl _)
  rw [← hgap] at hfirst ⊢
  exact gapWithin_append _ t hle hfirst hl more

theorem gapWithin_isPrefix (count : Nat) (t : Text) : (gapWithin count t).flatMap text <+: t := by
  induction count generalizing t with
  | zero => exact List.nil_prefix
  | succ count ih =>
    unfold gapWithin
    split
    · exact List.nil_prefix
    · next piece hp =>
      obtain ⟨more, rfl⟩ := (first?_text hp).2
      rw [List.flatMap_cons, List.drop_left, List.prefix_append_right_inj]
      exact ih more

theorem gap_lineFeed (t : Text) :
    gap (Byte.lineFeed :: t) = .blank [Byte.lineFeed] :: gap t := by
  rfl

end Trivia

/-- The same column so many bytes and lines further on. -/
def Position.below (bytes lines : Nat) (p : Position) : Position :=
  ⟨bytes + p.offset, lines + p.line, p.column⟩

def Comment.below (bytes lines : Nat) (c : Comment) : Comment :=
  ⟨c.text, c.position.below bytes lines⟩

def Token.below (bytes lines : Nat) (t : Token) : Token :=
  ⟨t.lexeme?, t.position.below bytes lines, t.comments.map (Comment.below bytes lines)⟩

def Scanner.below (bytes lines : Nat) (s : Scanner) : Scanner :=
  ⟨s.rest, s.position.below bytes lines⟩

section Below

variable {bytes lines : Nat}

namespace Position

theorem next_below (p : Position) (b : UInt8) :
    (p.below bytes lines).next b = (p.next b).below bytes lines := by
  unfold next below
  split <;> simp [Nat.add_assoc]

theorem after_below (p : Position) (t : Text) :
    (p.below bytes lines).after t = (p.after t).below bytes lines := by
  induction t generalizing p with
  | nil => rfl
  | cons b t ih => rw [after_cons, next_below, ih, after_cons]

theorem line_after (p : Position) (t : Text) :
    (p.after t).line = p.line + t.count Byte.lineFeed := by
  induction t generalizing p with
  | nil => rfl
  | cons b t ih =>
    rw [after_cons, ih]
    unfold next
    split
    · next hb => simp only [hb, List.count_cons_self]; omega
    · next hb => simp [List.count_cons_of_ne hb]

end Position

theorem Comment.ofTrivia_below (p : Position) (pieces : List Trivia) :
    ofTrivia (p.below bytes lines) pieces = (ofTrivia p pieces).map (below bytes lines) := by
  induction pieces generalizing p with
  | nil => rfl
  | cons piece pieces ih =>
    cases piece with
    | blank t => simp only [ofTrivia, Position.after_below, ih]
    | comment t => simp only [ofTrivia, Position.after_below, ih, List.map_cons]; rfl

namespace Scanner

variable (s : Scanner)

theorem skip_below (t : Text) : (s.below bytes lines).skip t = (s.skip t).below bytes lines := by
  simp only [skip, below, Position.after_below]

theorem next_below : (s.below bytes lines).next =
    (s.next.1.below bytes lines, s.next.2.below bytes lines) := by
  have hsettled : (s.below bytes lines).settled = s.settled.below bytes lines := s.skip_below _
  have hcomments : Comment.ofTrivia (s.position.below bytes lines) (Trivia.gap s.rest) =
      (Comment.ofTrivia s.position (Trivia.gap s.rest)).map (Comment.below bytes lines) :=
    Comment.ofTrivia_below s.position _
  cases hl : Lexeme.first? s.settled.rest with
  | none =>
    have hl' : Lexeme.first? (s.below bytes lines).settled.rest = none := by rw [hsettled]; exact hl
    rw [next_of_none hl, next_of_none hl', hsettled]
    simp only [below, Token.below, hcomments]
  | some l =>
    have hl' : Lexeme.first? (s.below bytes lines).settled.rest = some l := by
      rw [hsettled]; exact hl
    rw [next_of_some hl, next_of_some hl', hsettled, skip_below]
    simp only [below, Token.below, hcomments]

theorem tokensWithin_below (count : Nat) : (tokensWithin count (s.below bytes lines)).1 =
    (tokensWithin count s).1.map (Token.below bytes lines) := by
  induction count generalizing s with
  | zero => rfl
  | succ count ih =>
    simp only [tokensWithin, next_below]
    cases hl : s.next.1.lexeme? with
    | none => simp [Token.below, hl]
    | some l => simp [Token.below, hl, ih]

end Scanner

end Below

namespace Scanner

/-- The number of rounds does not matter where it is enough. -/
theorem tokensWithin_eq (count count' : Nat) (s : Scanner) (hc : s.rest.length < count)
    (hc' : s.rest.length < count') : (tokensWithin count s).1 = (tokensWithin count' s).1 := by
  induction count generalizing count' s with
  | zero => omega
  | succ count ih =>
    obtain ⟨more, rfl⟩ : ∃ more, count' = more + 1 := ⟨count' - 1, by omega⟩
    by_cases hl : s.next.1.lexeme? = none
    · rw [tokensWithin_succ_of_none hl, tokensWithin_succ_of_none hl]
    · have hlt := length_next_lt hl
      rw [tokensWithin_succ_of_some hl, tokensWithin_succ_of_some hl,
        ih more s.next.2 (by omega) (by omega)]

/-- The place at the end of the text. -/
def finish (s : Scanner) : Position :=
  s.position.after s.rest

theorem finish_skip {s : Scanner} {t : Text} (h : t <+: s.rest) : (s.skip t).finish = s.finish := by
  obtain ⟨more, hmore⟩ := h
  rw [finish, finish, skip, ← hmore, Position.after_append, List.drop_left]

theorem finish_next (s : Scanner) : s.next.2.finish = s.finish := by
  have hsettled : s.settled.finish = s.finish :=
    finish_skip (Trivia.gapWithin_isPrefix s.rest.length s.rest)
  cases hl : Lexeme.first? s.settled.rest with
  | none => rw [next_of_none hl, hsettled]
  | some l => rw [next_of_some hl, finish_skip (Lexeme.first?_text hl).2, hsettled]

/-- The same scanner with a line feed and another text at the end. -/
def followed (more : Text) (s : Scanner) : Scanner :=
  ⟨s.rest ++ Byte.lineFeed :: more, s.position⟩

/-- A legal lexeme is the next token whatever lines follow the text. -/
theorem next_followed {s : Scanner} {l : Lexeme} (h : s.next.1.lexeme? = some l)
    (hl : l.isLegal = true) (more : Text) :
    (s.followed more).next = (s.next.1, s.next.2.followed more) := by
  have hfirst : Lexeme.first? s.settled.rest = some l := by
    cases hf : Lexeme.first? s.settled.rest with
    | none => rw [next_of_none hf] at h; cases h
    | some l' => rw [next_of_some hf] at h; exact h
  have hlen : ((Trivia.gap s.rest).flatMap Trivia.text).length ≤ s.rest.length := by
    by_contra hgt
    rw [settled, skip, List.drop_eq_nil_of_le (by omega)] at hfirst
    cases hfirst
  have hgap : Trivia.gap (s.followed more).rest = Trivia.gap s.rest :=
    Trivia.gap_append s.rest hfirst hl more
  have hsettled : (s.followed more).settled = s.settled.followed more := by
    rw [settled, hgap]
    simp only [settled, followed, skip, List.drop_append_of_le_length hlen]
  have hfirst' : Lexeme.first? (s.followed more).settled.rest = some l := by
    rw [hsettled]
    exact Lexeme.first?_append hfirst hl more
  have hle : l.text.length ≤ s.settled.rest.length := (Lexeme.first?_text hfirst).2.length_le
  rw [next_of_some hfirst, next_of_some hfirst', hsettled, hgap]
  simp only [followed, skip, List.drop_append_of_le_length hle]

/-- A line feed is only a gap. -/
theorem tokensWithin_lineFeed (count : Nat) (t : Text) (p : Position) :
    (tokensWithin count ⟨Byte.lineFeed :: t, p⟩).1 =
      (tokensWithin count ⟨t, p.next Byte.lineFeed⟩).1 := by
  have hnext : (⟨Byte.lineFeed :: t, p⟩ : Scanner).next = next ⟨t, p.next Byte.lineFeed⟩ := by
    simp only [next, Trivia.gap_lineFeed, List.flatMap_cons, Trivia.text, Comment.ofTrivia, skip,
      List.singleton_append, List.length_cons, List.drop_succ_cons, Position.after_cons,
      Position.after_nil]
  cases count with
  | zero => rfl
  | succ count => simp only [tokensWithin, hnext]

/-- Where the last of the tokens stops, or the place given if there is none. -/
def lastStop (start : Nat) (body : List Token) : Nat :=
  body.foldl (fun _ t => t.span.stop) start

theorem lastStop_eq (start : Nat) (body : List Token) :
    lastStop start body = (body.getLast?.map fun t => t.span.stop).getD start := by
  rcases List.eq_nil_or_concat body with rfl | ⟨front, t, rfl⟩
  · rfl
  · simp [lastStop]

/-- Legal tokens to the very end of the text are its tokens whatever lines follow it. No comment is
left for the end token. -/
theorem tokensWithin_followed (more : Text) {body : List Token} {last : Token}
    (hbody : ∀ t ∈ body, ∃ l, t.lexeme? = some l ∧ l.isLegal = true)
    {count count' : Nat} {s : Scanner} (hc : s.rest.length < count)
    (hc' : (s.followed more).rest.length < count')
    (h : (tokensWithin count s).1 = body ++ [last])
    (hend : lastStop s.position.offset body = s.finish.offset) :
    last.comments = [] ∧ (tokensWithin count' (s.followed more)).1 =
      body ++ (tokens ⟨more, s.finish.next Byte.lineFeed⟩).1 := by
  induction body generalizing count count' s with
  | nil =>
    have hrest : s.rest = [] := by
      have hoff : s.position.offset = s.position.offset + s.rest.length := by
        rw [← Position.offset_after]
        exact hend
      exact List.length_eq_zero_iff.mp (by omega)
    have hfinish : s.finish = s.position := by rw [finish, hrest, Position.after_nil]
    have hs : s.followed more = ⟨Byte.lineFeed :: more, s.position⟩ := by
      rw [followed, hrest, List.nil_append]
    have hlen : more.length < count' := by
      rw [hs] at hc'
      simp only [List.length_cons] at hc'
      omega
    refine ⟨?_, ?_⟩
    · obtain ⟨rounds, rfl⟩ : ∃ rounds, count = rounds + 1 := ⟨count - 1, by omega⟩
      rw [← head_tokensWithin h]
      simp [next, hrest, Trivia.gap, Trivia.gapWithin, skip, Lexeme.first?, Comment.ofTrivia]
    · rw [hs, tokensWithin_lineFeed, hfinish, List.nil_append]
      exact tokensWithin_eq _ _ _ hlen (Nat.lt_succ_self _)
  | cons t body ih =>
    obtain ⟨rounds, rfl⟩ : ∃ rounds, count = rounds + 1 := ⟨count - 1, by omega⟩
    obtain ⟨rounds', rfl⟩ : ∃ rounds', count' = rounds' + 1 := ⟨count' - 1, by omega⟩
    have ht : s.next.1 = t := head_tokensWithin h
    obtain ⟨l, hl, hlegal⟩ := hbody t (by simp)
    rw [← ht] at hl
    have hne : s.next.1.lexeme? ≠ none := by simp [hl]
    rw [tokensWithin_succ_of_some hne, List.cons_append] at h
    injection h with _ h
    have hlt := length_next_lt hne
    have hnext := next_followed hl hlegal more
    have hne' : (s.followed more).next.1.lexeme? ≠ none := by rw [hnext]; exact hne
    have hstop : s.next.2.position.offset = s.next.1.span.stop := by
      obtain ⟨gap, hpos, -, hafter, -⟩ := s.next_spec
      rw [hafter, offset_skip, ← hpos]
      rfl
    have hlen : (s.next.2.followed more).rest.length < rounds' := by
      simp only [followed, List.length_append] at hc' ⊢
      omega
    have hrest : lastStop s.next.2.position.offset body = s.next.2.finish.offset := by
      rw [finish_next, hstop, ht]
      exact hend
    obtain ⟨hcomments, hmore⟩ := ih (fun u hu => hbody u (by simp [hu])) (by omega) hlen h hrest
    refine ⟨hcomments, ?_⟩
    rw [tokensWithin_succ_of_some hne', hnext, ht, List.cons_append, hmore, finish_next]

end Scanner

/-- The tokens of a text that ends with its last lexeme, and then those of the text on the lines after
it. The first text has no comment but those before its lexemes. -/
theorem tokenize_append {text : Text} (more : Text)
    (hlegal : ∀ t ∈ written text, ∃ l, t.lexeme? = some l ∧ l.isLegal = true)
    (hend : Scanner.lastStop 0 (written text) = text.length) :
    comments (tokenize text) = comments (written text) ∧
      tokenize (text ++ Byte.lineFeed :: more) = written text ++
        (tokenize more).map
          (Token.below (text.length + 1) (text.count Byte.lineFeed + 1)) := by
  obtain ⟨last, htokens, hscan⟩ := tokenize_scan text
  have hoffset : (Scanner.start text).finish.offset = text.length := by
    rw [Scanner.finish, Position.offset_after]
    exact Nat.zero_add _
  have hline : (Scanner.start text).finish.line = 1 + text.count Byte.lineFeed :=
    Position.line_after .start text
  have hfinish : (Scanner.start text).finish.next Byte.lineFeed =
      Position.start.below (text.length + 1) (text.count Byte.lineFeed + 1) := by
    rw [Position.next, if_pos rfl, hoffset, hline]
    simp only [Position.below, Position.start, Position.mk.injEq, and_true, true_and]
    omega
  obtain ⟨hcomments, hfollowed⟩ := Scanner.tokensWithin_followed more hlegal (Nat.lt_succ_self _)
    (Nat.lt_succ_self _) htokens (by rw [hoffset]; exact hend)
  rw [hfinish] at hfollowed
  refine ⟨by simp [htokens, comments, hcomments], ?_⟩
  exact hfollowed.trans (congrArg _ (Scanner.tokensWithin_below (.start more) _))

end ShaderSyntax
