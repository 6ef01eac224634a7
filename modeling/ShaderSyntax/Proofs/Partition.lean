import Mathlib.Data.List.Nodup
import ShaderSyntax.Proofs.Shifting
import ShaderSyntax.Proofs.Trivia

/-!
# The segments of a text

A text is a row of segments: blanks, comments and tokens. Before every token stands a gap of blanks
and comments, and the comments of the gap are the comments of the token. The end token stands behind
the last gap, at the end of the text. So no byte is lost, and no comment is told twice.
-/
namespace ShaderSyntax

/-- From `start` to `stop` the text holds blanks and the comments in order, and nothing else. -/
inductive Gap (text : Text) : Nat → List Comment → Nat → Prop
  | nil (start : Nat) : Gap text start [] start
  | blank {start stop : Nat} {comments : List Comment} {t : Text} (form : Trivia.IsBlank t)
      (placed : t <+: text.drop start) (more : Gap text (start + t.length) comments stop) :
      Gap text start comments stop
  | comment {start stop : Nat} {comments : List Comment} {c : Comment}
      (starts : c.span.start = start) (placed : c.text <+: text.drop start)
      (form : Trivia.IsComment c.text (text.drop c.span.stop))
      (more : Gap text c.span.stop comments stop) : Gap text start (c :: comments) stop

/-- The pieces that are read from the front of what is left make a gap. -/
theorem gap_gapWithin (text : Text) (count : Nat) (p : Position) :
    Gap text p.offset (Comment.ofTrivia p (Trivia.gapWithin count (text.drop p.offset)))
      (p.offset + ((Trivia.gapWithin count (text.drop p.offset)).flatMap Trivia.text).length) := by
  induction count generalizing p with
  | zero => exact .nil p.offset
  | succ count ih =>
    cases hf : Trivia.first? (text.drop p.offset) with
    | none =>
      simp only [Trivia.gapWithin, hf]
      exact .nil p.offset
    | some piece =>
      obtain ⟨-, hplaced⟩ := Trivia.first?_text hf
      have hstands := Trivia.first?_stands hf
      have hmore := ih (p.after piece.text)
      rw [Position.offset_after, ← List.drop_drop] at hmore
      simp only [Trivia.gapWithin, hf, List.flatMap_cons, List.length_append]
      rw [← Nat.add_assoc]
      rw [List.drop_drop] at hstands
      cases piece with
      | blank t => exact .blank hstands hplaced hmore
      | comment t => exact .comment rfl hplaced hstands hmore

namespace Gap

variable {text : Text} {start stop : Nat} {cs : List Comment}

theorem le_stop (h : Gap text start cs stop) : start ≤ stop := by
  induction h with
  | nil => exact Nat.le_refl _
  | blank _ _ _ ih => omega
  | @comment start stop _ c starts _ _ _ ih =>
    have hc : c.span.start ≤ c.span.stop := Nat.le_add_right _ _
    omega

theorem stop_le (h : Gap text start cs stop) (hs : start ≤ text.length) : stop ≤ text.length := by
  induction h with
  | nil => exact hs
  | blank _ placed _ ih =>
    have hlen := placed.length_le
    rw [List.length_drop] at hlen
    exact ih (by omega)
  | @comment start stop _ c starts placed _ _ ih =>
    have hlen := placed.length_le
    rw [List.length_drop] at hlen
    have hc : c.span.stop = c.span.start + c.text.length := rfl
    exact ih (by omega)

/-- The comments of a gap lie in it one after the other, none of them empty. -/
theorem comments (h : Gap text start cs stop) :
    (∀ c ∈ cs, start ≤ c.span.start ∧ c.span.start < c.span.stop ∧ c.span.stop ≤ stop ∧
        c.text <+: text.drop c.span.start) ∧
      cs.Pairwise fun a b => a.span.stop ≤ b.span.start := by
  induction h with
  | nil => simp
  | blank _ _ _ ih =>
    refine ⟨?_, ih.2⟩
    intro c hc
    obtain ⟨hstart, hrest⟩ := ih.1 c hc
    exact ⟨by omega, hrest⟩
  | @comment start stop _ c starts placed form more ih =>
    have hlt : c.span.start < c.span.stop := Nat.lt_add_of_pos_right form.length_pos
    constructor
    · intro c' hc'
      rcases List.mem_cons.mp hc' with rfl | hc'
      · exact ⟨by omega, hlt, more.le_stop, starts ▸ placed⟩
      · obtain ⟨hstart, hrest⟩ := ih.1 c' hc'
        exact ⟨by omega, hrest⟩
    · exact .cons (fun c' hc' => (ih.1 c' hc').1) ih.2

end Gap

/-- The tokens stand in the text from `start` on, each behind its gap, and after the last of them
the text is at its end. -/
def Tiled (text : Text) : Nat → List Token → Prop
  | start, [] => start = text.length
  | start, t :: rest =>
    Gap text start t.comments t.span.start ∧ t.text <+: text.drop t.span.start ∧
      Tiled text t.span.stop rest

/-- Something can be read wherever there is something. -/
theorem Lexeme.eq_nil_of_first? {t : Text} (h : first? t = none) : t = [] := by
  cases t with
  | nil => rfl
  | cons b rest =>
    unfold first? at h
    grind

namespace Scanner

variable {text : Text} {s : Scanner}

theorem comments_next (s : Scanner) :
    s.next.1.comments = Comment.ofTrivia s.position (Trivia.gap s.rest) := by
  cases hl : Lexeme.first? s.settled.rest with
  | none => rw [next_of_none hl]
  | some l => rw [next_of_some hl]

theorem Within.gap (h : s.Within text) :
    Gap text s.position.offset s.next.1.comments s.next.1.span.start := by
  have hgap := gap_gapWithin text s.rest.length s.position
  rw [← h] at hgap
  have hstart : s.next.1.span.start = s.position.offset +
      ((Trivia.gap s.rest).flatMap Trivia.text).length := by
    change s.next.1.position.offset = _
    rw [next_position, settled, offset_skip]
  rw [hstart, comments_next]
  exact hgap

theorem Within.placed (h : s.Within text) : s.next.1.text <+: text.drop s.next.1.span.start := by
  obtain ⟨gap, hpos, hprefix, -, -⟩ := s.next_spec
  have hrest : (s.skip gap).rest = text.drop (s.skip gap).position.offset := h.skip gap
  change _ <+: text.drop s.next.1.position.offset
  rw [hpos, ← hrest]
  exact hprefix

/-- A scanner that finds no lexeme is at the end of the text. -/
theorem Within.length_le (h : s.Within text) (hl : s.next.1.lexeme? = none) :
    text.length ≤ s.next.1.span.start := by
  have hfirst : Lexeme.first? s.settled.rest = none := by
    cases hf : Lexeme.first? s.settled.rest with
    | none => rfl
    | some l =>
      rw [next_of_some hf] at hl
      cases hl
  have hw : s.settled.rest = text.drop s.settled.position.offset := h.skip _
  rw [Lexeme.eq_nil_of_first? hfirst, eq_comm, List.drop_eq_nil_iff, ← next_position] at hw
  exact hw

/-- With a round for every byte left, the tokens come to the end of the text. -/
theorem tiled_tokensWithin (count : Nat) (s : Scanner) (hs : s.Within text)
    (hle : s.position.offset ≤ text.length) (hc : s.rest.length < count) :
    Tiled text s.position.offset (tokensWithin count s).1 := by
  induction count generalizing s with
  | zero => omega
  | succ count ih =>
    have hgap := hs.gap
    have hplaced := hs.placed
    have hstop := hplaced.length_le
    rw [List.length_drop] at hstop
    have hstart := hgap.stop_le hle
    have hspan : s.next.1.span.stop = s.next.1.span.start + s.next.1.text.length := rfl
    by_cases hl : s.next.1.lexeme? = none
    · have hend := hs.length_le hl
      have htext : s.next.1.text = [] := by simp only [Token.text, hl]
      rw [htext, List.length_nil] at hspan
      rw [tokensWithin_succ_of_none hl]
      exact ⟨hgap, hplaced, by change s.next.1.span.stop = text.length; omega⟩
    · have hoffset : s.next.2.position.offset = s.next.1.span.stop := by
        obtain ⟨gap, hpos, -, hnext, -⟩ := s.next_spec
        rw [hnext, offset_skip, ← hpos]
        rfl
      have hlt := length_next_lt hl
      have hrest := ih s.next.2 hs.next (by omega) (by omega)
      rw [tokensWithin_succ_of_some hl]
      exact ⟨hgap, hplaced, hoffset ▸ hrest⟩

end Scanner

theorem tokenize_tiled (text : Text) : Tiled text 0 (tokenize text) :=
  Scanner.tiled_tokensWithin (text.length + 1) (.start text) rfl (Nat.zero_le _)
    (Nat.lt_succ_self _)

/-- A segment of a text. -/
inductive Segment where
  | blank (text : Text)
  | comment (comment : Comment)
  | token (token : Token)

namespace Segment

def text : Segment → Text
  | blank t => t
  | comment c => c.text
  | token t => t.text

def comment? : Segment → Option Comment
  | comment c => some c
  | _ => none

def token? : Segment → Option Token
  | token t => some t
  | _ => none

/-- The segments make up the text from `start` to `stop`. The comments and the tokens among them are
those given, and all others are blanks. -/
structure Row (text : Text) (start stop : Nat) (cs : List Comment) (ts : List Token)
    (segments : List Segment) : Prop where
  text : text.drop start = segments.flatMap Segment.text ++ text.drop stop
  comments : segments.filterMap comment? = cs
  tokens : segments.filterMap token? = ts
  blanks : ∀ t, blank t ∈ segments → Trivia.IsBlank t

namespace Row

variable {source : Text} {start mid stop : Nat} {cs cs' : List Comment} {ts ts' : List Token}
  {segments segments' : List Segment}

theorem nil (source : Text) (start : Nat) : Row source start start [] [] [] :=
  ⟨rfl, rfl, rfl, by simp⟩

theorem append (h : Row source start mid cs ts segments)
    (h' : Row source mid stop cs' ts' segments') :
    Row source start stop (cs ++ cs') (ts ++ ts') (segments ++ segments') := by
  constructor
  · rw [h.text, h'.text, List.flatMap_append, List.append_assoc]
  · rw [List.filterMap_append, h.comments, h'.comments]
  · rw [List.filterMap_append, h.tokens, h'.tokens]
  · intro t ht
    rcases List.mem_append.mp ht with ht | ht
    · exact h.blanks t ht
    · exact h'.blanks t ht

/-- One segment at the front of what is left. -/
theorem single (segment : Segment) (h : segment.text <+: source.drop start)
    (hb : ∀ t, segment = blank t → Trivia.IsBlank t) :
    Row source start (start + segment.text.length) segment.comment?.toList segment.token?.toList
      [segment] := by
  obtain ⟨more, hm⟩ := h
  constructor
  · rw [← List.drop_drop, ← hm, List.drop_left]
    simp
  · cases segment <;> rfl
  · cases segment <;> rfl
  · intro t ht
    exact hb t (List.mem_singleton.mp ht).symm

end Row

end Segment

/-- A gap is a row of blanks and its comments. -/
theorem Gap.row {text : Text} {start stop : Nat} {cs : List Comment} (h : Gap text start cs stop) :
    ∃ segments, Segment.Row text start stop cs [] segments := by
  induction h with
  | nil start => exact ⟨[], .nil text start⟩
  | @blank start _ _ t form placed _ ih =>
    obtain ⟨segments, hp⟩ := ih
    have hfirst : Segment.Row text start (start + t.length) [] [] [.blank t] :=
      .single (.blank t) placed (by rintro u ⟨⟩; exact form)
    exact ⟨_, hfirst.append hp⟩
  | @comment _ _ _ c starts placed _ _ ih =>
    obtain ⟨segments, hp⟩ := ih
    subst starts
    have hfirst : Segment.Row text c.span.start c.span.stop [c] [] [.comment c] :=
      .single (.comment c) placed (by simp)
    exact ⟨_, hfirst.append hp⟩

namespace Tiled

variable {text : Text} {start : Nat} {tokens : List Token}

theorem row (h : Tiled text start tokens) :
    ∃ segments, Segment.Row text start text.length (comments tokens) tokens segments := by
  induction tokens generalizing start with
  | nil => exact ⟨[], h ▸ .nil text start⟩
  | cons t tokens ih =>
    obtain ⟨hgap, hplaced, hrest⟩ := h
    obtain ⟨before, hbefore⟩ := hgap.row
    obtain ⟨after, hafter⟩ := ih hrest
    have htoken : Segment.Row text t.span.start t.span.stop [] [t] [.token t] :=
      .single (.token t) hplaced (by simp)
    have hrow := hbefore.append (htoken.append hafter)
    exact ⟨_, hrow⟩

/-- A token is what stands in the text where it starts. -/
theorem placed (h : Tiled text start tokens) : ∀ t ∈ tokens, t.text <+: text.drop t.span.start := by
  induction tokens generalizing start with
  | nil => simp
  | cons t tokens ih => exact List.forall_mem_cons.mpr ⟨h.2.1, ih h.2.2⟩

/-- Before a token stands its gap, which starts where the token before it stops. -/
theorem gap {before after : List Token} {t : Token} (h : Tiled text start (before ++ t :: after)) :
    Gap text ((before.getLast?.map fun u => u.span.stop).getD start) t.comments t.span.start := by
  induction before generalizing start with
  | nil => exact h.1
  | cons u before ih =>
    have hrest := ih h.2.2
    rw [List.getLast?_cons]
    cases hb : before.getLast? with
    | none => simpa [hb] using hrest
    | some v => simpa [hb] using hrest

theorem stop_last {body : List Token} {last : Token} (h : Tiled text start (body ++ [last])) :
    last.span.stop = text.length := by
  induction body generalizing start with
  | nil => exact h.2.2
  | cons t body ih => exact ih h.2.2

theorem comments_ordered (h : Tiled text start tokens) :
    (∀ c ∈ comments tokens, start ≤ c.span.start ∧ c.span.start < c.span.stop ∧
        c.text <+: text.drop c.span.start) ∧
      (comments tokens).Pairwise fun a b => a.span.stop ≤ b.span.start := by
  induction tokens generalizing start with
  | nil => simp [comments]
  | cons t tokens ih =>
    obtain ⟨hgap, -, hrest⟩ := h
    obtain ⟨hin, hpair⟩ := hgap.comments
    obtain ⟨hin', hpair'⟩ := ih hrest
    have hstop : t.span.start ≤ t.span.stop := Nat.le_add_right _ _
    have hle := hgap.le_stop
    have hcons : comments (t :: tokens) = t.comments ++ comments tokens := rfl
    rw [hcons, List.pairwise_append]
    constructor
    · intro c hc
      rcases List.mem_append.mp hc with hc | hc
      · obtain ⟨hs, hlt, -, hp⟩ := hin c hc
        exact ⟨hs, hlt, hp⟩
      · obtain ⟨hs, hlt, hp⟩ := hin' c hc
        exact ⟨by omega, hlt, hp⟩
    · refine ⟨hpair, hpair', ?_⟩
      intro c hc c' hc'
      have := (hin c hc).2.2.1
      have := (hin' c' hc').1
      omega

end Tiled

/-- How the tokens of a text and their comments lie in it. -/
structure Partition (text : Text) (tokens : List Token) : Prop where
  /-- The end token is the last one, at the end of the text, and there is no other. -/
  finish : ∃ body last, tokens = body ++ [last] ∧ (∀ t ∈ body, t.kind ≠ .eof) ∧ last.kind = .eof ∧
    last.span = ⟨text.length, text.length⟩
  literal : ∀ t ∈ tokens, t.kind ≠ .eof →
    t.span.start < t.span.stop ∧ t.text = (Source.ofText text).slice t.span
  ordered : tokens.Pairwise fun a b => a.span.stop ≤ b.span.start
  /-- From the end of the token before, or from the start of the text. -/
  gaps : ∀ before t after, tokens = before ++ t :: after →
    Gap text ((before.getLast?.map fun u => u.span.stop).getD 0) t.comments t.span.start
  /-- The whole text is blanks, comments and tokens, put in a row. -/
  segments : ∃ segments : List Segment, segments.flatMap Segment.text = text ∧
    segments.filterMap Segment.token? = tokens ∧
    segments.filterMap Segment.comment? = comments tokens ∧
    ∀ t, .blank t ∈ segments → Trivia.IsBlank t
  comment : ∀ c ∈ comments tokens,
    c.span.start < c.span.stop ∧ c.text = (Source.ofText text).slice c.span
  commentsOrdered : (comments tokens).Pairwise fun a b => a.span.stop ≤ b.span.start
  attached : ∀ c ∈ comments tokens, ∃! i : Nat, ∃ t, tokens[i]? = some t ∧ c ∈ t.comments

theorem Token.kind_eq_eof_iff (t : Token) : t.kind = .eof ↔ t.lexeme? = none := by
  unfold Token.kind
  cases t.lexeme? with
  | none => simp
  | some l =>
    cases l with
    | word w =>
      simp only [Lexeme.kind]
      split <;> simp
    | _ => simp [Lexeme.kind]

/-- A comment that is not empty comes once only in a row of comments. -/
theorem attached_of_ordered {tokens : List Token}
    (hlt : ∀ c ∈ comments tokens, c.span.start < c.span.stop)
    (h : (comments tokens).Pairwise fun a b => a.span.stop ≤ b.span.start) {c : Comment}
    (hc : c ∈ comments tokens) : ∃! i : Nat, ∃ t, tokens[i]? = some t ∧ c ∈ t.comments := by
  have hnodup : (comments tokens).Nodup := by
    refine h.imp_of_mem ?_
    rintro a b ha - hab rfl
    have := hlt a ha
    omega
  unfold comments at hnodup hc
  rw [List.flatMap_def] at hnodup hc
  obtain ⟨i, ⟨l, hl, hcl⟩, hunique⟩ := existsUnique_of_mem_flatten hnodup hc
  rw [List.getElem?_map, Option.map_eq_some_iff] at hl
  obtain ⟨t, ht, rfl⟩ := hl
  refine ⟨i, ⟨t, ht, hcl⟩, ?_⟩
  rintro k ⟨u, hu, hcu⟩
  exact hunique k ⟨u.comments, by rw [List.getElem?_map, hu]; rfl, hcu⟩

/-- The last token and no other is an end token, and it stands at the end of the text. -/
theorem tokenize_finish (text : Text) :
    ∃ last, tokenize text = written text ++ [last] ∧ (∀ t ∈ written text, t.kind ≠ .eof) ∧
      last.kind = .eof ∧ last.span = ⟨text.length, text.length⟩ := by
  obtain ⟨last, htokens, hscan⟩ := tokenize_scan text
  have htiled := tokenize_tiled text
  rw [htokens] at htiled
  refine ⟨last, htokens, ?_, (Token.kind_eq_eof_iff last).mpr hscan.finish, ?_⟩
  · intro t ht hk
    have hsome := hscan.lexeme t ht
    rw [(Token.kind_eq_eof_iff t).mp hk] at hsome
    cases hsome
  · have hstop := htiled.stop_last
    have htext : last.text = [] := by simp only [Token.text, hscan.finish]
    simp only [Token.span, htext, List.length_nil, Nat.add_zero] at hstop ⊢
    rw [hstop]

/-- Tokens, comments and blanks partition every text, and the comments of a document are all that
its tokens carry, in the order of the text. -/
theorem tokens_partition (text : Text) :
    Partition text (tokenize text) ∧
      ∀ levels d, Document.parse levels text = .ok d → d.comments = comments (tokenize text) := by
  have htiled := tokenize_tiled text
  obtain ⟨hcomment, hordered⟩ := htiled.comments_ordered
  obtain ⟨last, htokens, hkind, hlast, hspan⟩ := tokenize_finish text
  obtain ⟨last', htokens', hscan⟩ := tokenize_scan text
  refine ⟨⟨?_, ?_, ?_, ?_, ?_, ?_, hordered, ?_⟩, ?_⟩
  · exact ⟨written text, last, htokens, hkind, hlast, hspan⟩
  · intro t ht hk
    have hw : t ∈ written text := by
      rw [htokens] at ht
      rcases List.mem_append.mp ht with hw | hl
      · exact hw
      · rw [List.mem_singleton.mp hl] at hk
        exact absurd hlast hk
    obtain ⟨hne, hplaced⟩ := hscan.placed t hw
    exact ⟨Nat.lt_add_of_pos_right (List.length_pos_iff.mpr hne),
      (Source.slice_of_isPrefix hplaced).symm⟩
  · rw [htokens']
    exact hscan.ordered
  · intro before t after he
    exact (he ▸ htiled).gap
  · obtain ⟨segments, hrow⟩ := htiled.row
    have htext := hrow.text
    rw [List.drop_zero, List.drop_length, List.append_nil] at htext
    exact ⟨segments, htext.symm, hrow.tokens, hrow.comments, hrow.blanks⟩
  · intro c hc
    obtain ⟨-, hlt, hplaced⟩ := hcomment c hc
    exact ⟨hlt, (Source.slice_of_isPrefix hplaced).symm⟩
  · intro c hc
    exact attached_of_ordered (fun c hc => (hcomment c hc).2.1) hordered hc
  · intro levels d hd
    rw [Document.comments, (Document.account hd .value).1]
    rfl

/-- A line comment that goes on after an escaped line feed, a joined line, a byte that starts no
character, and a block comment that nothing closes. -/
theorem tokens_partition_unclosed :
    let text := Text.ofString "// a\\\nb\nint \\\r\n" ++ [255] ++ Text.ofString " x /*/"
    ∃ d, Document.parse 1 text = .ok d ∧
      d.comments.map Comment.text = [Text.ofString "// a\\\nb", Text.ofString "/*/"] ∧
      Partition text (tokenize text) ∧ d.comments = comments (tokenize text) := by
  intro text
  obtain ⟨d, hd, hcomments⟩ := Document.exists_parse 1 text
    (fun d => d.comments.map Comment.text ==
      [Text.ofString "// a\\\nb", Text.ofString "/*/"]) (by decide +kernel)
  obtain ⟨hpartition, hdocument⟩ := tokens_partition text
  exact ⟨d, hd, eq_of_beq hcomments, hpartition, hdocument 1 d hd⟩

end ShaderSyntax
