import Mathlib.Data.List.Forall2
import ShaderSyntax.Proofs.Coverage

/-!
# The end of a text by itself

From the start of a token on, a text has the same tokens alone as in the whole: the scanner keeps no
memory of what came before. Only the offsets differ, by where the end of the text starts, and so do
the spans of the trees placed on those tokens.
-/
namespace ShaderSyntax

namespace Trivia

theorem first?_after_gapWithin (count : Nat) (t : Text) (h : t.length ≤ count) :
    first? (t.drop ((gapWithin count t).flatMap text).length) = none := by
  induction count generalizing t with
  | zero =>
    obtain rfl : t = [] := List.length_eq_zero_iff.mp (by omega)
    rfl
  | succ count ih =>
    unfold gapWithin
    split
    · next hfirst => exact hfirst
    · next piece hp =>
      have hpos := List.length_pos_iff.mpr (first?_text hp).1
      have hrest := ih (t.drop piece.text.length) (by rw [List.length_drop]; omega)
      rw [List.drop_drop] at hrest
      rw [List.flatMap_cons, List.length_append]
      exact hrest

/-- After a gap there is no gap. -/
theorem gap_after_gap (t : Text) : gap (t.drop ((gap t).flatMap text).length) = [] := by
  have hfirst := first?_after_gapWithin t.length t (Nat.le_refl _)
  unfold gap at hfirst ⊢
  cases (t.drop ((gapWithin t.length t).flatMap text).length).length with
  | zero => rfl
  | succ n =>
    unfold gapWithin
    rw [hfirst]

end Trivia

/-- The two tokens have the same lexeme, the first so many bytes further on. -/
structure Token.Shifted (offset : Nat) (t t' : Token) : Prop where
  lexeme : t.lexeme? = t'.lexeme?
  position : t.position.offset = offset + t'.position.offset

def Span.shift (offset : Nat) (s : Span Nat) : Span Nat :=
  ⟨offset + s.start, offset + s.stop⟩

theorem Token.Shifted.span {offset : Nat} {t t' : Token} (h : t.Shifted offset t') :
    t.span = t'.span.shift offset := by
  have htext : t.text = t'.text := by rw [Token.text, Token.text, h.lexeme]
  simp only [Token.span, Span.shift, htext, h.position, Nat.add_assoc]

namespace Scanner

/-- The two scanners have the same before them, the first so many bytes further on. -/
structure Shifted (offset : Nat) (s s' : Scanner) : Prop where
  rest : s.rest = s'.rest
  position : s.position.offset = offset + s'.position.offset

variable {offset : Nat} {s s' : Scanner}

theorem Shifted.skip (h : s.Shifted offset s') (t : Text) :
    (s.skip t).Shifted offset (s'.skip t) := by
  constructor
  · simp [Scanner.skip, h.rest]
  · rw [offset_skip, offset_skip, h.position, Nat.add_assoc]

/-- The scanner at the next lexeme. -/
def settled (s : Scanner) : Scanner :=
  s.skip ((Trivia.gap s.rest).flatMap Trivia.text)

theorem Shifted.settled (h : s.Shifted offset s') : s.settled.Shifted offset s'.settled := by
  unfold Scanner.settled
  rw [h.rest]
  exact h.skip _

/-- A scanner that stands at a lexeme is settled. -/
theorem settled_start (s : Scanner) :
    (Scanner.start s.settled.rest).settled = .start s.settled.rest := by
  have hgap : Trivia.gap s.settled.rest = [] := Trivia.gap_after_gap s.rest
  unfold Scanner.settled at hgap ⊢
  simp only [start] at hgap ⊢
  rw [hgap]
  rfl

theorem next_of_none (h : Lexeme.first? s.settled.rest = none) :
    s.next = (⟨none, s.settled.position, Comment.ofTrivia s.position (Trivia.gap s.rest)⟩,
      s.settled) := by
  unfold settled at h ⊢
  simp only [next, h]

theorem next_of_some {l : Lexeme} (h : Lexeme.first? s.settled.rest = some l) :
    s.next = (⟨some l, s.settled.position, Comment.ofTrivia s.position (Trivia.gap s.rest)⟩,
      s.settled.skip l.text) := by
  unfold settled at h ⊢
  simp only [next, h]

theorem next_position (s : Scanner) : s.next.1.position = s.settled.position := by
  cases hl : Lexeme.first? s.settled.rest with
  | none => rw [next_of_none hl]
  | some l => rw [next_of_some hl]

/-- One step of the scanner depends only on where it settles. -/
theorem Shifted.next (h : s.settled.Shifted offset s'.settled) :
    s.next.1.Shifted offset s'.next.1 ∧ s.next.2.Shifted offset s'.next.2 := by
  cases hl : Lexeme.first? s.settled.rest with
  | none =>
    rw [next_of_none hl, next_of_none (h.rest ▸ hl)]
    exact ⟨⟨rfl, h.position⟩, h⟩
  | some l =>
    rw [next_of_some hl, next_of_some (h.rest ▸ hl)]
    exact ⟨⟨rfl, h.position⟩, h.skip l.text⟩

theorem tokensWithin_succ_of_none {count : Nat} (h : s.next.1.lexeme? = none) :
    (tokensWithin (count + 1) s).1 = [s.next.1] := by
  simp only [tokensWithin, h]

theorem tokensWithin_succ_of_some {count : Nat} (h : s.next.1.lexeme? ≠ none) :
    (tokensWithin (count + 1) s).1 = s.next.1 :: (tokensWithin count s.next.2).1 := by
  obtain ⟨l, hl⟩ := Option.ne_none_iff_exists'.mp h
  simp only [tokensWithin, hl]

theorem head_tokensWithin {count : Nat} {t : Token} {after : List Token}
    (h : (tokensWithin (count + 1) s).1 = t :: after) : s.next.1 = t := by
  by_cases hl : s.next.1.lexeme? = none
  · rw [tokensWithin_succ_of_none hl] at h
    injection h
  · rw [tokensWithin_succ_of_some hl] at h
    injection h

/-- All steps of the scanner, with a round for every byte. -/
theorem Shifted.tokens (h : s.settled.Shifted offset s'.settled) {count count' : Nat}
    (hc : s.rest.length < count) (hc' : s'.rest.length < count') :
    List.Forall₂ (Token.Shifted offset) (tokensWithin count s).1 (tokensWithin count' s').1 := by
  induction count generalizing s s' count' with
  | zero => omega
  | succ count ih =>
    obtain ⟨more, rfl⟩ : ∃ more, count' = more + 1 := ⟨count' - 1, by omega⟩
    obtain ⟨htoken, hafter⟩ := h.next
    by_cases hl : s.next.1.lexeme? = none
    · rw [tokensWithin_succ_of_none hl, tokensWithin_succ_of_none (htoken.lexeme ▸ hl)]
      exact .cons htoken .nil
    · have hl' : s'.next.1.lexeme? ≠ none := htoken.lexeme ▸ hl
      have hlt := length_next_lt hl
      have hlt' := length_next_lt hl'
      rw [tokensWithin_succ_of_some hl, tokensWithin_succ_of_some hl']
      exact .cons htoken (ih hafter.settled (by omega) (by omega))

/-- From any of its tokens on, a text has the tokens that its end has by itself. -/
theorem tokens_drop {text : Text} {count : Nat} (hs : s.Within text) (hc : s.rest.length < count)
    {before after : List Token} {t : Token} (h : (tokensWithin count s).1 = before ++ t :: after) :
    List.Forall₂ (Token.Shifted t.span.start) (t :: after) (tokenize (text.drop t.span.start)) := by
  induction before generalizing s count with
  | nil =>
    obtain ⟨more, rfl⟩ : ∃ more, count = more + 1 := ⟨count - 1, by omega⟩
    have hstart : t.span.start = s.settled.position.offset := by
      rw [← head_tokensWithin h, ← next_position]
      rfl
    have hdrop : text.drop t.span.start = s.settled.rest := by
      rw [hstart]
      exact (hs.skip _).symm
    have hshift : s.settled.Shifted t.span.start (Scanner.start s.settled.rest).settled := by
      rw [settled_start]
      exact ⟨rfl, hstart.symm⟩
    rw [hdrop, ← List.nil_append (t :: after), ← h]
    exact hshift.tokens hc (Nat.lt_succ_self _)
  | cons b before ih =>
    obtain ⟨more, rfl⟩ : ∃ more, count = more + 1 := ⟨count - 1, by omega⟩
    by_cases hl : s.next.1.lexeme? = none
    · rw [tokensWithin_succ_of_none hl] at h
      simp at h
    · rw [tokensWithin_succ_of_some hl] at h
      injection h with _ h
      have hlt := length_next_lt hl
      exact ih hs.next (by omega) h

end Scanner

/-- The tokens from the given one on, and the tokens of the text from there on. -/
theorem tokenize_drop {text : Text} {before after : List Token} {t : Token}
    (h : tokenize text = before ++ t :: after) :
    List.Forall₂ (Token.Shifted t.span.start) (t :: after) (tokenize (text.drop t.span.start)) :=
  Scanner.tokens_drop (s := .start text) rfl (Nat.lt_succ_self _) h

theorem lexemes_drop {text : Text} {before after : List Token} {t : Token}
    (h : tokenize text = before ++ t :: after) :
    (Source.ofText (text.drop t.span.start)).lexemes = lexemes (t :: after) := by
  change lexemes (tokenize (text.drop t.span.start)) = _
  have hshift := tokenize_drop h
  generalize tokenize (text.drop t.span.start) = tokens, t :: after = whole at hshift
  induction hshift with
  | nil => rfl
  | cons hs _ ih =>
    unfold lexemes at ih ⊢
    rw [List.filterMap_cons, List.filterMap_cons, hs.lexeme, ih]

namespace Source

/-- Places in the end of a text are places in the text. -/
theorem token_drop {text : Text} {before after : List Token} {t : Token}
    (h : tokenize text = before ++ t :: after) {i : Nat} (hi : i < (t :: after).length) :
    ((ofText text).token (before.length + i)).Shifted t.span.start
      ((ofText (text.drop t.span.start)).token i) := by
  have hshift := tokenize_drop h
  have hlen := hshift.length_eq
  have hwhole : (ofText text).token (before.length + i) = (t :: after).get ⟨i, hi⟩ := by
    unfold token ofText
    simp [h, List.getElem?_append_right, List.getElem?_eq_getElem hi]
  have hdrop : (ofText (text.drop t.span.start)).token i =
      (tokenize (text.drop t.span.start)).get ⟨i, by omega⟩ := by
    have hi' : i < (tokenize (text.drop t.span.start)).length := by omega
    unfold token ofText
    simp [List.getElem?_eq_getElem hi']
  rw [hwhole, hdrop]
  exact hshift.get hi (by omega)

theorem locate_drop {text : Text} {before after : List Token} {t : Token}
    (h : tokenize text = before ++ t :: after) (i j : Nat) (hij : i < j)
    (hj : j ≤ (t :: after).length) :
    (ofText text).locate (before.length + i) (before.length + j) =
      ((ofText (text.drop t.span.start)).locate i j).shift t.span.start := by
  have hfirst := (token_drop h (Nat.lt_of_lt_of_le hij hj)).span
  have hlast := (token_drop h (by omega : j - 1 < (t :: after).length)).span
  have hsub : before.length + j - 1 = before.length + (j - 1) := by omega
  unfold locate
  rw [hsub, hfirst, hlast]
  rfl

end Source

mutual

/-- The tree so many bytes further on. -/
def Tree.shift (offset : Nat) : Tree → Tree
  | .leaf k s t => .leaf k (s.shift offset) t
  | .error s m => .error (s.shift offset) m
  | .branch k s fields => .branch k (s.shift offset) (Field.shifts offset fields)

def Field.shifts (offset : Nat) : List Field → List Field
  | [] => []
  | .attribute label t :: rest => .attribute label t :: Field.shifts offset rest
  | .child label t :: rest => .child label (t.shift offset) :: Field.shifts offset rest

end

section Placing

variable {locate locate' : Nat → Nat → Span Nat} {base bound offset : Nat}

mutual

/-- Where the locations differ by an offset, so do the trees of solid nodes. -/
theorem Node.place_shift
    (hl : ∀ i j, i < j → j ≤ bound → locate (base + i) (base + j) = (locate' i j).shift offset) :
    ∀ (n : Node) (start : Nat), n.Solid → start + n.size ≤ bound →
      n.place locate (base + start) = (n.place locate' start).shift offset
  | .leaf k l, start, _, hb => by
    have hspan := hl start (start + 1) (by omega) hb
    simp only [Node.place, Tree.shift, Nat.add_assoc, hspan]
  | .error s, start, hs, hb => by
    have hpos := Node.Solid.size_pos hs
    simp only [Node.size] at hb hpos
    have hspan := hl start (start + s.lexemes.length) (by omega) hb
    simp only [Node.place, Tree.shift, Nat.add_assoc, hspan]
  | .branch k items, start, hs, hb => by
    have hpos := Node.Solid.size_pos hs
    simp only [Node.size] at hb hpos
    have hspan := hl start (start + Item.size items) (by omega) hb
    simp only [Node.place, Tree.shift, Nat.add_assoc, hspan,
      Item.place_shift hl items start hs.2.2 hb]

theorem Item.place_shift
    (hl : ∀ i j, i < j → j ≤ bound → locate (base + i) (base + j) = (locate' i j).shift offset) :
    ∀ (items : List Item) (start : Nat), Item.Solid items → start + Item.size items ≤ bound →
      Item.place locate (base + start) items = Field.shifts offset (Item.place locate' start items)
  | [], start, _, _ => rfl
  | .token l :: rest, start, hs, hb => by
    simp only [Item.size] at hb
    exact Item.place_shift hl rest (start + 1) hs (by omega)
  | .attribute label l :: rest, start, hs, hb => by
    simp only [Item.size] at hb
    have hrest := Item.place_shift hl rest (start + 1) hs (by omega)
    simp only [Item.place, Field.shifts, Nat.add_assoc, hrest]
  | .child label n :: rest, start, hs, hb => by
    simp only [Item.size] at hb
    have hn := Node.place_shift hl n start hs.1 (by omega)
    have hrest := Item.place_shift hl rest (start + n.size) hs.2 (by omega)
    simp only [Item.place, Field.shifts, Nat.add_assoc, hn, hrest]

end

theorem Node.placeAll_shift
    (hl : ∀ i j, i < j → j ≤ bound → locate (base + i) (base + j) = (locate' i j).shift offset)
    (label : Label) (nodes : List Node) (start : Nat) (hs : Item.Solid (Item.children label nodes))
    (hb : start + Item.size (Item.children label nodes) ≤ bound) :
    Node.placeAll locate (base + start) nodes =
      (Node.placeAll locate' start nodes).map (Tree.shift offset) := by
  induction nodes generalizing start with
  | nil => rfl
  | cons n nodes ih =>
    rw [Item.size_children_cons] at hb
    have hn := Node.place_shift hl n start hs.1 (by omega)
    have hrest := ih (start + n.size) hs.2 (by omega)
    rw [← Nat.add_assoc] at hrest
    simp only [Node.placeAll, List.map_cons, hn, hrest]

end Placing

end ShaderSyntax
