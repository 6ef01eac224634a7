import ShaderSyntax.Proofs.Encoding

/-!
# Boundaries between characters

A text is read as characters and stray bytes, one after the other, and an offset may lie between two
of these pieces or within a character. Where it lies between, the pieces before it and behind it are
those of the two parts. It does so wherever an ASCII byte stands on either side.
-/
namespace ShaderSyntax

namespace Utf8

/-- Reading pieces from the start of the text comes to the offset. -/
inductive Boundary : Text → Nat → Prop where
  | start (t : Text) : Boundary t 0
  | char {t : Text} {c : Char} {n : Nat} : char? t = some c → Boundary (t.drop c.utf8Size) n →
    Boundary t (c.utf8Size + n)
  | stray {b : UInt8} {rest : Text} {n : Nat} : char? (b :: rest) = none → Boundary rest n →
    Boundary (b :: rest) (n + 1)

variable {t t' more : Text} {b : UInt8} {c : Char} {m n : Nat}

theorem piecesAfter_eq (skip : Nat) (t : Text) : piecesAfter skip t = pieces (t.drop skip) := by
  induction skip generalizing t with
  | zero => rfl
  | succ skip ih =>
    cases t with
    | nil => rfl
    | cons b rest => exact ih rest

theorem pieces_of_char? (h : char? t = some c) :
    pieces t = .char c :: pieces (t.drop c.utf8Size) := by
  cases t with
  | nil => cases h
  | cons b rest =>
    have hsize := c.utf8Size_pos
    have hdrop : (b :: rest).drop c.utf8Size = rest.drop (c.utf8Size - 1) := by
      obtain ⟨k, hk⟩ := Nat.exists_eq_succ_of_ne_zero (Nat.ne_of_gt hsize)
      simp [hk]
    rw [hdrop, ← piecesAfter_eq]
    simp only [pieces, piecesAfter, h]

theorem pieces_of_stray (h : char? (b :: more) = none) :
    pieces (b :: more) = .stray b :: pieces more := by
  simp only [pieces, piecesAfter, h]

/-- What starts no character starts none when the text is cut. -/
theorem char?_of_isPrefix (h : char? t = none) (hp : t' <+: t) : char? t' = none := by
  rw [char?_eq_none_iff] at h ⊢
  exact fun c hc => h c (hc.trans hp)

/-- A character is read from a cut text as well, if it is not cut itself. -/
theorem char?_of_length_le (h : char? t = some c) (hp : t' <+: t)
    (hlen : c.utf8Size ≤ t'.length) : char? t' = some c := by
  rw [char?_eq_some_iff] at h ⊢
  exact List.prefix_of_prefix_length_le h hp (by rwa [Text.length_ofChar])

theorem utf8Size_le_length (h : char? t = some c) : c.utf8Size ≤ t.length := by
  rw [← Text.length_ofChar]
  exact (char?_eq_some_iff.mp h).length_le

theorem Boundary.le_length (h : Boundary t n) : n ≤ t.length := by
  induction h with
  | start => exact Nat.zero_le _
  | char hc h ih =>
    have hsize := utf8Size_le_length hc
    rw [List.length_drop] at ih
    omega
  | stray hc h ih => exact Nat.succ_le_succ ih

theorem Boundary.trans (h : Boundary t m) (h' : Boundary (t.drop m) n) : Boundary t (m + n) := by
  induction h with
  | start => simpa using h'
  | char hc h ih =>
    rw [Nat.add_assoc]
    exact .char hc (ih (by rwa [List.drop_drop]))
  | stray hc h ih =>
    rw [Nat.add_right_comm]
    exact .stray hc (ih h')

/-- A cut behind the offset does not move it into a character. -/
theorem Boundary.of_isPrefix (h : Boundary t n) (hp : t' <+: t) (hlen : n ≤ t'.length) :
    Boundary t' n := by
  induction h generalizing t' with
  | start => exact .start t'
  | @char t c n hc h ih =>
    have hsize : c.utf8Size ≤ t'.length := Nat.le_trans (Nat.le_add_right _ _) hlen
    refine .char (char?_of_length_le hc hp hsize) (ih ?_ ?_)
    · obtain ⟨more, rfl⟩ := hp
      rw [List.drop_append_of_le_length hsize]
      exact List.prefix_append _ more
    · rw [List.length_drop]
      omega
  | @stray b rest n hc h ih =>
    cases t' with
    | nil => cases hlen
    | cons b' rest' =>
      obtain ⟨rfl, hrest⟩ := List.cons_prefix_cons.mp hp
      exact .stray (char?_of_isPrefix hc hp) (ih hrest (Nat.le_of_succ_le_succ hlen))

/-- From one boundary to a later one reading goes on. -/
theorem Boundary.drop (h : Boundary t m) (h' : Boundary t n) (hle : m ≤ n) :
    Boundary (t.drop m) (n - m) := by
  induction h generalizing n with
  | start => simpa using h'
  | @char t c m hc h ih =>
    have hsize := c.utf8Size_pos
    cases h' with
    | start => omega
    | @char _ c' n hc' h' =>
      obtain rfl : c = c' := Option.some.inj (hc.symm.trans hc')
      have hmore := ih h' (Nat.le_of_add_le_add_left hle)
      rwa [List.drop_drop, ← Nat.add_sub_add_left c.utf8Size] at hmore
    | stray hc' h' => cases hc'.symm.trans hc
  | @stray b rest m hc h ih =>
    cases h' with
    | start => omega
    | char hc' h' => cases hc.symm.trans hc'
    | stray hc' h' =>
      have hmore := ih h' (Nat.le_of_succ_le_succ hle)
      rwa [Nat.add_sub_add_right]

/-- At a boundary the pieces of a text divide as the text does. -/
theorem Boundary.pieces_eq (h : Boundary t n) :
    pieces t = pieces (t.take n) ++ pieces (t.drop n) := by
  induction h with
  | start => rfl
  | @char t c n hc h ih =>
    have hlen : c.utf8Size ≤ (t.take (c.utf8Size + n)).length := by
      have hle := (Boundary.char hc h).le_length
      rw [List.length_take]
      omega
    have htake := pieces_of_char? (char?_of_length_le hc (List.take_prefix _ t) hlen)
    rw [List.drop_take, Nat.add_sub_cancel_left] at htake
    rw [pieces_of_char? hc, htake, ih, List.drop_drop, List.cons_append]
  | @stray b rest n hc h ih =>
    have htake := pieces_of_stray (char?_of_isPrefix hc (List.take_prefix (n + 1) (b :: rest)))
    rw [pieces_of_stray hc, ih, List.take_succ_cons, htake, List.drop_succ_cons,
      List.cons_append]

/-- Behind its first byte a character has no ASCII bytes: all further ones have their highest bit
set. -/
theorem utf8Size_le_of_head (h : char? t = some c) (hn : 0 < n)
    (hhead : ∀ b, (t.drop n).head? = some b → b < 0x80) : c.utf8Size ≤ n := by
  rw [← Nat.not_lt]
  intro hlt
  obtain ⟨more, hform⟩ := char?_eq_some_iff.mp h
  have hin : n < (Text.ofChar c).length := by rwa [Text.length_ofChar]
  have hb : (t.drop n).head? = some (Text.ofChar c)[n] := by
    rw [List.head?_drop, ← hform, List.getElem?_append_left hin, List.getElem?_eq_getElem hin]
  have hsingle := Text.ofChar_eq_singleton (List.getElem_mem hin) (hhead _ hb)
  have hone := congrArg List.length hsingle
  rw [List.length_singleton] at hone
  omega

/-- An offset before an ASCII byte or at the end is a boundary. -/
theorem boundary_of_head (hlen : n ≤ t.length)
    (hhead : ∀ b, (t.drop n).head? = some b → b < 0x80) : Boundary t n := by
  induction n using Nat.strongRecOn generalizing t with
  | _ n ih =>
    by_cases hzero : n = 0
    · subst hzero
      exact .start t
    · cases hc : char? t with
      | some c =>
        have hsize := c.utf8Size_pos
        have hle := utf8Size_le_of_head hc (Nat.pos_of_ne_zero hzero) hhead
        have hmore : Boundary (t.drop c.utf8Size) (n - c.utf8Size) := by
          refine ih _ (by omega) ?_ ?_
          · rw [List.length_drop]
            omega
          · rwa [List.drop_drop, Nat.add_sub_cancel' hle]
        have hn : n = c.utf8Size + (n - c.utf8Size) := by omega
        rw [hn]
        exact .char hc hmore
      | none =>
        obtain ⟨k, rfl⟩ := Nat.exists_eq_succ_of_ne_zero hzero
        cases t with
        | nil => cases hlen
        | cons b rest =>
          have hrest := ih k (Nat.lt_succ_self k) (Nat.le_of_succ_le_succ hlen) hhead
          exact .stray hc hrest

theorem boundary_one (hb : b < 0x80) (more : Text) : Boundary (b :: more) 1 := by
  cases hc : char? (b :: more) with
  | none => exact .stray hc (.start more)
  | some c =>
    obtain ⟨rest, hrest⟩ := char?_eq_some_iff.mp hc
    have hmem : b ∈ Text.ofChar c := by
      cases hform : Text.ofChar c with
      | nil =>
        have hsize := c.utf8Size_pos
        rw [← Text.length_ofChar, hform] at hsize
        cases hsize
      | cons b' form =>
        rw [hform, List.cons_append] at hrest
        rw [(List.cons.inj hrest).1]
        exact List.mem_cons_self
    have hsize : c.utf8Size = 1 := by
      rw [← Text.length_ofChar, Text.ofChar_eq_singleton hmem hb]
      rfl
    have hboundary := Boundary.char hc (.start _)
    rwa [hsize] at hboundary

/-- An offset behind an ASCII byte is a boundary. -/
theorem boundary_concat (hb : b < 0x80) (t more : Text) :
    Boundary (t ++ b :: more) (t.length + 1) := by
  have hbefore : Boundary (t ++ b :: more) t.length := by
    apply boundary_of_head
    · simp
    · simpa using hb
  refine hbefore.trans ?_
  rw [List.drop_left]
  exact boundary_one hb more

end Utf8

end ShaderSyntax
