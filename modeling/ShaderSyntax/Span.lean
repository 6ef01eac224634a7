/-!
# Spans

A half-open range `[start, stop)`, of bytes in a source or of tokens in a stream. Positions are
natural numbers in a source; a span of arbitrary ends is given in words of 64 bits with a sign.
-/
namespace ShaderSyntax

structure Span (α : Type) where
  start : α
  stop : α
  deriving DecidableEq, Repr

/-- A span whose ends are any words, also negative or in the wrong order. -/
abbrev WordSpan :=
  Span Int64

namespace Span

variable {α : Type}

/-- The distance from the start to the stop, in the arithmetic of the positions: it stops at zero for
natural numbers, and wraps around for words. -/
def length [Sub α] (s : Span α) : α :=
  s.stop - s.start

/-- The second span lies within the first. -/
def contains [LE α] [DecidableLE α] (s t : Span α) : Bool :=
  s.start ≤ t.start && t.stop ≤ s.stop

section Contains

variable {s t u : Span Nat}

theorem contains_iff : s.contains t = true ↔ s.start ≤ t.start ∧ t.stop ≤ s.stop := by
  simp [contains]

theorem contains_refl (s : Span Nat) : s.contains s = true :=
  contains_iff.mpr ⟨Nat.le_refl _, Nat.le_refl _⟩

theorem contains_trans (h : s.contains t = true) (h' : t.contains u = true) :
    s.contains u = true := by
  rw [contains_iff] at h h' ⊢
  omega

theorem eq_of_contains (h : s.contains t = true) (h' : t.contains s = true) : t = s := by
  rw [contains_iff] at h h'
  rcases s with ⟨start, stop⟩
  rcases t with ⟨start', stop'⟩
  simp only [Span.mk.injEq] at h h' ⊢
  omega

end Contains

end Span

end ShaderSyntax
