import Mathlib.Algebra.Group.Nat.Defs
import ShaderSyntax.Text.Utf8

/-!
# Characters in bytes

A character is read at the head of a text exactly where its bytes stand. So no character starts with
the bytes of another, and what is no character at the head of a text is none whatever follows.
-/
namespace ShaderSyntax

namespace Utf8

/-- The byte that carries the last six bits of a number, behind a lead byte. -/
def continuation (n : Nat) : UInt8 :=
  UInt8.ofNat (n % 64 + 0x80)

/-- So many continuation bytes, for the end of a number. -/
def trailer : Nat → Nat → Text
  | 0, _ => []
  | count + 1, n => continuation (n / 64 ^ count) :: trailer count n

/-- The bytes of the character with the given number. -/
def form (n : Nat) : Text :=
  if n < 0x80 then [UInt8.ofNat n]
  else if n < 0x800 then UInt8.ofNat (n / 64 + 0xC0) :: trailer 1 n
  else if n < 0x10000 then UInt8.ofNat (n / 4096 + 0xE0) :: trailer 2 n
  else UInt8.ofNat (n / 262144 + 0xF0) :: trailer 3 n

theorem toNat_continuation (n : Nat) : (continuation n).toNat = n % 64 + 0x80 := by
  simp only [continuation, UInt8.toNat_ofNat']
  omega

theorem continuation?_eq_some_iff {b : UInt8} {n : Nat} :
    continuation? b = some n ↔ n < 64 ∧ b = continuation n := by
  simp only [continuation?, UInt8.le_iff_toNat_le, ← UInt8.toNat_inj, toNat_continuation]
  change (if 0x80 ≤ b.toNat ∧ b.toNat ≤ 0xBF then _ else _) = _ ↔ _
  split
  · rw [Option.some.injEq]
    omega
  · simp only [false_iff, reduceCtorEq]
    omega

/-- Continuation bytes are read as the end of the number that they carry. -/
theorem extend?_eq_some_iff {count bits n : Nat} {t : Text} :
    extend? count bits t = some n ↔ trailer count n <+: t ∧ n / 64 ^ count = bits := by
  induction count generalizing bits t with
  | zero => simp [extend?, trailer, eq_comm]
  | succ count ih =>
    cases t with
    | nil => simp [extend?, trailer]
    | cons b rest =>
      have hdiv : n / 64 ^ (count + 1) = n / 64 ^ count / 64 := by
        rw [Nat.pow_succ, Nat.div_div_eq_div_mul]
      simp only [extend?, Option.bind_eq_some_iff, continuation?_eq_some_iff, ih, trailer,
        List.cons_prefix_cons, hdiv]
      constructor
      · rintro ⟨low, ⟨hlow, rfl⟩, hrest, hn⟩
        rw [hn]
        exact ⟨⟨by simp [continuation, Nat.add_mod], hrest⟩, by omega⟩
      · rintro ⟨⟨rfl, hrest⟩, hbits⟩
        refine ⟨n / 64 ^ count % 64, ⟨Nat.mod_lt _ (by decide), ?_⟩, hrest, by omega⟩
        simp [continuation]

/-- The four kinds of lead bytes. -/
theorem lead?_eq_some_iff {b : UInt8} {count bits least : Nat} :
    lead? b = some (count, bits, least) ↔
      (b.toNat = bits ∧ bits < 0x80 ∧ count = 0 ∧ least = 0) ∨
      (b.toNat = bits + 0xC0 ∧ bits < 0x20 ∧ count = 1 ∧ least = 0x80) ∨
      (b.toNat = bits + 0xE0 ∧ bits < 0x10 ∧ count = 2 ∧ least = 0x800) ∨
      (b.toNat = bits + 0xF0 ∧ bits < 0x08 ∧ count = 3 ∧ least = 0x10000) := by
  simp only [lead?, UInt8.lt_iff_toNat_lt, UInt8.reduceToNat]
  grind

/-- A character is read where its lead byte announces it, and no shorter form would do. -/
theorem char?_cons {b : UInt8} {rest : Text} {c : Char} :
    char? (b :: rest) = some c ↔ ∃ count bits least, lead? b = some (count, bits, least) ∧
      least ≤ c.toNat ∧ trailer count c.toNat <+: rest ∧ c.toNat / 64 ^ count = bits := by
  constructor
  · intro h
    obtain ⟨⟨count, bits, least⟩, hlead, h⟩ := Option.bind_eq_some_iff.mp h
    obtain ⟨n, hn, h⟩ := Option.bind_eq_some_iff.mp h
    have hextend := extend?_eq_some_iff.mp hn
    by_cases hvalid : least ≤ n ∧ n.isValidChar
    · rw [dif_pos hvalid] at h
      injection h with hn
      have hc : c.toNat = n := by
        rw [← hn]
        exact UInt32.toNat_ofNatLT ..
      rw [hc]
      exact ⟨count, bits, least, hlead, hvalid.1, hextend⟩
    · rw [dif_neg hvalid] at h
      cases h
  · rintro ⟨count, bits, least, hlead, hleast, hextend⟩
    refine Option.bind_eq_some_iff.mpr ⟨_, hlead, Option.bind_eq_some_iff.mpr
      ⟨c.toNat, extend?_eq_some_iff.mpr hextend, ?_⟩⟩
    rw [dif_pos ⟨hleast, c.valid⟩]
    rfl

theorem toNat_lt (c : Char) : c.toNat < 0x110000 := by
  rcases c.valid with h | h
  · exact Nat.lt_trans h (by decide)
  · exact h.2

/-- The form of a number is told by the lead byte, which leaves no choice. -/
theorem form_isPrefix_iff {n : Nat} (hn : n < 0x110000) {b : UInt8} {rest : Text} :
    form n <+: b :: rest ↔ ∃ count bits least, lead? b = some (count, bits, least) ∧
      least ≤ n ∧ trailer count n <+: rest ∧ n / 64 ^ count = bits := by
  have lead : ∀ m : Nat, m < 256 → (UInt8.ofNat m = b ↔ b.toNat = m) := by
    intro m hm
    rw [← UInt8.toNat_inj, UInt8.toNat_ofNat', Nat.mod_eq_of_lt hm, eq_comm]
  simp only [lead?_eq_some_iff, form]
  constructor
  · intro h
    split at h
    · rw [List.cons_prefix_cons, lead _ (by omega)] at h
      exact ⟨0, n, 0, .inl ⟨h.1, by omega, rfl, rfl⟩, by omega, List.nil_prefix, by omega⟩
    · split at h
      · rw [List.cons_prefix_cons, lead _ (by omega)] at h
        exact ⟨1, n / 64, 0x80, .inr (.inl ⟨h.1, by omega, rfl, rfl⟩), by omega, h.2, by omega⟩
      · split at h
        · rw [List.cons_prefix_cons, lead _ (by omega)] at h
          exact ⟨2, n / 4096, 0x800, .inr (.inr (.inl ⟨h.1, by omega, rfl, rfl⟩)), by omega, h.2,
            by omega⟩
        · rw [List.cons_prefix_cons, lead _ (by omega)] at h
          exact ⟨3, n / 262144, 0x10000, .inr (.inr (.inr ⟨h.1, by omega, rfl, rfl⟩)), by omega,
            h.2, by omega⟩
  · rintro ⟨count, bits, least, hb | hb | hb | hb, hleast, htrail, hbits⟩ <;>
      obtain ⟨hb, hlt, rfl, rfl⟩ := hb
    · rw [if_pos (by omega), List.cons_prefix_cons, lead _ (by omega)]
      exact ⟨by omega, htrail⟩
    · rw [if_neg (by omega), if_pos (by omega), List.cons_prefix_cons, lead _ (by omega)]
      exact ⟨by omega, htrail⟩
    · rw [if_neg (by omega), if_neg (by omega), if_pos (by omega), List.cons_prefix_cons,
        lead _ (by omega)]
      exact ⟨by omega, htrail⟩
    · rw [if_neg (by omega), if_neg (by omega), if_neg (by omega), List.cons_prefix_cons,
        lead _ (by omega)]
      exact ⟨by omega, htrail⟩

end Utf8

open Utf8

namespace Text

theorem ofChar_eq_utf8EncodeChar (c : Char) : ofChar c = String.utf8EncodeChar c := by
  rw [ofChar, ofString, String.toUTF8_eq_toByteArray, String.toByteArray_singleton,
    List.utf8Encode_singleton, List.toList_data_toByteArray]

theorem length_ofChar (c : Char) : (ofChar c).length = c.utf8Size := by
  rw [ofChar_eq_utf8EncodeChar, String.length_utf8EncodeChar]

theorem ofChar_eq_form (c : Char) : ofChar c = form c.toNat := by
  have hmax := toNat_lt c
  rw [ofChar_eq_utf8EncodeChar, String.utf8EncodeChar, form]
  change (if c.toNat ≤ 0x7F then [UInt8.ofNat c.toNat]
    else if c.toNat ≤ 0x7FF then [UInt8.ofNat (c.toNat / 64 % 0x20 + 0xC0), continuation c.toNat]
    else if c.toNat ≤ 0xFFFF then [UInt8.ofNat (c.toNat / 4096 % 0x10 + 0xE0),
      continuation (c.toNat / 64), continuation c.toNat]
    else [UInt8.ofNat (c.toNat / 262144 % 0x08 + 0xF0), continuation (c.toNat / 4096),
      continuation (c.toNat / 64), continuation c.toNat]) = _
  simp only [trailer, Nat.pow_zero, Nat.div_one, Nat.pow_one]
  grind

end Text

namespace Utf8

/-- A character is read exactly where its bytes stand. -/
theorem char?_eq_some_iff {t : Text} {c : Char} : char? t = some c ↔ Text.ofChar c <+: t := by
  rw [Text.ofChar_eq_form]
  cases t with
  | nil =>
    have hform : form c.toNat ≠ [] := by
      simp only [form]
      grind
    exact ⟨nofun, fun h => absurd (List.prefix_nil.mp h) hform⟩
  | cons b rest => rw [char?_cons, form_isPrefix_iff (toNat_lt c)]

theorem char?_eq_none_iff {t : Text} : char? t = none ↔ ∀ c, ¬ Text.ofChar c <+: t := by
  simp only [← char?_eq_some_iff, Option.eq_none_iff_forall_ne_some, ne_eq]

end Utf8

/-- A byte below 128 belongs to no longer character: in a longer form every byte has its highest bit
set. -/
theorem Text.ofChar_eq_singleton {c : Char} {b : UInt8} (hb : b ∈ ofChar c) (hlt : b < 0x80) :
    ofChar c = [b] := by
  have hlt : b.toNat < 0x80 := hlt
  have hmax := Utf8.toNat_lt c
  have hlead : ∀ m : Nat, 0x80 ≤ m → m < 0x100 → b ≠ UInt8.ofNat m := by
    rintro m hle hm rfl
    rw [UInt8.toNat_ofNat', Nat.mod_eq_of_lt hm] at hlt
    omega
  have htrail : ∀ count n, b ∉ trailer count n := by
    intro count n hmem
    induction count with
    | zero => cases hmem
    | succ count ih =>
      rcases List.mem_cons.mp hmem with rfl | hmem
      · rw [toNat_continuation] at hlt
        omega
      · exact ih hmem
  rw [ofChar_eq_form, form] at hb ⊢
  split at hb
  · next hc =>
    rw [if_pos hc, List.mem_singleton.mp hb]
  · exfalso
    split at hb
    · rcases List.mem_cons.mp hb with hb | hb
      · exact hlead _ (by omega) (by omega) hb
      · exact htrail _ _ hb
    · split at hb <;> rcases List.mem_cons.mp hb with hb | hb
      · exact hlead _ (by omega) (by omega) hb
      · exact htrail _ _ hb
      · exact hlead _ (by omega) (by omega) hb
      · exact htrail _ _ hb

end ShaderSyntax
