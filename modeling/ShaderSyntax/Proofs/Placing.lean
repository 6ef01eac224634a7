import ShaderSyntax.Document
import ShaderSyntax.Proofs.Scanning

/-!
# Runs of tokens

A node covers a run of tokens, and its span reaches from the start of the first to the end of the
last. As tokens do not overlap, the tokens inside that span are the run again.
-/
namespace ShaderSyntax

/-- The tokens that lie inside a span. -/
def tokensIn (tokens : List Token) (span : Span Nat) : List Token :=
  tokens.filter fun t => span.contains t.span

/-- Tokens that are not empty and do not overlap, in source order. -/
structure Ordered (tokens : List Token) : Prop where
  start_lt_stop : ∀ t ∈ tokens, t.span.start < t.span.stop
  pairwise : tokens.Pairwise fun a b => a.span.stop ≤ b.span.start

namespace Ordered

variable {tokens before run after : List Token} {first last t : Token}

theorem nodup (h : Ordered tokens) : tokens.Nodup := by
  refine h.pairwise.imp_of_mem ?_
  rintro a b ha - hab rfl
  have := h.start_lt_stop a ha
  omega

theorem start_le (h : Ordered tokens) (hf : tokens.head? = some first) (ht : t ∈ tokens) :
    first.span.start ≤ t.span.start := by
  obtain ⟨more, rfl⟩ := List.head?_eq_some_iff.mp hf
  rcases List.mem_cons.mp ht with rfl | hm
  · exact Nat.le_refl _
  · have := (List.pairwise_cons.mp h.pairwise).1 t hm
    have := h.start_lt_stop first (by simp)
    omega

theorem le_stop (h : Ordered tokens) (hl : tokens.getLast? = some last) (ht : t ∈ tokens) :
    t.span.stop ≤ last.span.stop := by
  obtain ⟨init, rfl⟩ := List.getLast?_eq_some_iff.mp hl
  rcases List.mem_append.mp ht with hm | hm
  · have := (List.pairwise_append.mp h.pairwise).2.2 t hm last (by simp)
    have := h.start_lt_stop last (by simp)
    omega
  · obtain rfl := List.mem_singleton.mp hm
    exact Nat.le_refl _

theorem mid (h : Ordered (before ++ (run ++ after))) : Ordered run := by
  refine ⟨fun t ht => h.start_lt_stop t (by simp [ht]), ?_⟩
  exact (List.pairwise_append.mp (List.pairwise_append.mp h.pairwise).2.1).1

/-- The tokens from the start of the first of a run to the end of its last are the run. -/
theorem tokensIn_run (h : Ordered (before ++ (run ++ after))) (hf : run.head? = some first)
    (hl : run.getLast? = some last) :
    tokensIn (before ++ (run ++ after)) ⟨first.span.start, last.span.stop⟩ = run := by
  obtain ⟨-, hra, hbefore⟩ := List.pairwise_append.mp h.pairwise
  obtain ⟨-, -, hafter⟩ := List.pairwise_append.mp hra
  have h₁ : tokensIn before ⟨first.span.start, last.span.stop⟩ = [] := by
    rw [tokensIn, List.filter_eq_nil_iff]
    intro t ht
    have := hbefore t ht first (by simp [List.mem_of_head? hf])
    have := h.start_lt_stop t (by simp [ht])
    simp only [Span.contains, Bool.and_eq_true, decide_eq_true_eq]
    omega
  have h₂ : tokensIn run ⟨first.span.start, last.span.stop⟩ = run := by
    rw [tokensIn, List.filter_eq_self]
    intro t ht
    simp [Span.contains, h.mid.start_le hf ht, h.mid.le_stop hl ht]
  have h₃ : tokensIn after ⟨first.span.start, last.span.stop⟩ = [] := by
    rw [tokensIn, List.filter_eq_nil_iff]
    intro t ht
    have := hafter last (List.mem_of_getLast? hl) t ht
    have := h.start_lt_stop t (by simp [ht])
    simp only [Span.contains, Bool.and_eq_true, decide_eq_true_eq]
    omega
  rw [tokensIn, List.filter_append, List.filter_append]
  change tokensIn before _ ++ (tokensIn run _ ++ tokensIn after _) = run
  rw [h₁, h₂, h₃, List.nil_append, List.append_nil]

end Ordered

theorem written_ordered (text : Text) : Ordered (written text) := by
  obtain ⟨last, -, hs⟩ := tokenize_scan text
  refine ⟨?_, (List.pairwise_append.mp hs.ordered).1⟩
  intro t ht
  exact Nat.lt_add_of_pos_right (List.length_pos_iff.mpr (hs.placed t ht).1)

theorem length_tokenize (text : Text) : (tokenize text).length = (written text).length + 1 := by
  obtain ⟨last, htokens, -⟩ := tokenize_scan text
  rw [htokens, List.length_append, List.length_singleton]

/-- The tokens from the one numbered `start` on that spell the lexemes. -/
structure Run (text : Text) (start : Nat) (ls : List Lexeme) (run : List Token) : Prop where
  within : ∃ before after, written text = before ++ (run ++ after) ∧ before.length = start
  lexemes : run.map Token.lexeme? = ls.map some

namespace Run

variable {text : Text} {start : Nat} {ls xs ys : List Lexeme} {run : List Token}

theorem length_eq (h : Run text start ls run) : run.length = ls.length := by
  simpa using congrArg List.length h.lexemes

theorem ne_nil (h : Run text start ls run) (hl : ls ≠ []) : run ≠ [] := by
  intro hr
  have := h.length_eq
  rw [hr] at this
  exact hl (List.length_eq_zero_iff.mp this.symm)

theorem texts (h : Run text start ls run) : run.map Token.text = ls.map Lexeme.text := by
  have hm := congrArg (List.map fun l? : Option Lexeme => (l?.map Lexeme.text).getD []) h.lexemes
  simp only [List.map_map] at hm
  have ht : ((fun l? : Option Lexeme => (l?.map Lexeme.text).getD []) ∘ Token.lexeme?) =
      Token.text := by
    funext t
    cases hl : t.lexeme? <;> simp [Token.text, hl]
  rw [ht] at hm
  rw [hm]
  rfl

theorem lexemes_run (h : Run text start ls run) : ShaderSyntax.lexemes run = ls := by
  have hm := congrArg (List.filterMap id) h.lexemes
  simpa [ShaderSyntax.lexemes, List.filterMap_map] using hm

/-- The run of two parts is a run of the first and a run of the second. -/
theorem split (h : Run text start (xs ++ ys) run) :
    ∃ r₁ r₂, run = r₁ ++ r₂ ∧ Run text start xs r₁ ∧ Run text (start + xs.length) ys r₂ := by
  obtain ⟨before, after, hw, hb⟩ := h.within
  have hm := h.lexemes
  rw [List.map_append, List.map_eq_append_iff] at hm
  obtain ⟨r₁, r₂, rfl, h₁, h₂⟩ := hm
  refine ⟨r₁, r₂, rfl, ⟨⟨before, r₂ ++ after, by simpa using hw, hb⟩, h₁⟩,
    ⟨⟨before ++ r₁, after, by simpa using hw, ?_⟩, h₂⟩⟩
  have hlen : r₁.length = xs.length := by simpa using congrArg List.length h₁
  rw [List.length_append, hb, hlen]

theorem tail {l : Lexeme} (h : Run text start (l :: ls) run) :
    ∃ t r, run = t :: r ∧ Run text (start + 1) ls r := by
  have hs : Run text start ([l] ++ ls) run := h
  obtain ⟨r₁, r₂, rfl, h₁, h₂⟩ := hs.split
  obtain ⟨t, rfl⟩ := List.length_eq_one_iff.mp h₁.length_eq
  exact ⟨t, r₂, rfl, h₂⟩

end Run

namespace Source

variable {text : Text}

theorem tokens_ofText (text : Text) :
    ∃ last, (ofText text).tokens.toList = written text ++ [last] ∧ last.lexeme? = none := by
  obtain ⟨last, ht, hs⟩ := tokenize_scan text
  exact ⟨last, by rw [← ht]; rfl, hs.finish⟩

theorem size_ofText (text : Text) : (ofText text).size = (written text).length := by
  obtain ⟨last, ht, -⟩ := tokens_ofText text
  rw [size, ← Array.length_toList, ht, List.length_append, List.length_singleton,
    Nat.add_sub_cancel]

theorem token_ofText {index : Nat} {before after : List Token} {t : Token}
    (hw : written text = before ++ t :: after) (hb : before.length = index) :
    (ofText text).token index = t := by
  obtain ⟨last, ht, -⟩ := tokens_ofText text
  rw [token, ← Array.getElem?_toList, ht, hw, ← hb]
  simp

theorem token_eq_getElem {text : Text} {index : Nat} (h : index < (tokenize text).length) :
    (ofText text).token index = (tokenize text)[index] := by
  simp [token, ofText, List.getElem?_eq_getElem h]

/-- A token with another after it is not empty and stops before that one starts. -/
theorem token_before {text : Text} {i j : Nat} (hij : i < j) (hj : j ≤ (written text).length) :
    ((ofText text).token i).span.start < ((ofText text).token i).span.stop ∧
      ((ofText text).token i).span.stop ≤ ((ofText text).token j).span.start := by
  have hlen := length_tokenize text
  obtain ⟨last, htokens, hscan⟩ := tokenize_scan text
  rw [token_eq_getElem (by omega : i < _), token_eq_getElem (by omega : j < _)]
  constructor
  · have hget : (tokenize text)[i] = (written text)[i] := by
      simp only [htokens]
      exact List.getElem_append_left (by omega)
    rw [hget]
    exact (written_ordered text).start_lt_stop _ (List.getElem_mem _)
  · have hordered := hscan.ordered
    rw [← htokens] at hordered
    exact List.pairwise_iff_getElem.mp hordered i j (by omega) (by omega) hij

theorem run_lexemes (text : Text) : Run text 0 (ofText text).lexemes (written text) := by
  obtain ⟨last, ht, hlast⟩ := tokens_ofText text
  obtain ⟨last', -, hs⟩ := tokenize_scan text
  refine ⟨⟨[], [], by simp, rfl⟩, ?_⟩
  rw [lexemes, ShaderSyntax.lexemes, ht, List.filterMap_append]
  have hl : List.filterMap Token.lexeme? [last] = [] := by simp [hlast]
  rw [hl, List.append_nil]
  have hsome := hs.lexeme
  generalize written text = ts at hsome
  induction ts with
  | nil => rfl
  | cons t ts ih =>
    obtain ⟨l, hl⟩ := Option.isSome_iff_exists.mp (hsome t (by simp))
    rw [List.map_cons, List.filterMap_cons_some hl, List.map_cons, hl,
      ih fun u hu => hsome u (by simp [hu])]

/-- A run is located from the start of its first token to the end of its last. -/
theorem locate_run {start : Nat} {ls : List Lexeme} {run : List Token} {first last : Token}
    (h : Run text start ls run) (hf : run.head? = some first) (hl : run.getLast? = some last) :
    (ofText text).locate start (start + ls.length) = ⟨first.span.start, last.span.stop⟩ := by
  obtain ⟨before, after, hw, hb⟩ := h.within
  have hfirst : (ofText text).token start = first := by
    obtain ⟨more, rfl⟩ := List.head?_eq_some_iff.mp hf
    exact token_ofText hw hb
  have hlast : (ofText text).token (start + ls.length - 1) = last := by
    obtain ⟨init, rfl⟩ := List.getLast?_eq_some_iff.mp hl
    have hlen := h.length_eq
    have hw' : written text = (before ++ init) ++ last :: after := by simpa using hw
    refine token_ofText hw' ?_
    simp only [List.length_append, List.length_singleton] at hlen ⊢
    omega
  rw [locate, hfirst, hlast]

/-- A run that is not empty has a span, and the tokens inside it are the run. -/
theorem exists_locate {start : Nat} {ls : List Lexeme} {run : List Token}
    (h : Run text start ls run) (hl : ls ≠ []) :
    ∃ first last, run.head? = some first ∧ run.getLast? = some last ∧
      (ofText text).locate start (start + ls.length) = ⟨first.span.start, last.span.stop⟩ ∧
      tokensIn (written text) ⟨first.span.start, last.span.stop⟩ = run := by
  obtain ⟨before, after, hw, -⟩ := h.within
  have hne := h.ne_nil hl
  have hord := written_ordered text
  rw [hw] at hord ⊢
  refine ⟨run.head hne, run.getLast hne, List.head?_eq_some_head hne,
    List.getLast?_eq_some_getLast hne, ?_, ?_⟩
  · exact locate_run h (List.head?_eq_some_head hne) (List.getLast?_eq_some_getLast hne)
  · exact hord.tokensIn_run (List.head?_eq_some_head hne) (List.getLast?_eq_some_getLast hne)

end Source

end ShaderSyntax
