import Mathlib.Data.List.Pairwise
import Mathlib.Data.List.Sort
import ShaderSyntax.Vocabulary.Index

/-!
# Words and their classes

No word stands in two vocabularies. So it makes no difference in which order the vocabularies are
entered into an index, and the class of a word tells all that the lists say of it.
-/
namespace ShaderSyntax

namespace WordClass

variable {c c' : WordClass} {w : Text} {ws : List Text}

theorem exists_words (hc : c ≠ .plain) : ∃ ws, c.words? = some ws := by
  cases c with
  | plain => exact absurd rfl hc
  | _ => exact ⟨_, rfl⟩

theorem lists_iff : c.lists w = true ↔ ∃ ws, c.words? = some ws ∧ w ∈ ws := by
  unfold lists
  cases c.words? with
  | none => simp
  | some ws => simp

/-- The bytes of a text as the digits of a number. -/
def digits (t : Text) : Nat :=
  t.foldl (fun n b => n * 256 + b.toNat) 0

/-- No word is listed twice. In order the numbers of all words ascend strictly, so it is enough to
compare neighbours. -/
theorem nodup_words : (all.flatMap fun c => c.words?.getD []).Nodup := by
  let numbers := (all.flatMap fun c => c.words?.getD []).map digits
  have hascend : (numbers.insertionSort (· ≤ ·)).IsChain (· < ·) := by decide +kernel
  have hsorted : (numbers.insertionSort (· ≤ ·)).Nodup :=
    hascend.pairwise.imp fun h => Nat.ne_of_lt h
  have hnumbers : numbers.Nodup := (List.perm_insertionSort _ numbers).nodup_iff.mp hsorted
  exact hnumbers.of_map

/-- No word stands in two vocabularies. -/
theorem lists_unique (h : c.lists w = true) (h' : c'.lists w = true) : c = c' := by
  obtain ⟨ws, hws, hw⟩ := lists_iff.mp h
  obtain ⟨ws', hws', hw'⟩ := lists_iff.mp h'
  by_contra hne
  have : Std.Symm (Function.onFun List.Disjoint fun c : WordClass => c.words?.getD []) :=
    ⟨fun _ _ hapart _ h h' => hapart h' h⟩
  have hapart := (List.nodup_flatMap.mp nodup_words).2.forall (mem_all c) (mem_all c') hne
  simp only [Function.onFun, hws, hws', Option.getD_some] at hapart
  exact hapart hw hw'

/-- Every listed word has the class of its list. -/
theorem classify_of_lists (h : c.lists w = true) : classify w = c := by
  unfold classify
  cases hfind : all.find? fun c => c.lists w with
  | none => exact absurd h (List.find?_eq_none.mp hfind c (mem_all c))
  | some c' =>
    have hlists := List.find?_some hfind
    exact lists_unique hlists h

theorem classify_eq_iff (hc : c ≠ .plain) : classify w = c ↔ c.lists w = true := by
  refine ⟨fun h => ?_, classify_of_lists⟩
  unfold classify at h
  cases hfind : all.find? fun c => c.lists w with
  | none =>
    rw [hfind] at h
    exact absurd h.symm hc
  | some c' =>
    rw [hfind] at h
    obtain rfl : c' = c := h
    simpa using List.find?_some hfind

theorem classify_eq_plain_iff : classify w = .plain ↔ ∀ c : WordClass, c.lists w = false := by
  constructor
  · intro h c
    cases hlists : c.lists w with
    | false => rfl
    | true =>
      obtain rfl : WordClass.plain = c := h.symm.trans (classify_of_lists hlists)
      cases hlists
  · intro h
    by_contra hclosed
    have hlists := (classify_eq_iff hclosed).mp rfl
    rw [h] at hlists
    cases hlists

theorem mem_vocabularies_of_lists (h : c.lists w = true) : c ∈ vocabularies := by
  obtain ⟨ws, hws, -⟩ := lists_iff.mp h
  exact List.mem_filter.mpr ⟨mem_all c, by rw [hws]; rfl⟩

end WordClass

namespace Text

theorem le_trans (a b c : Text) (hab : le a b = true) (hbc : le b c = true) : le a c = true := by
  unfold le at *
  rw [decide_eq_true_eq] at *
  exact List.le_trans hab hbc

theorem le_total (a b : Text) : (le a b || le b a) = true := by
  unfold le
  rw [Bool.or_eq_true, decide_eq_true_eq, decide_eq_true_eq]
  exact List.le_total a b

theorem sort_perm (ts : List Text) : (sort ts).Perm ts :=
  List.mergeSort_perm ts le

theorem sort_ascends (ts : List Text) : (sort ts).Pairwise (· ≤ ·) := by
  have hsorted : (sort ts).Pairwise fun a b => le a b = true :=
    List.pairwise_mergeSort le_trans le_total ts
  exact hsorted.imp fun h => of_decide_eq_true h

end Text

namespace WordIndex

variable {index : WordIndex} {order : List WordClass} {c : WordClass} {w w' : Text}

@[simp] theorem put_same (index : WordIndex) (w : Text) (c : WordClass) :
    index.put w c w = some c := by
  simp [put]

@[simp] theorem put_other (h : w' ≠ w) : index.put w c w' = index w' := by
  simp [put, h]

theorem foldl_put (index : WordIndex) (c : WordClass) (ws : List Text) (w : Text) :
    ws.foldl (fun index w => index.put w c) index w = if w ∈ ws then some c else index w := by
  induction ws generalizing index with
  | nil => simp
  | cons v ws ih =>
    rw [List.foldl_cons, ih]
    by_cases hv : w = v
    · subst hv
      simp
    · simp [hv]

theorem enter_apply (index : WordIndex) (c : WordClass) (w : Text) :
    index.enter c w = if c.lists w = true then some c else index w := by
  unfold enter WordClass.lists
  rw [foldl_put]
  cases c.words? <;> simp

/-- Of the vocabularies that list a word the one entered last counts. -/
theorem foldl_enter (index : WordIndex) (order : List WordClass) (w : Text) :
    order.foldl enter index w = (order.reverse.find? fun c => c.lists w).or (index w) := by
  induction order generalizing index with
  | nil => rfl
  | cons c order ih =>
    rw [List.foldl_cons, ih, enter_apply, List.reverse_cons, List.find?_append]
    by_cases hc : c.lists w = true
    · simp [hc]
    · simp [hc]

/-- As only one vocabulary lists a word, it counts wherever it stands in the order. -/
theorem ofOrder_eq_some_iff : ofOrder order w = some c ↔ c ∈ order ∧ c.lists w = true := by
  have hlast : ofOrder order w = order.reverse.find? fun c => c.lists w := by
    rw [ofOrder, foldl_enter, empty, Option.or_none]
  rw [hlast]
  constructor
  · intro h
    have hlists := List.find?_some h
    exact ⟨List.mem_reverse.mp (List.mem_of_find?_eq_some h), hlists⟩
  · rintro ⟨hc, hlists⟩
    cases hfind : order.reverse.find? fun c => c.lists w with
    | none =>
      have hnone := List.find?_eq_none.mp hfind c (List.mem_reverse.mpr hc)
      exact absurd hlists hnone
    | some c' =>
      have hlists' := List.find?_some hfind
      rw [WordClass.lists_unique hlists' hlists]

theorem ofOrder_perm {order' : List WordClass} (h : order.Perm order') :
    ofOrder order = ofOrder order' := by
  funext w
  apply Option.ext
  intro c
  rw [ofOrder_eq_some_iff, ofOrder_eq_some_iff, h.mem_iff]

theorem classOf_vocabularies : (ofOrder WordClass.vocabularies).classOf = classify := by
  funext w
  unfold classOf
  cases hw : ofOrder WordClass.vocabularies w with
  | some c => exact (WordClass.classify_of_lists (ofOrder_eq_some_iff.mp hw).2).symm
  | none =>
    refine (WordClass.classify_eq_plain_iff.mpr fun c => ?_).symm
    by_contra hlists
    rw [Bool.not_eq_false] at hlists
    have hsome := ofOrder_eq_some_iff.mpr ⟨WordClass.mem_vocabularies_of_lists hlists, hlists⟩
    rw [hw] at hsome
    cases hsome

end WordIndex

theorem WordClass.lists_iff_sorted {c : WordClass} {w : Text} :
    c.lists w = true ↔ ∃ ws, c.sortedWords? = some ws ∧ w ∈ ws := by
  rw [lists_iff, sortedWords?]
  cases c.words? with
  | none => simp
  | some ws => simp [(Text.sort_perm ws).mem_iff]

/-- In whatever order the vocabularies are entered, the index is the same, and it gives every word its
class. A word has the class of the vocabulary whose sorted list it stands in, and is plain if it
stands in none. A sorted list has the words of its vocabulary, in byte order. -/
theorem classes_in_any_order {order : List WordClass} (h : order.Perm WordClass.vocabularies) :
    WordIndex.ofOrder order = WordIndex.ofOrder WordClass.vocabularies ∧
      (WordIndex.ofOrder order).classOf = classify ∧
      (∀ w c, c ≠ .plain → (classify w = c ↔ ∃ ws, c.sortedWords? = some ws ∧ w ∈ ws)) ∧
      (∀ w, classify w = .plain ↔
        ∀ (c : WordClass) (ws : List Text), c.sortedWords? = some ws → w ∉ ws) ∧
      ∀ c : WordClass, c ≠ .plain → ∃ ws sorted, c.words? = some ws ∧ c.sortedWords? = some sorted ∧
        sorted.Perm ws ∧ sorted.Pairwise (· ≤ ·) := by
  have hindex := WordIndex.ofOrder_perm h
  refine ⟨hindex, by rw [hindex, WordIndex.classOf_vocabularies], fun w c hc => ?_, fun w => ?_,
    fun c hc => ?_⟩
  · rw [WordClass.classify_eq_iff hc, WordClass.lists_iff_sorted]
  · simp only [WordClass.classify_eq_plain_iff, ← Bool.not_eq_true, WordClass.lists_iff_sorted,
      not_exists, not_and]
  · obtain ⟨ws, hws⟩ := WordClass.exists_words hc
    exact ⟨ws, Text.sort ws, hws, by rw [WordClass.sortedWords?, hws]; rfl, Text.sort_perm ws,
      Text.sort_ascends ws⟩

/-- The vocabularies are entered from the last to the first. -/
theorem classes_in_any_order_reversed :
    let order := WordClass.vocabularies.reverse
    order.Perm WordClass.vocabularies ∧
      WordIndex.ofOrder order = WordIndex.ofOrder WordClass.vocabularies ∧
      (WordIndex.ofOrder order).classOf (Text.ofString "flat") = .interpolation ∧
      (WordIndex.ofOrder order).classOf (Text.ofString "Flat") = .plain := by
  intro order
  have h : order.Perm WordClass.vocabularies := List.reverse_perm _
  obtain ⟨hindex, hclass, -⟩ := classes_in_any_order h
  rw [hclass]
  exact ⟨h, hindex, by decide +kernel, by decide +kernel⟩

end ShaderSyntax
