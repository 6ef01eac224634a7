import ShaderSyntax.Proofs.Cleaning

/-!
# Spellings of a path

A relative path adds to a directory what its clean components add. So two relative paths with one
clean form come to the same path from every directory.
-/
namespace ShaderSyntax

theorem Text.split_append (separator : UInt8) (t more : Text) :
    split separator (t ++ separator :: more) = split separator t ++ split separator more := by
  induction t with
  | nil => simp [split]
  | cons b t ih =>
    by_cases hb : b = separator
    · simp [split, hb, ih]
    · obtain ⟨first, others, hs⟩ := List.exists_cons_of_ne_nil (split_ne_nil separator t)
      simp [split, hb, ih, hs]

theorem Text.mem_of_mem_split {separator b : UInt8} {t piece : Text} (h : piece ∈ split separator t)
    (hb : b ∈ piece) : b ∈ t := by
  induction t generalizing piece with
  | nil => simp_all
  | cons b' t ih =>
    obtain ⟨first, others, hs⟩ := List.exists_cons_of_ne_nil (split_ne_nil separator t)
    rw [hs] at ih
    by_cases hb' : b' = separator
    · simp only [split, hb', if_true, hs] at h
      rcases List.mem_cons.mp h with rfl | h
      · cases hb
      · exact List.mem_cons_of_mem _ (ih h hb)
    · simp only [split, hb', if_false, hs] at h
      rcases List.mem_cons.mp h with rfl | h
      · rcases List.mem_cons.mp hb with rfl | hb
        · exact List.mem_cons_self
        · exact List.mem_cons_of_mem _ (ih List.mem_cons_self hb)
      · exact List.mem_cons_of_mem _ (ih (List.mem_cons_of_mem _ h) hb)

namespace Path

/-- A component that cleaning keeps: a name, or the parent directory. -/
structure IsKept (c : Text) : Prop where
  ne_nil : c ≠ []
  ne_here : c ≠ here
  slash_not_mem : Byte.slash ∉ c

variable {a c p q : Text} {stack parts : List Text}

theorem isKept_of_mem_push (hstack : ∀ n ∈ stack, IsKept n) (hc : Byte.slash ∉ c)
    (rooted : Bool) : ∀ n ∈ push rooted stack c, IsKept n := by
  have hparent : IsKept parent := ⟨by decide, by decide, by decide⟩
  unfold push
  split
  · exact hstack
  · next hplain =>
    split
    · cases stack with
      | nil => cases rooted <;> simp [hparent]
      | cons top below =>
        simp only
        split
        · exact List.forall_mem_cons.mpr ⟨hparent, hstack⟩
        · exact (List.forall_mem_cons.mp hstack).2
    · have hkept : IsKept c := ⟨fun h => hplain (.inl h), fun h => hplain (.inr h), hc⟩
      exact List.forall_mem_cons.mpr ⟨hkept, hstack⟩

theorem isKept_of_mem_foldl {more : List Text} (hmore : ∀ c ∈ more, Byte.slash ∉ c)
    (hstack : ∀ n ∈ stack, IsKept n) (rooted : Bool) :
    ∀ n ∈ more.foldl (push rooted) stack, IsKept n := by
  induction more generalizing stack with
  | nil => exact hstack
  | cons c more ih =>
    obtain ⟨hc, hmore⟩ := List.forall_mem_cons.mp hmore
    exact ih hmore (isKept_of_mem_push hstack hc rooted)

theorem isKept_of_mem_cleanComponents : ∀ n ∈ cleanComponents p, IsKept n := by
  intro n hn
  rw [cleanComponents, List.mem_reverse] at hn
  exact isKept_of_mem_foldl (fun c hc => Text.not_mem_of_mem_split hc) (by simp) _ n hn

/-- The parent directory takes the component before it away. -/
theorem push_parent (rooted : Bool) (hc : IsKept c) (hparent : c ≠ parent) :
    push rooted (push rooted stack c) parent = stack := by
  have hpush : push rooted stack c = c :: stack := by
    simp [push, hc.ne_nil, hc.ne_here, hparent]
  rw [hpush]
  simp [push, hparent, show parent ≠ [] by decide, show parent ≠ here by decide]

/-- A component can be pushed onto clean components first, and all together then onto a stack. -/
theorem foldl_push_push (rooted : Bool) (stack : List Text) (hparts : ∀ n ∈ parts, IsKept n) :
    (parts.reverse ++ [c]).foldl (push rooted) stack =
      (push false parts c).reverse.foldl (push rooted) stack := by
  by_cases hplain : c = [] ∨ c = here
  · have hkeep : ∀ b s, push b s c = s := fun b s => if_pos hplain
    simp [hkeep]
  · by_cases hparent : c = parent
    · subst hparent
      cases parts with
      | nil => rfl
      | cons top below =>
        by_cases htop : top = parent
        · have htwo : push false (top :: below) parent = parent :: top :: below := by
            simp [push, htop, show parent ≠ [] by decide, show parent ≠ here by decide]
          simp [htwo]
        · have htopKept : IsKept top := hparts top List.mem_cons_self
          have hbelow : push false (top :: below) parent = below := by
            simp [push, htop, show parent ≠ [] by decide, show parent ≠ here by decide]
          simp [hbelow, push_parent rooted htopKept htop]
    · have hpush : push false parts c = c :: parts := by simp [push, hplain, hparent]
      simp [hpush]

theorem foldl_push_foldl (rooted : Bool) (stack : List Text) {more : List Text}
    (hmore : ∀ c ∈ more, Byte.slash ∉ c) (hparts : ∀ n ∈ parts, IsKept n) :
    (parts.reverse ++ more).foldl (push rooted) stack =
      (more.foldl (push false) parts).reverse.foldl (push rooted) stack := by
  induction more generalizing parts with
  | nil => simp
  | cons c more ih =>
    obtain ⟨hc, hmore⟩ := List.forall_mem_cons.mp hmore
    calc (parts.reverse ++ c :: more).foldl (push rooted) stack
      _ = more.foldl (push rooted) ((parts.reverse ++ [c]).foldl (push rooted) stack) := by simp
      _ = ((push false parts c).reverse ++ more).foldl (push rooted) stack := by
        rw [foldl_push_push rooted stack hparts, List.foldl_append]
      _ = (more.foldl (push false) (push false parts c)).reverse.foldl (push rooted) stack :=
        ih hmore (isKept_of_mem_push hparts hc false)

/-- A relative path does to a stack of components what its clean components do. -/
theorem foldl_cleanComponents (h : isAbsolute p = false) (rooted : Bool) (stack : List Text) :
    (cleanComponents p).foldl (push rooted) stack =
      (components p).foldl (push rooted) stack := by
  have hnil : ∀ n ∈ ([] : List Text), IsKept n := by simp
  rw [cleanComponents, h]
  exact (foldl_push_foldl rooted stack (fun c hc => Text.not_mem_of_mem_split hc) hnil).symm

theorem isAbsolute_joined (h : ∀ n ∈ parts, IsKept n) : isAbsolute (joined parts) = false := by
  cases parts with
  | nil => rfl
  | cons n parts =>
    have hn := h n List.mem_cons_self
    obtain ⟨b, t, rfl⟩ := List.exists_cons_of_ne_nil hn.ne_nil
    have hb : b ≠ Byte.slash := fun hb => hn.slash_not_mem (by simp [hb])
    cases parts <;> simp [joined, List.intercalate, isAbsolute, hb]

theorem joined_ne_nil (h : ∀ n ∈ parts, IsKept n) (hne : parts ≠ []) : joined parts ≠ [] := by
  cases parts with
  | nil => exact absurd rfl hne
  | cons n parts =>
    have hn := (h n List.mem_cons_self).ne_nil
    cases parts <;> simp [joined, List.intercalate, hn]

/-- The clean form of a relative path has the same clean components. -/
theorem cleanComponents_clean (h : isAbsolute p = false) :
    cleanComponents (clean p) = cleanComponents p := by
  have hkept : ∀ n ∈ cleanComponents p, IsKept n := isKept_of_mem_cleanComponents
  have hfold : (cleanComponents p).foldl (push false) [] = (cleanComponents p).reverse := by
    rw [foldl_cleanComponents h, cleanComponents, h, List.reverse_reverse]
  by_cases hne : cleanComponents p = []
  · have hclean : clean p = here := by simp [clean, h, hne, joined, List.intercalate]
    rw [hclean, hne]
    rfl
  · have hclean : clean p = joined (cleanComponents p) := by
      simp [clean, h, joined_ne_nil hkept hne]
    have hcomponents := components_joined (fun n hn => (hkept n hn).slash_not_mem) hne
    rw [hclean, cleanComponents, isAbsolute_joined hkept, hcomponents, hfold,
      List.reverse_reverse]

theorem isAbsolute_append_root (ha : a ≠ []) (p : Text) :
    isAbsolute (a ++ root ++ p) = isAbsolute a := by
  obtain ⟨b, t, rfl⟩ := List.exists_cons_of_ne_nil ha
  rfl

theorem cleanComponents_append (ha : a ≠ []) (p : Text) :
    cleanComponents (a ++ root ++ p) =
      ((components p).foldl (push (isAbsolute a)) (cleanComponents a).reverse).reverse := by
  have hsplit : components (a ++ root ++ p) = components a ++ components p := by
    rw [root, List.append_assoc]
    exact Text.split_append Byte.slash a p
  rw [cleanComponents, isAbsolute_append_root ha, hsplit, List.foldl_append, cleanComponents,
    List.reverse_reverse]

/-- From a directory that is given, a path is taken by adding it behind a slash, also an empty
one. -/
theorem join_eq_clean (ha : a ≠ []) (p : Text) : join a p = clean (a ++ root ++ p) := by
  by_cases hp : p = []
  · have hcomponents : cleanComponents (a ++ root ++ []) = cleanComponents a := by
      rw [cleanComponents_append ha]
      exact List.reverse_reverse _
    subst hp
    simp only [join, ha, if_true, if_false, clean, hcomponents, isAbsolute_append_root ha]
  · simp [join, ha, hp]

theorem join_congr (ha : a ≠ []) (hp : isAbsolute p = false) (hq : isAbsolute q = false)
    (h : clean p = clean q) : join a p = join a q := by
  have hparts : cleanComponents p = cleanComponents q := by
    rw [← cleanComponents_clean hp, h, cleanComponents_clean hq]
  have hcomponents : cleanComponents (a ++ root ++ p) = cleanComponents (a ++ root ++ q) := by
    rw [cleanComponents_append ha, cleanComponents_append ha, ← foldl_cleanComponents hp, hparts,
      foldl_cleanComponents hq]
  rw [join_eq_clean ha, join_eq_clean ha]
  simp only [clean, hcomponents, isAbsolute_append_root ha]

theorem clean_ne_nil (p : Text) : clean p ≠ [] := by
  simp only [clean]
  split
  · simp [root]
  · split
    · simp [here]
    · assumption

theorem directory_ne_nil (p : Text) : directory p ≠ [] :=
  clean_ne_nil _

end Path

end ShaderSyntax
