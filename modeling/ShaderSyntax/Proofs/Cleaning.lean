import ShaderSyntax.FileSystem

/-!
# Clean paths

The components of a clean absolute path are names: nothing in them would be cleaned away again. So
cleaning such a path changes nothing, and a file that was made absolute once stays as it is.
-/
namespace ShaderSyntax

namespace Text

variable {separator : UInt8} {t : Text}

theorem split_of_not_mem (h : separator ∉ t) : split separator t = [t] := by
  induction t with
  | nil => rfl
  | cons b t ih =>
    have hb : b ≠ separator := fun he => h (by simp [he])
    have ht : separator ∉ t := fun hm => h (by simp [hm])
    simp [split, hb, ih ht]

/-- The first separator ends the first piece. -/
theorem split_append_cons (h : separator ∉ t) (more : Text) :
    split separator (t ++ separator :: more) = t :: split separator more := by
  induction t with
  | nil => simp [split]
  | cons b t ih =>
    have hb : b ≠ separator := fun he => h (by simp [he])
    have ht : separator ∉ t := fun hm => h (by simp [hm])
    simp [split, hb, ih ht]

/-- No piece holds a separator. -/
theorem not_mem_of_mem_split {piece : Text} (h : piece ∈ split separator t) :
    separator ∉ piece := by
  induction t generalizing piece with
  | nil => simp_all
  | cons b t ih =>
    unfold split at h
    split at h
    · rcases List.mem_cons.mp h with rfl | h
      · simp
      · exact ih h
    · next hb =>
      cases hs : split separator t with
      | nil => exact absurd hs (split_ne_nil separator t)
      | cons first others =>
        rw [hs] at h ih
        rcases List.mem_cons.mp h with rfl | h
        · have hfirst : separator ∉ first := ih (by simp)
          simp [Ne.symm hb, hfirst]
        · exact ih (by simp [h])

end Text

namespace Path

/-- A component that a clean absolute path may have. -/
structure IsName (c : Text) : Prop where
  ne_nil : c ≠ []
  ne_here : c ≠ here
  ne_parent : c ≠ parent
  slash_not_mem : Byte.slash ∉ c

variable {c p q : Text} {stack parts : List Text}

theorem IsName.push (h : IsName c) (rooted : Bool) (stack : List Text) :
    push rooted stack c = c :: stack := by
  simp [Path.push, h.ne_nil, h.ne_here, h.ne_parent]

/-- Below the root there are only names, for the parent of the root is the root. -/
theorem isName_of_mem_push (hstack : ∀ n ∈ stack, IsName n) (hc : Byte.slash ∉ c) :
    ∀ n ∈ push true stack c, IsName n := by
  unfold push
  split
  · exact hstack
  · next hplain =>
    split
    · cases stack with
      | nil => simp
      | cons top below =>
        have htop : top ≠ parent := (hstack top (by simp)).ne_parent
        simp only [htop, if_false]
        exact fun n hn => hstack n (by simp [hn])
    · next hparent =>
      intro n hn
      rcases List.mem_cons.mp hn with rfl | hn
      · exact ⟨fun h => hplain (.inl h), fun h => hplain (.inr h), hparent, hc⟩
      · exact hstack n hn

theorem isName_of_mem_cleanComponents (h : isAbsolute p = true) :
    ∀ n ∈ cleanComponents p, IsName n := by
  have hfold : ∀ (more stack : List Text), (∀ c ∈ more, Byte.slash ∉ c) →
      (∀ n ∈ stack, IsName n) → ∀ n ∈ more.foldl (push true) stack, IsName n := by
    intro more
    induction more with
    | nil => exact fun _ _ hstack => hstack
    | cons c more ih =>
      intro stack hmore hstack
      exact ih _ (fun d hd => hmore d (by simp [hd]))
        (isName_of_mem_push hstack (hmore c (by simp)))
  intro n hn
  rw [cleanComponents, h, List.mem_reverse] at hn
  exact hfold _ _ (fun c hc => Text.not_mem_of_mem_split hc) (by simp) n hn

/-- Names are pushed one by one. -/
theorem foldl_push (h : ∀ n ∈ parts, IsName n) (stack : List Text) :
    parts.foldl (push true) stack = parts.reverse ++ stack := by
  induction parts generalizing stack with
  | nil => rfl
  | cons n parts ih =>
    rw [List.foldl_cons, (h n (by simp)).push, ih (fun m hm => h m (by simp [hm]))]
    simp

theorem components_joined (h : ∀ n ∈ parts, Byte.slash ∉ n) (hne : parts ≠ []) :
    components (joined parts) = parts := by
  induction parts with
  | nil => exact absurd rfl hne
  | cons n parts ih =>
    have hn := h n (by simp)
    cases parts with
    | nil => simpa [components, joined] using Text.split_of_not_mem hn
    | cons m parts =>
      have hjoined : joined (n :: m :: parts) = n ++ Byte.slash :: joined (m :: parts) := by
        simp [joined, root, List.intercalate]
      rw [hjoined, components, Text.split_append_cons hn]
      exact congrArg _ (ih (fun k hk => h k (by simp [hk])) (List.cons_ne_nil m parts))

/-- A path from the root by names is clean. -/
theorem cleanComponents_root (h : ∀ n ∈ parts, IsName n) :
    cleanComponents (root ++ joined parts) = parts := by
  have hroot : components (root ++ joined parts) = [] :: components (joined parts) :=
    Text.split_append_cons List.not_mem_nil _
  have habsolute : isAbsolute (root ++ joined parts) = true := rfl
  have hempty : push true [] [] = [] := rfl
  rw [cleanComponents, habsolute, hroot, List.foldl_cons, hempty]
  by_cases hne : parts = []
  · subst hne
    rfl
  · have hcomponents := components_joined (fun n hn => (h n hn).slash_not_mem) hne
    rw [hcomponents, foldl_push h, List.append_nil, List.reverse_reverse]

theorem clean_of_isAbsolute (h : isAbsolute p = true) :
    clean p = root ++ joined (cleanComponents p) := by
  simp [clean, h]

theorem isAbsolute_clean (h : isAbsolute p = true) : isAbsolute (clean p) = true := by
  rw [clean_of_isAbsolute h]
  rfl

/-- A clean absolute path stays as it is. -/
theorem clean_clean (h : isAbsolute p = true) : clean (clean p) = clean p := by
  rw [clean_of_isAbsolute (isAbsolute_clean h)]
  rw [clean_of_isAbsolute h, cleanComponents_root (isName_of_mem_cleanComponents h)]

theorem isAbsolute_append (h : isAbsolute p = true) (more : Text) :
    isAbsolute (p ++ more) = true := by
  cases p with
  | nil => cases h
  | cons b p => exact h

/-- Every path is made absolute by cleaning some absolute path. -/
theorem exists_absolute (hp : isAbsolute p = true) (q : Text) :
    ∃ full, isAbsolute full = true ∧ absolute p q = clean full := by
  unfold absolute join
  have hne : p ≠ [] := by
    rintro rfl
    cases hp
  split
  · next hq => exact ⟨q, hq, rfl⟩
  · split
    · exact ⟨p, hp, rfl⟩
    · exact ⟨p ++ root ++ q, isAbsolute_append (isAbsolute_append hp _) _, rfl⟩

end Path

namespace FileSystem

/-- The working directory has an absolute path, as it has on every system. -/
def Rooted (fs : FileSystem) : Prop :=
  Path.isAbsolute fs.workingDirectory = true

variable {fs : FileSystem}

theorem Rooted.isAbsolute_absolute (h : fs.Rooted) (p : Text) :
    Path.isAbsolute (fs.absolute p) = true := by
  obtain ⟨full, hfull, hp⟩ := Path.exists_absolute h p
  rw [absolute, hp]
  exact Path.isAbsolute_clean hfull

/-- A path that was made absolute is absolute, in the same spelling. -/
theorem Rooted.absolute_absolute (h : fs.Rooted) (p : Text) :
    fs.absolute (fs.absolute p) = fs.absolute p := by
  have habsolute := h.isAbsolute_absolute p
  obtain ⟨full, hfull, hp⟩ := Path.exists_absolute h p
  rw [absolute, Path.absolute, if_pos habsolute, absolute, hp, Path.clean_clean hfull]

theorem Rooted.absolute_ne_nil (h : fs.Rooted) (p : Text) : fs.absolute p ≠ [] := by
  intro hp
  have habsolute := h.isAbsolute_absolute p
  rw [hp] at habsolute
  cases habsolute

end FileSystem

end ShaderSyntax
