import ShaderSyntax.Include.Walk

/-!
# What a walk reports

A walk reports an include only while it is in the file that holds it. So every dependency comes from
a file that was read and parsed, and says of the include what the document of that file says.
-/
namespace ShaderSyntax

/-- The file that the dependency names can be read and parsed, and holds such an include. -/
def Dependency.Written (levels : Nat) (fs : FileSystem) (dep : Dependency) : Prop :=
  ∃ text d, fs.read dep.includer = .ok text ∧ Document.parse levels text = .ok d ∧
    (dep.path, dep.line) ∈ d.includes

namespace Resolver

variable {r : Resolver} {fs : FileSystem} {visit : Visitor} {P : Dependency → Prop}

/-- One include gives a dependency of its own, and those below it. -/
theorem followInclude_forall
    (hvisit : ∀ stack file visited deps, (visit stack file visited).1 = .ok deps →
      ∀ dep ∈ deps, P dep)
    (stack : List Text) (file : Text) (visited : List Text) (path : Text) (line : Nat)
    (hself : ∀ resolved error?, P ⟨file, line, path, resolved, error?⟩) :
    ∀ dep ∈ (r.followInclude fs visit stack file visited path line).dependencies, P dep := by
  intro dep hdep
  unfold followInclude at hdep
  split at hdep
  · rw [List.mem_singleton.mp hdep]
    exact hself _ _
  · split at hdep
    · rw [List.mem_singleton.mp hdep]
      exact hself _ _
    · split at hdep
      · rw [List.mem_singleton.mp hdep]
        exact hself _ _
      · split at hdep
        · rw [List.mem_singleton.mp hdep]
          exact hself _ _
        · next hv =>
          rcases List.mem_cons.mp hdep with rfl | hbelow
          · exact hself _ _
          · exact hvisit _ _ _ _ (congrArg Prod.fst hv) dep hbelow

theorem followIncludes_forall
    (hvisit : ∀ stack file visited deps, (visit stack file visited).1 = .ok deps →
      ∀ dep ∈ deps, P dep)
    (stack : List Text) (file : Text) (includes : List (Text × Nat)) (visited : List Text)
    (hself : ∀ i ∈ includes, ∀ resolved error?, P ⟨file, i.2, i.1, resolved, error?⟩) :
    ∀ dep ∈ (r.followIncludes fs visit stack file visited includes).dependencies, P dep := by
  induction includes generalizing visited with
  | nil => simp [followIncludes]
  | cons i rest ih =>
    intro dep hdep
    rcases List.mem_append.mp hdep with hfirst | hothers
    · exact followInclude_forall hvisit stack file visited i.1 i.2 (hself i (by simp)) dep hfirst
    · exact ih _ (fun j hj => hself j (by simp [hj])) dep hothers

/-- Whatever room there is, a walk reports written includes only. -/
theorem walkWithin_written (room : Nat) (stack : List Text) (file : Text) (visited : List Text)
    (deps : List Dependency) (h : (r.walkWithin fs room stack file visited).1 = .ok deps) :
    ∀ dep ∈ deps, dep.Written r.levels fs := by
  induction room generalizing stack file visited deps with
  | zero =>
    cases h
    simp
  | succ room ih =>
    unfold walkWithin at h
    split at h
    · cases h
    · next text hread =>
      split at h
      · cases h
      · next d hparse =>
        cases h
        apply followIncludes_forall ih
        intro i hi resolved error?
        exact ⟨text, d, hread, hparse, hi⟩

theorem walk_written {path : Text} {deps : List Dependency} (h : r.walk fs path = .ok deps) :
    ∀ dep ∈ deps, dep.Written r.levels fs := by
  unfold walk at h
  dsimp only at h
  split at h
  · cases h
  · exact walkWithin_written _ _ _ _ _ h

end Resolver

end ShaderSyntax
