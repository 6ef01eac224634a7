import Mathlib.Logic.Relation
import ShaderSyntax.Include.Walk
import ShaderSyntax.Proofs.Cleaning

/-!
# Following includes

The include graph has an edge from each file that can be read and parsed to every file that one of
its includes means. A walk follows these edges from includes to files, and `Follows` gives the rules
of it: an include stops the walk, or it leads into a file that was not visited before. The room that
a walk counts down never runs out, for no more files are open within each other than it has room for.
-/
namespace ShaderSyntax

namespace Resolver

/-- Reads a file and parses it. -/
def load (r : Resolver) (fs : FileSystem) (file : Text) : Except IncludeError Document :=
  match fs.read file with
  | .error e => .error (.unreadable e)
  | .ok text => (Document.parse r.levels text).mapError (.tooDeep file)

/-- Why a file cannot be read or parsed. -/
def failure? (r : Resolver) (fs : FileSystem) (file : Text) : Option IncludeError :=
  match r.load fs file with
  | .error e => some e
  | .ok _ => none

/-- The includes of a file. There are none to be seen where it cannot be read or parsed. -/
def includesOf (r : Resolver) (fs : FileSystem) (file : Text) : List (Text × Nat) :=
  match r.load fs file with
  | .error _ => []
  | .ok d => d.includes

/-- An include of the file means the target: the edges of the include graph. -/
def Leads (r : Resolver) (fs : FileSystem) (file target : Text) : Prop :=
  ∃ d path line, r.load fs file = .ok d ∧ (path, line) ∈ d.includes ∧
    r.resolve fs path file = .ok target

/-- The file is reached from another along includes. -/
abbrev Reaches (r : Resolver) (fs : FileSystem) : Text → Text → Prop :=
  Relation.ReflTransGen (r.Leads fs)

/-- An include that a walk does not go into, with its meaning and what is wrong with it. -/
inductive Stops (r : Resolver) (fs : FileSystem) (stack : List Text) (visited : List Text)
    (file path : Text) : Text → Option IncludeError → Prop where
  | unresolved {e : IncludeError} : r.resolve fs path file = .error e →
    r.Stops fs stack visited file path [] (some e)
  | refused {target : Text} {e : IncludeError} : r.resolve fs path file = .ok target →
    open? fs stack target = .error e → r.Stops fs stack visited file path target (some e)
  | known {target : Text} {inner : List Text} : r.resolve fs path file = .ok target →
    open? fs stack target = .ok inner → target ∈ visited →
    r.Stops fs stack visited file path target none

/-- With these files open and visited, the includes of a file give the dependencies, and the walk
goes into the files of the last list, in order. -/
inductive Follows (r : Resolver) (fs : FileSystem) :
    List Text → Text → List Text → List (Text × Nat) → List Dependency → List Text → Prop where
  | nil (stack : List Text) (file : Text) (visited : List Text) :
    r.Follows fs stack file visited [] [] []
  | stop {stack : List Text} {file : Text} {visited : List Text} {path : Text} {line : Nat}
    {rest : List (Text × Nat)} {resolved : Text} {error? : Option IncludeError}
    {deps : List Dependency} {fresh : List Text} :
    r.Stops fs stack visited file path resolved error? →
    r.Follows fs stack file visited rest deps fresh →
    r.Follows fs stack file visited ((path, line) :: rest)
      (⟨file, line, path, resolved, error?⟩ :: deps) fresh
  | enter {stack : List Text} {file : Text} {visited : List Text} {path : Text} {line : Nat}
    {rest : List (Text × Nat)} {target : Text} {inner : List Text} {below deps : List Dependency}
    {new fresh : List Text} :
    r.resolve fs path file = .ok target → open? fs stack target = .ok inner → target ∉ visited →
    r.Follows fs inner target (target :: visited) (r.includesOf fs target) below new →
    r.Follows fs stack file (new.reverse ++ target :: visited) rest deps fresh →
    r.Follows fs stack file visited ((path, line) :: rest)
      (⟨file, line, path, target, r.failure? fs target⟩ :: (below ++ deps))
      (target :: (new ++ fresh))

variable {r : Resolver} {fs : FileSystem} {stack inner visited : List Text} {file target : Text}

theorem open?_eq_ok_iff : open? fs stack target = .ok inner ↔
    fs.absolute target ∉ stack ∧ stack.length < maxIncludeDepth ∧
      inner = stack ++ [fs.absolute target] := by
  unfold open?
  by_cases hmem : fs.absolute target ∈ stack
  · simp [hmem]
  · by_cases hlen : maxIncludeDepth ≤ stack.length
    · simp [hmem, hlen, Nat.not_lt.mpr hlen]
    · simp [hmem, hlen, Nat.not_le.mp hlen, eq_comm]

theorem open?_eq_error_iff {e : IncludeError} : open? fs stack target = .error e ↔
    (fs.absolute target ∈ stack ∧ e = .cycle (fs.absolute target) stack) ∨
      (fs.absolute target ∉ stack ∧ maxIncludeDepth ≤ stack.length ∧
        e = .tooNested (fs.absolute target)) := by
  unfold open?
  by_cases hmem : fs.absolute target ∈ stack
  · simp [hmem, eq_comm]
  · by_cases hlen : maxIncludeDepth ≤ stack.length
    · simp [hmem, hlen, eq_comm]
    · simp [hmem, hlen]

/-- What an include means is an absolute path. -/
theorem resolve_eq_absolute {path : Text} (h : r.resolve fs path file = .ok target) :
    ∃ candidate, target = fs.absolute candidate := by
  unfold resolve at h
  split at h
  · cases h
  · split at h
    · next c _ =>
      cases h
      exact ⟨c, rfl⟩
    · cases h

theorem absolute_of_resolve (hfs : fs.Rooted) {path : Text}
    (h : r.resolve fs path file = .ok target) : fs.absolute target = target := by
  obtain ⟨c, rfl⟩ := resolve_eq_absolute h
  exact hfs.absolute_absolute c

theorem ne_nil_of_resolve (hfs : fs.Rooted) {path : Text}
    (h : r.resolve fs path file = .ok target) : target ≠ [] := by
  obtain ⟨c, rfl⟩ := resolve_eq_absolute h
  exact hfs.absolute_ne_nil c

theorem includesOf_of_load {d : Document} (h : r.load fs file = .ok d) :
    r.includesOf fs file = d.includes := by
  rw [includesOf, h]

theorem mem_includesOf_iff {i : Text × Nat} :
    i ∈ r.includesOf fs file ↔ ∃ d, r.load fs file = .ok d ∧ i ∈ d.includes := by
  unfold includesOf
  cases r.load fs file <;> simp

/-- What goes wrong with a file itself is that it cannot be read or nests too deep. -/
theorem failure?_eq_some {e : IncludeError} (h : r.failure? fs file = some e) :
    (∃ e', e = .unreadable e') ∨ ∃ limit, e = .tooDeep file limit := by
  unfold failure? load at h
  cases hr : fs.read file with
  | error e' =>
    rw [hr] at h
    cases h
    exact .inl ⟨e', rfl⟩
  | ok text =>
    simp only [hr] at h
    cases hp : Document.parse r.levels text with
    | error limit =>
      rw [hp] at h
      cases h
      exact .inr ⟨limit, rfl⟩
    | ok d =>
      rw [hp] at h
      cases h

theorem leads_iff : r.Leads fs file target ↔
    ∃ i ∈ r.includesOf fs file, r.resolve fs i.1 file = .ok target := by
  constructor
  · rintro ⟨d, path, line, hd, hi, ht⟩
    exact ⟨(path, line), mem_includesOf_iff.mpr ⟨d, hd, hi⟩, ht⟩
  · rintro ⟨⟨path, line⟩, hi, ht⟩
    obtain ⟨d, hd, hi⟩ := mem_includesOf_iff.mp hi
    exact ⟨d, path, line, hd, hi, ht⟩

/-- Where there is room for one more file, its includes are followed. -/
theorem walkWithin_succ (room : Nat) : r.walkWithin fs (room + 1) stack file visited =
    match r.load fs file with
    | .error e => (.error e, visited)
    | .ok d =>
      let walked := r.followIncludes fs (r.walkWithin fs room) stack file visited d.includes
      (.ok walked.dependencies, walked.visited) := by
  unfold load
  rw [walkWithin]
  cases fs.read file with
  | error e => rfl
  | ok text =>
    dsimp only
    cases Document.parse r.levels text <;> rfl

/-- What a walk through a file comes to, in the rules of `Follows`. -/
def Visits (r : Resolver) (fs : FileSystem) (visit : Visitor) (stack : List Text) : Prop :=
  ∀ file visited, ∃ deps fresh,
    r.Follows fs stack file visited (r.includesOf fs file) deps fresh ∧
      visit stack file visited =
        (match r.failure? fs file with
          | none => .ok deps
          | some e => .error e, fresh.reverse ++ visited)

theorem followIncludes_follows (file : Text) {visit : Visitor}
    (hvisit : ∀ target inner, open? fs stack target = .ok inner → r.Visits fs visit inner)
    (includes : List (Text × Nat)) (visited : List Text) : ∃ deps fresh,
      r.Follows fs stack file visited includes deps fresh ∧
        r.followIncludes fs visit stack file visited includes =
          ⟨deps, fresh.reverse ++ visited⟩ := by
  induction includes generalizing visited with
  | nil => exact ⟨[], [], .nil stack file visited, rfl⟩
  | cons i rest ih =>
    obtain ⟨path, line⟩ := i
    -- An include that is not gone into leaves the files visited as they are.
    have hstop : ∀ resolved error?, r.Stops fs stack visited file path resolved error? →
        r.followInclude fs visit stack file visited path line =
          ⟨[⟨file, line, path, resolved, error?⟩], visited⟩ →
        ∃ deps fresh, r.Follows fs stack file visited ((path, line) :: rest) deps fresh ∧
          r.followIncludes fs visit stack file visited ((path, line) :: rest) =
            ⟨deps, fresh.reverse ++ visited⟩ := by
      intro resolved error? hs hf
      obtain ⟨deps, fresh, hrest, heq⟩ := ih visited
      refine ⟨_, fresh, .stop hs hrest, ?_⟩
      rw [followIncludes, hf]
      simp only [heq, List.singleton_append]
    cases hr : r.resolve fs path file with
    | error e => exact hstop _ _ (.unresolved hr) (by simp only [followInclude, hr])
    | ok target =>
      cases ho : open? fs stack target with
      | error e => exact hstop _ _ (.refused hr ho) (by simp only [followInclude, hr, ho])
      | ok inner =>
        by_cases hv : target ∈ visited
        · refine hstop _ _ (.known hr ho hv) ?_
          have hc : visited.contains target = true := by simpa using hv
          simp only [followInclude, hr, ho, hc, if_true]
        · have hc : visited.contains target = false := by simpa using hv
          obtain ⟨below, new, hbelow, heq⟩ := hvisit target inner ho target (target :: visited)
          obtain ⟨deps, fresh, hrest, hothers⟩ := ih (new.reverse ++ target :: visited)
          refine ⟨_, _, .enter hr ho hv hbelow hrest, ?_⟩
          have hfirst : r.followInclude fs visit stack file visited path line =
              ⟨⟨file, line, path, target, r.failure? fs target⟩ :: below,
                new.reverse ++ target :: visited⟩ := by
            simp only [followInclude, hr, ho, hc, Bool.false_eq_true, if_false, heq]
            cases hl : r.load fs target with
            | ok d => simp only [failure?, hl]
            | error e =>
              rw [includesOf, hl] at hbelow
              cases hbelow
              simp only [failure?, hl]
          rw [followIncludes, hfirst]
          simp only [hothers, List.cons_append, List.reverse_cons, List.reverse_append,
            List.append_assoc, List.nil_append]

/-- A walk that has room for all files that may still be opened follows the rules. -/
theorem walkWithin_visits (r : Resolver) (fs : FileSystem) (room : Nat)
    (hlen : stack.length ≤ maxIncludeDepth) (hroom : maxIncludeDepth < stack.length + room) :
    r.Visits fs (r.walkWithin fs room) stack := by
  induction room generalizing stack with
  | zero => omega
  | succ room ih =>
    intro file visited
    rw [walkWithin_succ]
    cases hl : r.load fs file with
    | error e =>
      refine ⟨[], [], ?_, by simp [failure?, hl]⟩
      rw [includesOf, hl]
      exact .nil stack file visited
    | ok d =>
      have hinner : ∀ target inner, open? fs stack target = .ok inner →
          r.Visits fs (r.walkWithin fs room) inner := by
        intro target inner ho
        obtain ⟨-, hlt, rfl⟩ := open?_eq_ok_iff.mp ho
        apply ih <;> simp <;> omega
      obtain ⟨deps, fresh, hf, heq⟩ := followIncludes_follows file hinner d.includes visited
      refine ⟨deps, fresh, ?_, ?_⟩
      · rwa [includesOf_of_load hl]
      · simp only [failure?, hl, heq]

/-- A walk from a file that can be opened has that room. -/
theorem visits_of_open? {path : Text} (h : open? fs r.stack path = .ok stack) :
    r.Visits fs (r.walkWithin fs maxIncludeDepth) stack := by
  obtain ⟨-, hlt, rfl⟩ := open?_eq_ok_iff.mp h
  apply walkWithin_visits <;> rw [List.length_append, List.length_singleton] <;> omega

/-- A walk that gives dependencies starts in a file that can be read and parsed, and follows its
includes by the rules. -/
theorem walk_eq_ok {path : Text} {deps : List Dependency} (h : r.walk fs path = .ok deps) :
    ∃ stack fresh, open? fs r.stack (fs.absolute path) = .ok stack ∧
      r.failure? fs (fs.absolute path) = none ∧
      r.walkWithin fs maxIncludeDepth stack (fs.absolute path) [fs.absolute path] =
        (.ok deps, fresh.reverse ++ [fs.absolute path]) ∧
      r.Follows fs stack (fs.absolute path) [fs.absolute path]
        (r.includesOf fs (fs.absolute path)) deps fresh := by
  unfold walk at h
  dsimp only at h
  split at h
  · cases h
  · next stack ho =>
    obtain ⟨deps', fresh, hf, heq⟩ := visits_of_open? ho (fs.absolute path) [fs.absolute path]
    cases hl : r.failure? fs (fs.absolute path) with
    | some e =>
      rw [heq, hl] at h
      cases h
    | none =>
      rw [hl] at heq
      rw [heq] at h
      cases h
      exact ⟨stack, fresh, ho, rfl, heq, hf⟩

/-- A check on what a walk lists, so that it can be evaluated. -/
theorem exists_walk (r : Resolver) (fs : FileSystem) (path : Text) (p : List Dependency → Bool)
    (h : (r.walk fs path).toOption.any p = true) :
    ∃ deps, r.walk fs path = .ok deps ∧ p deps = true := by
  cases hdeps : r.walk fs path with
  | error e => simp [hdeps, Except.toOption] at h
  | ok deps => exact ⟨deps, rfl, by simpa [hdeps, Except.toOption] using h⟩

end Resolver

end ShaderSyntax
