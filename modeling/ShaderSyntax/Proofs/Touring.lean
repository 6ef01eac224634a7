import ShaderSyntax.Proofs.Following

/-!
# Tours

A walk told in its steps: it opens files and closes them again, marks them as visited and reads them.
A tour carries the open files along instead of handing them down, and keeps a record of every file
that was read and of every stack of open files that there was. It gives what the walk gives, and
leaves the open files as they were.
-/
namespace ShaderSyntax

/-- A walk under way, with the record of it so far. -/
structure Tour where
  stack : List Text
  visited : List Text
  reads : List Text
  passed : List (List Text)

/-- What goes into a file on a tour. -/
abbrev Stage :=
  Text → Tour → Except IncludeError (List Dependency) × Tour

/-- No file is open twice, and no more files are open than may be. -/
structure Orderly (stack : List Text) : Prop where
  nodup : stack.Nodup
  length_le : stack.length ≤ maxIncludeDepth

namespace Tour

/-- Opens a file. -/
def push (fs : FileSystem) (t : Tour) (path : Text) : Except IncludeError Tour :=
  (Resolver.open? fs t.stack path).map fun stack =>
    { t with stack, passed := t.passed ++ [stack] }

/-- Closes the innermost file. -/
def pop (t : Tour) : Tour :=
  { t with stack := t.stack.dropLast, passed := t.passed ++ [t.stack.dropLast] }

/-- Marks a file as visited. -/
def mark (t : Tour) (file : Text) : Tour :=
  { t with visited := file :: t.visited }

/-- Reads a file and parses it. -/
def load (r : Resolver) (fs : FileSystem) (t : Tour) (file : Text) :
    Except IncludeError Document × Tour :=
  (r.load fs file, { t with reads := t.reads ++ [file] })

/-- Follows one include of a file. Whatever was opened for it is closed again. -/
def follow (r : Resolver) (fs : FileSystem) (stage : Stage) (file : Text) (t : Tour) (path : Text)
    (line : Nat) : List Dependency × Tour :=
  match r.resolve fs path file with
  | .error e => ([⟨file, line, path, [], some e⟩], t)
  | .ok target =>
    match t.push fs target with
    | .error e => ([⟨file, line, path, target, some e⟩], t)
    | .ok inner =>
      if inner.visited.contains target then ([⟨file, line, path, target, none⟩], inner.pop)
      else
        match stage target (inner.mark target) with
        | (.error e, after) => ([⟨file, line, path, target, some e⟩], after.pop)
        | (.ok below, after) => (⟨file, line, path, target, none⟩ :: below, after.pop)

/-- Follows the includes of a file in order. -/
def followAll (r : Resolver) (fs : FileSystem) (stage : Stage) (file : Text) :
    Tour → List (Text × Nat) → List Dependency × Tour
  | t, [] => ([], t)
  | t, (path, line) :: rest =>
    let (first, middle) := follow r fs stage file t path line
    let (others, after) := followAll r fs stage file middle rest
    (first ++ others, after)

/-- Goes through a file that is open, where `room` more files may be opened within each other. -/
def within (r : Resolver) (fs : FileSystem) : Nat → Stage
  | 0, _, t => (.ok [], t)
  | room + 1, file, t =>
    match t.load r fs file with
    | (.error e, after) => (.error e, after)
    | (.ok document, after) =>
      let (dependencies, after) :=
        followAll r fs (within r fs room) file after document.includes
      (.ok dependencies, after)

end Tour

/-- The walk through all includes reached from a file, as a tour that starts with the files that are
open now. -/
def Resolver.tour (r : Resolver) (fs : FileSystem) (path : Text) :
    Except IncludeError (List Dependency) × Tour :=
  let file := fs.absolute path
  let t : Tour := ⟨r.stack, [], [], [r.stack]⟩
  match t.push fs file with
  | .error e => (.error e, t)
  | .ok inner =>
    let (result, after) := Tour.within r fs maxIncludeDepth file (inner.mark file)
    (result, after.pop)

theorem orderly_nil : Orderly [] :=
  ⟨List.nodup_nil, Nat.zero_le _⟩

theorem Orderly.open? {fs : FileSystem} {stack inner : List Text} {path : Text}
    (h : Orderly stack) (ho : Resolver.open? fs stack path = .ok inner) : Orderly inner := by
  obtain ⟨hmem, hlt, rfl⟩ := Resolver.open?_eq_ok_iff.mp ho
  constructor
  · refine List.nodup_append.mpr ⟨h.nodup, by simp, ?_⟩
    rintro f hf g hg rfl
    rw [List.mem_singleton.mp hg] at hf
    exact hmem hf
  · simpa using Nat.succ_le_of_lt hlt

namespace Tour

/-- Later the same files are open, these were visited since, and these read. Every stack that there
was meanwhile is in order. -/
structure Goes (t : Tour) (fresh read : List Text) (after : Tour) : Prop where
  stack : after.stack = t.stack
  visited : after.visited = fresh.reverse ++ t.visited
  reads : after.reads = t.reads ++ read
  passed : ∀ s ∈ after.passed, s ∈ t.passed ∨ Orderly s

variable {r : Resolver} {fs : FileSystem} {t inner middle after : Tour} {file path : Text}
  {stage : Stage} {visit : Resolver.Visitor}

theorem goes_refl (t : Tour) : t.Goes [] [] t :=
  ⟨rfl, rfl, (List.append_nil _).symm, fun _ hs => .inl hs⟩

theorem Goes.trans {fresh read fresh' read' : List Text} (h : t.Goes fresh read middle)
    (h' : middle.Goes fresh' read' after) :
    t.Goes (fresh ++ fresh') (read ++ read') after := by
  constructor
  · rw [h'.stack, h.stack]
  · rw [h'.visited, h.visited, List.reverse_append, List.append_assoc]
  · rw [h'.reads, h.reads, List.append_assoc]
  · intro s hs
    rcases h'.passed s hs with hs | hs
    · exact h.passed s hs
    · exact .inr hs

theorem push_eq_ok (h : Resolver.open? fs t.stack path = .ok s) :
    t.push fs path = .ok { t with stack := s, passed := t.passed ++ [s] } := by
  rw [push, h]
  rfl

/-- Between opening a file and closing it again, a tour goes on from the open file. -/
theorem Goes.close {stack fresh read : List Text} (ht : Orderly t.stack)
    (ho : Resolver.open? fs t.stack path = .ok stack)
    (h : Goes { t with stack, passed := t.passed ++ [stack] } fresh read after) :
    t.Goes fresh read after.pop := by
  have hstack : after.stack.dropLast = t.stack := by
    obtain ⟨-, -, rfl⟩ := Resolver.open?_eq_ok_iff.mp ho
    rw [h.stack]
    exact List.dropLast_concat
  refine ⟨hstack, h.visited, h.reads, ?_⟩
  intro s hs
  rcases List.mem_append.mp hs with hs | hs
  · rcases h.passed s hs with hs | hs
    · rcases List.mem_append.mp hs with hs | hs
      · exact .inl hs
      · rw [List.mem_singleton.mp hs]
        exact .inr (ht.open? ho)
    · exact .inr hs
  · rw [List.mem_singleton.mp hs, hstack]
    exact .inr ht

/-- On this tour the stage gives what the visitor gives. It reads the file and then those that it
visits. -/
def Agrees (t : Tour) (stage : Stage) (visit : Resolver.Visitor) : Prop :=
  ∀ file, ∃ result fresh after, stage file t = (result, after) ∧
    visit t.stack file t.visited = (result, fresh.reverse ++ t.visited) ∧
    t.Goes fresh (file :: fresh) after

theorem follow_agrees (r : Resolver) (fs : FileSystem) (ht : Orderly t.stack)
    (hstage : ∀ inner : Tour, Orderly inner.stack → inner.stack.length = t.stack.length + 1 →
      inner.Agrees stage visit) (file path : Text) (line : Nat) :
    ∃ deps fresh after, follow r fs stage file t path line = (deps, after) ∧
      r.followInclude fs visit t.stack file t.visited path line =
        ⟨deps, fresh.reverse ++ t.visited⟩ ∧ t.Goes fresh fresh after := by
  unfold follow Resolver.followInclude
  cases hr : r.resolve fs path file with
  | error e => exact ⟨_, [], t, rfl, rfl, goes_refl t⟩
  | ok target =>
    dsimp only
    cases ho : Resolver.open? fs t.stack target with
    | error e =>
      have hpush : t.push fs target = .error e := by
        rw [push, ho]
        rfl
      rw [hpush]
      exact ⟨_, [], t, rfl, rfl, goes_refl t⟩
    | ok stack =>
      rw [push_eq_ok ho]
      dsimp only
      by_cases hv : t.visited.contains target = true
      · rw [if_pos hv, if_pos hv]
        exact ⟨_, [], _, rfl, rfl, (goes_refl _).close ht ho⟩
      · rw [if_neg hv, if_neg hv]
        have hlen : stack.length = t.stack.length + 1 := by
          obtain ⟨-, -, rfl⟩ := Resolver.open?_eq_ok_iff.mp ho
          exact List.length_append
        obtain ⟨result, fresh, after, hs, hvisit, hgoes⟩ :=
          hstage (mark { t with stack, passed := t.passed ++ [stack] } target) (ht.open? ho) hlen
            target
        have hopen : Goes { t with stack, passed := t.passed ++ [stack] } (target :: fresh)
            (target :: fresh) after :=
          ⟨hgoes.stack, by simp [hgoes.visited, mark], hgoes.reads, hgoes.passed⟩
        have hfresh : (target :: fresh).reverse ++ t.visited =
            fresh.reverse ++ target :: t.visited := by simp
        have hvisit : visit stack target (target :: t.visited) =
            (result, (target :: fresh).reverse ++ t.visited) := by rw [hfresh]; exact hvisit
        rw [hs, hvisit]
        cases result with
        | error e => exact ⟨_, target :: fresh, _, rfl, rfl, hopen.close ht ho⟩
        | ok below => exact ⟨_, target :: fresh, _, rfl, rfl, hopen.close ht ho⟩

theorem followAll_agrees (r : Resolver) (fs : FileSystem) (includes : List (Text × Nat))
    (t : Tour) (ht : Orderly t.stack)
    (hstage : ∀ inner : Tour, Orderly inner.stack → inner.stack.length = t.stack.length + 1 →
      inner.Agrees stage visit) (file : Text) :
    ∃ deps fresh after, followAll r fs stage file t includes = (deps, after) ∧
      r.followIncludes fs visit t.stack file t.visited includes =
        ⟨deps, fresh.reverse ++ t.visited⟩ ∧ t.Goes fresh fresh after := by
  induction includes generalizing t with
  | nil => exact ⟨[], [], t, rfl, rfl, goes_refl t⟩
  | cons i rest ih =>
    obtain ⟨path, line⟩ := i
    obtain ⟨first, fresh, middle, hfirst, hfirst', hgoes⟩ :=
      follow_agrees r fs ht hstage file path line
    obtain ⟨others, fresh', after, hothers, hothers', hgoes'⟩ :=
      ih middle (hgoes.stack ▸ ht) (hgoes.stack ▸ hstage)
    refine ⟨first ++ others, fresh ++ fresh', after, ?_, ?_, hgoes.trans hgoes'⟩
    · simp only [followAll, hfirst, hothers]
    · rw [hgoes.stack, hgoes.visited] at hothers'
      simp only [Resolver.followIncludes, hfirst', hothers', List.reverse_append,
        List.append_assoc]

/-- Where a walk has room for all files that may still be opened, a tour gives what it gives. -/
theorem within_agrees (r : Resolver) (fs : FileSystem) (room : Nat) (t : Tour)
    (ht : Orderly t.stack)
    (hroom : maxIncludeDepth < t.stack.length + room) :
    t.Agrees (within r fs room) (r.walkWithin fs room) := by
  induction room generalizing t with
  | zero =>
    have := ht.length_le
    omega
  | succ room ih =>
    intro file
    rw [Resolver.walkWithin_succ]
    simp only [within, load]
    have hread : t.Goes [] [file] { t with reads := t.reads ++ [file] } :=
      ⟨rfl, rfl, rfl, fun _ hs => .inl hs⟩
    cases hl : r.load fs file with
    | error e => exact ⟨.error e, [], _, rfl, rfl, hread⟩
    | ok d =>
      obtain ⟨deps, fresh, after, hall, hall', hgoes⟩ :=
        followAll_agrees r fs d.includes { t with reads := t.reads ++ [file] } ht
          (fun inner hi hlen => ih inner hi (by rw [hlen]; dsimp only; omega)) file
      refine ⟨.ok deps, fresh, after, ?_, ?_, hread.trans hgoes⟩
      · simp only [hall]
      · simp only [hall']

end Tour

namespace Resolver

variable {r : Resolver} {fs : FileSystem}

/-- A tour that gets its first file open goes on as the walk does. -/
theorem tour_goes (h : Orderly r.stack) {path : Text} {stack : List Text}
    (ho : open? fs r.stack (fs.absolute path) = .ok stack) :
    ∃ result fresh after, r.tour fs path = (result, after) ∧
      r.walkWithin fs maxIncludeDepth stack (fs.absolute path) [fs.absolute path] =
        (result, fresh.reverse ++ [fs.absolute path]) ∧
      Tour.Goes ⟨r.stack, [], [], [r.stack]⟩ (fs.absolute path :: fresh)
        (fs.absolute path :: fresh) after := by
  obtain ⟨-, -, hstack⟩ := open?_eq_ok_iff.mp ho
  obtain ⟨result, fresh, after, hw, hwalk, hgoes⟩ :=
    Tour.within_agrees r fs maxIncludeDepth
      (Tour.mark ⟨stack, [], [], [r.stack] ++ [stack]⟩ (fs.absolute path)) (h.open? ho)
      (by simp [Tour.mark, hstack]) (fs.absolute path)
  refine ⟨result, fresh, after.pop, ?_, hwalk, ?_⟩
  · unfold tour
    dsimp only
    rw [Tour.push_eq_ok (t := ⟨r.stack, [], [], [r.stack]⟩) ho]
    dsimp only
    rw [hw]
  · apply Tour.Goes.close h ho
    exact ⟨hgoes.stack, by simp [hgoes.visited, Tour.mark], hgoes.reads, hgoes.passed⟩

/-- A tour gives what the walk gives, and every stack that there was on it is in order. In the end the
files that are open are those that were open before. -/
theorem tour_agrees (fs : FileSystem) (h : Orderly r.stack) (path : Text) :
    (r.tour fs path).1 = r.walk fs path ∧ (r.tour fs path).2.stack = r.stack ∧
      ∀ s ∈ (r.tour fs path).2.passed, Orderly s := by
  cases ho : open? fs r.stack (fs.absolute path) with
  | error e =>
    have hpush : Tour.push fs ⟨r.stack, [], [], [r.stack]⟩ (fs.absolute path) = .error e := by
      rw [Tour.push, ho]
      rfl
    have htour : r.tour fs path = (.error e, ⟨r.stack, [], [], [r.stack]⟩) := by
      simp only [tour, hpush]
    have hwalk : r.walk fs path = .error e := by simp only [walk, ho]
    rw [htour, hwalk]
    refine ⟨rfl, rfl, ?_⟩
    intro s hs
    rw [List.mem_singleton.mp hs]
    exact h
  | ok stack =>
    obtain ⟨result, fresh, after, htour, hwithin, hgoes⟩ := tour_goes h ho
    have hwalk : r.walk fs path = result := by simp only [walk, ho, hwithin]
    rw [htour, hwalk]
    refine ⟨rfl, hgoes.stack, ?_⟩
    intro s hs
    rcases hgoes.passed s hs with hs | hs
    · rw [List.mem_singleton.mp hs]
      exact h
    · exact hs

end Resolver

end ShaderSyntax
