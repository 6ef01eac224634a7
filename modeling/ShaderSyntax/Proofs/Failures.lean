import ShaderSyntax.Proofs.Reaching

/-!
# Files that fail

A file that cannot be read or parsed is an error of the include that goes into it. The file counts as
visited from then on, so a later include of it is passed over without an error: of all dependencies
that open such a file only the first tells of its failure.
-/
namespace ShaderSyntax

/-- The file that the include leads to is at fault, and not the way to it. -/
def IncludeError.isFailure : IncludeError → Bool
  | unreadable _ | tooDeep .. => true
  | _ => false

namespace Resolver

variable {r : Resolver} {fs : FileSystem} {stack visited fresh : List Text} {file failing : Text}
  {includes : List (Text × Nat)} {deps : List Dependency} {e : IncludeError}

/-- The file can be read and parsed. -/
def Usable (r : Resolver) (fs : FileSystem) (file : Text) : Prop :=
  ∃ text d, fs.read file = .ok text ∧ Document.parse r.levels text = .ok d

/-- The dependencies that open the file: they mean it, and nothing kept the walk from opening it. -/
def openings (deps : List Dependency) (file : Text) : List Dependency :=
  deps.filter fun dep => dep.resolved = file ∧ dep.error?.all IncludeError.isFailure

theorem load_eq_ok_iff {d : Document} : r.load fs file = .ok d ↔
    ∃ text, fs.read file = .ok text ∧ Document.parse r.levels text = .ok d := by
  unfold load
  cases fs.read file with
  | error e => simp
  | ok text => cases hp : Document.parse r.levels text <;> simp [Except.mapError, hp]

theorem usable_iff : r.Usable fs file ↔ r.failure? fs file = none := by
  constructor
  · rintro ⟨text, d, hread, hparse⟩
    rw [failure?, load_eq_ok_iff.mpr ⟨text, hread, hparse⟩]
  · intro h
    unfold failure? at h
    split at h
    · cases h
    · next d hd =>
      obtain ⟨text, hread, hparse⟩ := load_eq_ok_iff.mp hd
      exact ⟨text, d, hread, hparse⟩

theorem not_usable_iff : ¬r.Usable fs file ↔ ∃ e, r.failure? fs file = some e := by
  rw [usable_iff, ← ne_eq, Option.ne_none_iff_exists']

theorem isFailure_of_failure? (h : r.failure? fs file = some e) : e.isFailure = true := by
  rcases failure?_eq_some h with ⟨e', rfl⟩ | ⟨limit, rfl⟩ <;> rfl

theorem includesOf_of_failure? (h : r.failure? fs file = some e) : r.includesOf fs file = [] := by
  unfold failure? at h
  unfold includesOf
  cases hl : r.load fs file with
  | error e' => rfl
  | ok d =>
    rw [hl] at h
    cases h

theorem openings_cons (dep : Dependency) (deps : List Dependency) :
    openings (dep :: deps) file =
      if dep.resolved = file ∧ dep.error?.all IncludeError.isFailure then
        dep :: openings deps file
      else openings deps file := by
  simp [openings, List.filter_cons]

theorem openings_append (xs ys : List Dependency) :
    openings (xs ++ ys) file = openings xs file ++ openings ys file :=
  List.filter_append ..

theorem openings_cons_of_ne {dep : Dependency} (h : dep.resolved ≠ file) (deps : List Dependency) :
    openings (dep :: deps) file = openings deps file := by
  rw [openings_cons, if_neg fun hd => h hd.1]

theorem mem_openings_iff {dep : Dependency} : dep ∈ openings deps file ↔
    dep ∈ deps ∧ dep.resolved = file ∧ dep.error?.all IncludeError.isFailure := by
  simp [openings]

/-- The dependencies are clean. -/
abbrev Clean (deps : List Dependency) : Prop :=
  ∀ dep ∈ deps, dep.error? = none

/-- The first of the dependencies has the error, and the others are clean. -/
def FirstOnly (e : IncludeError) (deps : List Dependency) : Prop :=
  ∃ first rest, deps = first :: rest ∧ first.error? = some e ∧ Clean rest

theorem FirstOnly.append {xs ys : List Dependency} (hx : FirstOnly e xs) (hy : Clean ys) :
    FirstOnly e (xs ++ ys) := by
  obtain ⟨first, rest, rfl, hfirst, hrest⟩ := hx
  refine ⟨first, rest ++ ys, rfl, hfirst, fun dep hdep => ?_⟩
  rcases List.mem_append.mp hdep with hdep | hdep
  · exact hrest dep hdep
  · exact hy dep hdep

theorem isFailure_of_resolve {path : Text} (h : r.resolve fs path file = .error e) :
    e.isFailure = false := by
  have hunresolved := isUnresolved_of_resolve h
  cases e <;> first | rfl | cases hunresolved

theorem isFailure_of_open? (h : open? fs stack file = .error e) : e.isFailure = false := by
  rcases open?_eq_error_iff.mp h with ⟨-, rfl⟩ | ⟨-, -, rfl⟩ <;> rfl

/-- An include that the walk does not go into opens a file only if that was visited. -/
theorem Stops.opens {path resolved : Text} {error? : Option IncludeError}
    (h : r.Stops fs stack visited file path resolved error?) (hresolved : resolved = failing)
    (hall : error?.all IncludeError.isFailure = true) : failing ∈ visited ∧ error? = none := by
  cases h with
  | unresolved hr =>
    rw [Option.all_some, isFailure_of_resolve hr] at hall
    cases hall
  | refused hr ho =>
    rw [Option.all_some, isFailure_of_open? ho] at hall
    cases hall
  | known hr ho hv => exact ⟨hresolved ▸ hv, rfl⟩

/-- What a walk tells of a file that fails: nothing if it was visited before, and otherwise the first
dependency that opens it has its failure, and no later one has. -/
structure Tells (visited fresh : List Text) (failing : Text) (e : IncludeError)
    (opened : List Dependency) : Prop where
  known : failing ∈ visited → Clean opened
  unopened : failing ∉ visited → failing ∉ fresh → opened = []
  entered : failing ∉ visited → failing ∈ fresh → FirstOnly e opened

/-- The induction is on the rules of the walk. A file that fails has no includes, so the rule that goes
into it lists nothing below it, and from there on it counts as visited. -/
theorem Follows.tells (h : r.Follows fs stack file visited includes deps fresh)
    (hfails : r.failure? fs failing = some e) :
    Tells visited fresh failing e (openings deps failing) := by
  induction h with
  | nil => exact ⟨fun _ _ hdep => (List.not_mem_nil hdep).elim, fun _ _ => rfl, by simp⟩
  | @stop stack file visited path line rest resolved error? deps fresh hs h ih =>
    rw [openings_cons]
    split
    · next hopen =>
      obtain ⟨hvisited, herror⟩ := hs.opens hopen.1 hopen.2
      refine ⟨fun hv dep hdep => ?_, fun hv => absurd hvisited hv, fun hv => absurd hvisited hv⟩
      rcases List.mem_cons.mp hdep with rfl | hdep
      · exact herror
      · exact ih.known hv dep hdep
    · exact ih
  | @enter stack file visited path line rest target inner below deps new fresh hr ho hv hb h ihb
      ih =>
    by_cases htarget : target = failing
    · subst htarget
      rw [includesOf_of_failure? hfails] at hb
      cases hb
      have hlater := ih.known (by simp)
      rw [openings_cons, if_pos ⟨rfl, by simp [hfails, isFailure_of_failure? hfails]⟩]
      exact ⟨fun hm => absurd hm hv, by simp, fun _ _ => ⟨_, _, rfl, hfails, hlater⟩⟩
    · rw [openings_cons_of_ne (by simpa using htarget), openings_append]
      have hbelow : failing ∉ visited → failing ∉ target :: visited := by simp [Ne.symm htarget]
      constructor
      · intro hm dep hdep
        rcases List.mem_append.mp hdep with hdep | hdep
        · exact ihb.known (List.mem_cons_of_mem _ hm) dep hdep
        · exact ih.known (by simp [hm]) dep hdep
      · intro hm hf
        simp only [List.mem_cons, List.mem_append, not_or] at hf
        obtain ⟨-, hnew, hfresh⟩ := hf
        rw [ihb.unopened (hbelow hm) hnew,
          ih.unopened (by simp [hm, hnew, Ne.symm htarget]) hfresh, List.append_nil]
      · intro hm hf
        by_cases hnew : failing ∈ new
        · exact (ihb.entered (hbelow hm) hnew).append (ih.known (by simp [hnew]))
        · rw [ihb.unopened (hbelow hm) hnew, List.nil_append]
          have hfresh : failing ∈ fresh := by
            simpa [Ne.symm htarget, hnew] using hf
          exact ih.entered (by simp [hm, hnew, Ne.symm htarget]) hfresh

/-- None of the dependencies hides the failure just if there is only the one that tells of it. -/
theorem FirstOnly.told_iff {xs : List Dependency} (h : FirstOnly e xs) :
    (∀ dep ∈ xs, dep.error? ≠ none) ↔ xs.length ≤ 1 := by
  obtain ⟨first, rest, rfl, hfirst, hrest⟩ := h
  cases rest with
  | nil => simp [hfirst]
  | cons second rest => simp [hrest second List.mem_cons_self]

end Resolver

/-- Of the dependencies that open a file which cannot be read or parsed, the first tells of the failure
and all others are clean. So the clean dependencies lead to files that can be read and parsed just if
each file that cannot is opened at most once. -/
theorem walk_failures {r : Resolver} {fs : FileSystem} {path : Text} {deps : List Dependency}
    (h : r.walk fs path = .ok deps) :
    (∀ file e, r.failure? fs file = some e → Resolver.openings deps file = [] ∨
      Resolver.FirstOnly e (Resolver.openings deps file)) ∧
      ((∀ dep ∈ deps, dep.error? = none → r.Usable fs dep.resolved) ↔
        ∀ file, ¬r.Usable fs file → (Resolver.openings deps file).length ≤ 1) := by
  obtain ⟨stack, fresh, -, hroot, -, hf⟩ := Resolver.walk_eq_ok h
  have hfirst : ∀ file e, r.failure? fs file = some e → Resolver.openings deps file = [] ∨
      Resolver.FirstOnly e (Resolver.openings deps file) := by
    intro file e hfails
    have htells := hf.tells hfails
    have hvisited : file ∉ [fs.absolute path] := by
      rw [List.mem_singleton]
      rintro rfl
      cases hroot.symm.trans hfails
    by_cases hfresh : file ∈ fresh
    · exact .inr (htells.entered hvisited hfresh)
    · exact .inl (htells.unopened hvisited hfresh)
  refine ⟨hfirst, fun hclean file hfile => ?_, fun honce dep hdep herror => ?_⟩
  · obtain ⟨e, he⟩ := Resolver.not_usable_iff.mp hfile
    rcases hfirst file e he with hnone | honly
    · simp [hnone]
    · refine honly.told_iff.mp fun dep hopens herror => hfile ?_
      obtain ⟨hdep, rfl, -⟩ := Resolver.mem_openings_iff.mp hopens
      exact hclean dep hdep herror
  · by_contra hfile
    have hopens : dep ∈ Resolver.openings deps dep.resolved :=
      Resolver.mem_openings_iff.mpr ⟨hdep, rfl, by simp [herror]⟩
    obtain ⟨e, he⟩ := Resolver.not_usable_iff.mp hfile
    rcases hfirst dep.resolved e he with hnone | honly
    · simp [hnone] at hopens
    · exact honly.told_iff.mpr (honce dep.resolved hfile) dep hopens herror

/-- A file that nests too deep, included twice by one file and once more by another. -/
theorem walk_failures_thrice :
    let fs : FileSystem := ⟨Text.ofString "/w", fun path =>
      if path = Text.ofString "/w/main" then
        .file (Text.ofString "#include \"a\"\n#include \"b\"\n#include \"a\"")
      else if path = Text.ofString "/w/a" then .file (Text.ofString "const int x = (1);")
      else if path = Text.ofString "/w/b" then .file (Text.ofString "#include \"a\"")
      else .absent .noSuchFile⟩
    let r := Resolver.start [] [] 1
    let path := Text.ofString "main"
    ∃ deps, r.walk fs path = .ok deps ∧
      deps.map (fun dep => (dep.resolved, dep.error?.isSome)) =
        [(Text.ofString "/w/a", true), (Text.ofString "/w/b", false),
          (Text.ofString "/w/a", false), (Text.ofString "/w/a", false)] ∧
      (∀ file e, r.failure? fs file = some e → Resolver.openings deps file = [] ∨
        Resolver.FirstOnly e (Resolver.openings deps file)) ∧
      ((∀ dep ∈ deps, dep.error? = none → r.Usable fs dep.resolved) ↔
        ∀ file, ¬r.Usable fs file → (Resolver.openings deps file).length ≤ 1) := by
  intro fs r path
  obtain ⟨deps, hdeps, hlist⟩ := Resolver.exists_walk r fs path
    (fun deps => deps.map (fun dep => (dep.resolved, dep.error?.isSome)) ==
      [(Text.ofString "/w/a", true), (Text.ofString "/w/b", false),
        (Text.ofString "/w/a", false), (Text.ofString "/w/a", false)])
    (by decide +kernel)
  exact ⟨deps, hdeps, eq_of_beq hlist, walk_failures hdeps⟩

/-- A file that nests too deep is included twice, and the second include is clean. -/
theorem clean_include_of_failing_file :
    let fs : FileSystem := ⟨Text.ofString "/w", fun path =>
      if path = Text.ofString "/w/main" then
        .file (Text.ofString "#include \"a\"\n#include \"a\"")
      else if path = Text.ofString "/w/a" then .file (Text.ofString "const int x = (1);")
      else .absent .noSuchFile⟩
    let r := Resolver.start [] [] 1
    ∃ deps, r.walk fs (Text.ofString "main") = .ok deps ∧
      ∃ dep ∈ deps, dep.error? = none ∧ ¬r.Usable fs dep.resolved := by
  intro fs r
  obtain ⟨deps, hdeps, hfailing⟩ := Resolver.exists_walk r fs (Text.ofString "main")
    (fun deps => deps.any fun dep => dep.error?.isNone && (r.failure? fs dep.resolved).isSome)
    (by decide +kernel)
  obtain ⟨dep, hdep, hboth⟩ := List.any_eq_true.mp hfailing
  obtain ⟨herror, hfails⟩ := Bool.and_eq_true_iff.mp hboth
  exact ⟨deps, hdeps, dep, hdep, Option.isNone_iff_eq_none.mp herror,
    Resolver.not_usable_iff.mpr (Option.isSome_iff_exists.mp hfails)⟩

end ShaderSyntax
