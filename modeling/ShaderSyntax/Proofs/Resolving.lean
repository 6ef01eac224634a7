import Mathlib.Control.Monad.Basic
import ShaderSyntax.Proofs.Calls

/-!
# The order of resolving

What an include may mean is a list of paths that its spelling decides, and it means the first of
them where there is a file. So a directory that is searched later never changes what was found
before: it only finds what was missed. Nothing else that is called on a resolver changes what an
include means.
-/
namespace ShaderSyntax

deriving instance DecidableEq for TooDeep, IncludeError

/-- Something stands at the path, and it is no directory. -/
def FileSystem.HasFile (fs : FileSystem) (path : Text) : Prop :=
  fs.lookup path ≠ .directory ∧ ∀ reason, fs.lookup path ≠ .absent reason

namespace Resolver

/-- The paths that an include in the file may mean, the first choice first. Without an including
file the includer is the empty path. -/
inductive Means (r : Resolver) (includer : Text) : Text → List Text → Prop where
  | resource (rest : Text) : r.projectRoot ≠ [] →
    r.Means includer (resourceMark ++ rest) [Path.join r.projectRoot rest]
  | absolute {path : Text} : Path.isAbsolute path = true → r.Means includer path [path]
  | beside {path : Text} : ¬resourceMark <+: path → Path.isAbsolute path = false → includer ≠ [] →
    r.Means includer path (Path.join (Path.directory includer) path ::
      r.searchPaths.map fun directory => Path.join directory path)
  | listed {path : Text} : ¬resourceMark <+: path → Path.isAbsolute path = false → includer = [] →
    r.Means includer path (r.searchPaths.map fun directory => Path.join directory path)

/-- What resolving an include comes to. -/
inductive Resolves (r : Resolver) (fs : FileSystem) (path includer : Text) :
    Except IncludeError Text → Prop where
  | rootless : resourceMark <+: path → r.projectRoot = [] →
    r.Resolves fs path includer (.error (.noProjectRoot path))
  | found {before after : List Text} {candidate : Text} :
    r.Means includer path (before ++ candidate :: after) →
    (∀ c ∈ before, ¬fs.HasFile c) → fs.HasFile candidate →
    r.Resolves fs path includer (.ok (fs.absolute candidate))
  | missed {searched : List Text} : r.Means includer path searched →
    (∀ c ∈ searched, ¬fs.HasFile c) →
    r.Resolves fs path includer (.error (.notFound path searched))

/-- How a result changes when more directories are searched: not at all, or an include that meant no
file means one in the first of these directories that has it, or it still means none. -/
inductive Gains (fs : FileSystem) (path : Text) (directories : List Text) :
    Except IncludeError Text → Except IncludeError Text → Prop where
  | same (result : Except IncludeError Text) : Gains fs path directories result result
  | found {searched before after : List Text} {directory : Text} :
    directories = before ++ directory :: after →
    (∀ d ∈ before, ¬fs.HasFile (Path.join d path)) → fs.HasFile (Path.join directory path) →
    Gains fs path directories (.error (.notFound path searched))
      (.ok (fs.absolute (Path.join directory path)))
  | missed {searched : List Text} : (∀ d ∈ directories, ¬fs.HasFile (Path.join d path)) →
    Gains fs path directories (.error (.notFound path searched))
      (.error (.notFound path (searched ++ directories.map fun d => Path.join d path)))

/-- The resolver with more directories to search, in order. -/
def searching (r : Resolver) (directories : List Text) : Resolver :=
  directories.foldl addSearchPath r

end Resolver

/-- The directories that calls add to those searched. -/
def Call.searched : List Call → List Text
  | [] => []
  | .addSearchPath directory :: calls => directory :: searched calls
  | _ :: calls => searched calls

theorem FileSystem.isFile_iff {fs : FileSystem} {path : Text} :
    fs.isFile path = true ↔ fs.HasFile path := by
  unfold FileSystem.isFile FileSystem.HasFile
  cases fs.lookup path <;> simp

theorem Text.startsWith_iff {t start : Text} : t.startsWith start = true ↔ start <+: t := by
  rw [Text.startsWith, List.isPrefixOf_iff_prefix]

namespace Resolver

variable {r : Resolver} {fs : FileSystem} {path includer : Text}

/-- No absolute path is one from the project root. -/
theorem not_isAbsolute_of_resource (h : resourceMark <+: path) : Path.isAbsolute path = false := by
  obtain ⟨rest, rfl⟩ := h
  rfl

theorem candidates_eq_error_iff {e : IncludeError} : r.candidates path includer = .error e ↔
    e = .noProjectRoot path ∧ resourceMark <+: path ∧ r.projectRoot = [] := by
  unfold candidates
  by_cases hmark : resourceMark <+: path
  · rw [if_pos (Text.startsWith_iff.mpr hmark)]
    by_cases hroot : r.projectRoot = []
    · simp [hroot, hmark, eq_comm]
    · simp [hroot]
  · rw [if_neg (mt Text.startsWith_iff.mp hmark)]
    by_cases habs : Path.isAbsolute path = true
    · simp [habs, hmark]
    · simp [habs, hmark]

theorem Means.candidates {paths : List Text} (h : r.Means includer path paths) :
    r.candidates path includer = .ok paths := by
  unfold Resolver.candidates
  cases h with
  | resource rest hroot =>
    rw [if_pos (Text.startsWith_iff.mpr (List.prefix_append ..)), if_neg hroot, List.drop_left]
  | absolute habs =>
    have hmark : ¬resourceMark <+: path := by
      intro h
      rw [not_isAbsolute_of_resource h] at habs
      cases habs
    rw [if_neg (mt Text.startsWith_iff.mp hmark), if_pos habs]
  | beside hmark habs hincluder =>
    rw [if_neg (mt Text.startsWith_iff.mp hmark), if_neg (by simp [habs]), if_neg hincluder]
    rfl
  | listed hmark habs hincluder =>
    rw [if_neg (mt Text.startsWith_iff.mp hmark), if_neg (by simp [habs]), if_pos hincluder]
    rfl

theorem exists_means (h : ¬(resourceMark <+: path ∧ r.projectRoot = [])) :
    ∃ paths, r.Means includer path paths := by
  by_cases hmark : resourceMark <+: path
  · have hroot : r.projectRoot ≠ [] := fun hroot => h ⟨hmark, hroot⟩
    obtain ⟨rest, rfl⟩ := hmark
    exact ⟨_, .resource rest hroot⟩
  · cases habs : Path.isAbsolute path with
    | true => exact ⟨_, .absolute habs⟩
    | false =>
      by_cases hincluder : includer = []
      · exact ⟨_, .listed hmark habs hincluder⟩
      · exact ⟨_, .beside hmark habs hincluder⟩

/-- The candidates are what the include may mean. -/
theorem candidates_eq_ok_iff {paths : List Text} :
    r.candidates path includer = .ok paths ↔ r.Means includer path paths := by
  constructor
  · intro h
    have hroot : ¬(resourceMark <+: path ∧ r.projectRoot = []) := by
      intro hroot
      rw [candidates_eq_error_iff.mpr ⟨rfl, hroot⟩] at h
      cases h
    obtain ⟨paths', hmeans⟩ : ∃ paths, r.Means includer path paths := exists_means hroot
    rw [hmeans.candidates] at h
    cases h
    exact hmeans
  · exact Means.candidates

theorem find?_isFile_eq_none_iff {paths : List Text} :
    paths.find? fs.isFile = none ↔ ∀ c ∈ paths, ¬fs.HasFile c := by
  simp only [List.find?_eq_none, FileSystem.isFile_iff]

theorem find?_isFile_eq_some_iff {paths : List Text} {candidate : Text} :
    paths.find? fs.isFile = some candidate ↔ fs.HasFile candidate ∧
      ∃ before after, paths = before ++ candidate :: after ∧ ∀ c ∈ before, ¬fs.HasFile c := by
  simp only [List.find?_eq_some_iff_append, Bool.not_eq_true', ← Bool.not_eq_true,
    FileSystem.isFile_iff]

/-- Where an include may mean these paths, it means the first that has a file. -/
theorem Means.resolve {paths : List Text} (h : r.Means includer path paths) :
    r.resolve fs path includer =
      match paths.find? fs.isFile with
      | some c => .ok (fs.absolute c)
      | none => .error (.notFound path paths) := by
  cases hfind : paths.find? fs.isFile with
  | none => simp [Resolver.resolve, h.candidates, hfind]
  | some c => simp [Resolver.resolve, h.candidates, hfind]

theorem resolves_resolve (r : Resolver) (fs : FileSystem) (path includer : Text) :
    r.Resolves fs path includer (r.resolve fs path includer) := by
  cases hc : r.candidates path includer with
  | error e =>
    obtain ⟨rfl, hmark, hroot⟩ := candidates_eq_error_iff.mp hc
    rw [resolve, hc]
    exact .rootless hmark hroot
  | ok paths =>
    have hmeans := candidates_eq_ok_iff.mp hc
    rw [hmeans.resolve]
    cases hfind : paths.find? fs.isFile with
    | none => exact .missed hmeans (find?_isFile_eq_none_iff.mp hfind)
    | some candidate =>
      obtain ⟨hfile, before, after, rfl, hbefore⟩ := find?_isFile_eq_some_iff.mp hfind
      exact .found hmeans hbefore hfile

theorem Resolves.resolve {result : Except IncludeError Text}
    (h : r.Resolves fs path includer result) : r.resolve fs path includer = result := by
  cases h with
  | rootless hmark hroot => rw [Resolver.resolve, candidates_eq_error_iff.mpr ⟨rfl, hmark, hroot⟩]
  | found hmeans hbefore hfile =>
    rw [hmeans.resolve, find?_isFile_eq_some_iff.mpr ⟨hfile, _, _, rfl, hbefore⟩]
  | missed hmeans hnone => rw [hmeans.resolve, find?_isFile_eq_none_iff.mpr hnone]

theorem searching_eq (r : Resolver) (directories : List Text) :
    r.searching directories = { r with searchPaths := r.searchPaths ++ directories } := by
  unfold searching
  induction directories generalizing r with
  | nil => simp
  | cons d directories ih =>
    rw [List.foldl_cons, ih]
    simp [addSearchPath]

/-- More directories to search leave what an include may mean as it is, or come behind it. -/
theorem Means.searching {paths : List Text} (h : r.Means includer path paths)
    (directories : List Text) : (r.searching directories).Means includer path paths ∨
      (r.searching directories).Means includer path
        (paths ++ directories.map fun d => Path.join d path) := by
  rw [searching_eq]
  cases h with
  | resource rest hroot => exact .inl (.resource rest hroot)
  | absolute habs => exact .inl (.absolute habs)
  | beside hmark habs hincluder =>
    rw [List.cons_append, ← List.map_append]
    exact .inr (.beside hmark habs hincluder)
  | listed hmark habs hincluder =>
    rw [← List.map_append]
    exact .inr (.listed hmark habs hincluder)

theorem gains_searching (r : Resolver) (fs : FileSystem) (path includer : Text)
    (directories : List Text) : Gains fs path directories (r.resolve fs path includer)
      ((r.searching directories).resolve fs path includer) := by
  cases hc : r.candidates path includer with
  | error e =>
    have hroot := candidates_eq_error_iff.mp hc
    have hmore : (r.searching directories).candidates path includer = .error e := by
      rw [searching_eq]
      exact candidates_eq_error_iff.mpr hroot
    rw [resolve, resolve, hc, hmore]
    exact .same _
  | ok paths =>
    have hmeans := candidates_eq_ok_iff.mp hc
    rcases hmeans.searching directories with hmore | hmore
    · rw [hmeans.resolve, hmore.resolve]
      exact .same _
    · rw [hmeans.resolve, hmore.resolve, List.find?_append]
      -- What is found among the first candidates hides what stands behind them.
      cases paths.find? fs.isFile with
      | some candidate => exact .same _
      | none =>
        rw [Option.none_or, List.find?_map]
        cases hfind : directories.find? (fs.isFile ∘ fun d => Path.join d path) with
        | none =>
          refine .missed fun d hd => ?_
          rw [← FileSystem.isFile_iff]
          exact List.find?_eq_none.mp hfind d hd
        | some d =>
          obtain ⟨hfile, before, after, hsplit, hbefore⟩ := List.find?_eq_some_iff_append.mp hfind
          refine .found hsplit (fun d hd => ?_) (FileSystem.isFile_iff.mp hfile)
          rw [← FileSystem.isFile_iff]
          simpa using hbefore d hd

/-- What an include means hangs on the project root and the directories to search only. -/
theorem resolve_congr {other : Resolver} (hroot : other.projectRoot = r.projectRoot)
    (hpaths : other.searchPaths = r.searchPaths) :
    other.resolve fs path includer = r.resolve fs path includer := by
  simp only [resolve, candidates, hroot, hpaths]

/-- Of all that calls may do, only the directories that they add are seen when resolving. -/
theorem afterCalls_searched (fs : FileSystem) (calls : List Call) (r : Resolver) :
    (r.afterCalls fs calls).projectRoot = r.projectRoot ∧
      (r.afterCalls fs calls).searchPaths = r.searchPaths ++ Call.searched calls := by
  induction calls generalizing r with
  | nil => exact ⟨rfl, (List.append_nil _).symm⟩
  | cons c calls ih =>
    obtain ⟨hroot, hpaths⟩ := ih (r.answer fs c).after
    change (((r.answer fs c).after).afterCalls fs calls).projectRoot = _ ∧
      (((r.answer fs c).after).afterCalls fs calls).searchPaths = _
    rw [hroot, hpaths]
    cases c with
    | addSearchPath directory => exact ⟨rfl, List.append_assoc ..⟩
    | resolve path includer => exact ⟨rfl, rfl⟩
    | push path =>
      cases ho : open? fs r.stack path <;> simp [answer, push, ho, Except.map, Call.searched]
    | pop => exact ⟨rfl, rfl⟩
    | walk path => exact ⟨rfl, rfl⟩

end Resolver

/-- An include means the absolute path of the first of its candidates that has a file, and the error
otherwise lists all of them. More directories to search change nothing that was found, and calls
change nothing but by such directories: what is open makes no difference. -/
theorem resolve_takes_first (r : Resolver) (fs : FileSystem) (path includer : Text) :
    (∀ result, r.resolve fs path includer = result ↔ r.Resolves fs path includer result) ∧
      (fs.Rooted → ∀ file, r.resolve fs path includer = .ok file →
        Path.isAbsolute file = true) ∧
      (∀ directories, Resolver.Gains fs path directories (r.resolve fs path includer)
        ((r.searching directories).resolve fs path includer)) ∧
      (∀ stack, { r with stack }.resolve fs path includer = r.resolve fs path includer) ∧
      ∀ calls, (r.afterCalls fs calls).resolve fs path includer =
        (r.searching (Call.searched calls)).resolve fs path includer := by
  refine ⟨fun result => ⟨?_, Resolver.Resolves.resolve⟩, ?_,
    r.gains_searching fs path includer, fun stack => Resolver.resolve_congr rfl rfl, ?_⟩
  · rintro rfl
    exact r.resolves_resolve fs path includer
  · intro hfs file hfile
    obtain ⟨c, rfl⟩ := Resolver.resolve_eq_absolute hfile
    exact hfs.isAbsolute_absolute c
  · intro calls
    obtain ⟨hroot, hpaths⟩ := Resolver.afterCalls_searched fs calls r
    rw [Resolver.searching_eq]
    exact Resolver.resolve_congr hroot hpaths

/-- A directory of the right name is passed over, and the file is found once its directory is
searched. -/
theorem resolve_takes_first_file :
    let fs : FileSystem := ⟨Text.ofString "/w", fun path =>
      if path = Text.ofString "/w/a/x" then .directory
      else if path = Text.ofString "inc/x" then .file []
      else .absent .noSuchFile⟩
    let r := Resolver.start [] [Text.ofString "/w/b"] 1
    let path := Text.ofString "x"
    let includer := Text.ofString "/w/a/main"
    let more := r.searching [Text.ofString "inc"]
    let file := Text.ofString "/w/inc/x"
    fs.Rooted ∧
      r.resolve fs path includer =
        .error (.notFound path [Text.ofString "/w/a/x", Text.ofString "/w/b/x"]) ∧
      more.resolve fs path includer = .ok file ∧ more.Resolves fs path includer (.ok file) ∧
      Path.isAbsolute file = true := by
  intro fs r path includer more file
  have hfs : fs.Rooted := rfl
  have hmissed : r.resolve fs path includer =
      .error (.notFound path [Text.ofString "/w/a/x", Text.ofString "/w/b/x"]) := by decide +kernel
  have hfound : more.resolve fs path includer = .ok file := by decide +kernel
  obtain ⟨hiff, habsolute, -⟩ := resolve_takes_first more fs path includer
  exact ⟨hfs, hmissed, hfound, (hiff _).mp hfound, habsolute hfs file hfound⟩

end ShaderSyntax
