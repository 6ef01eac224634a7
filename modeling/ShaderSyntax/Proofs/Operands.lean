import ShaderSyntax.Command
import ShaderSyntax.Proofs.Invalid

/-!
# Operands

Each file on the command line is worked on by itself: what a run writes for several files is what the
runs on the single files write, in order, and it fails if one of these does. Only the standard input
could join files, for it is read once; so the files here have names that are no flag and no dash.
-/
namespace ShaderSyntax

/-- The argument is the name of a file, whatever flags there are. A first operand with the name of a
completion command counts as one here, though the program itself is not run for it. -/
def IsOperand (argument : Text) : Prop :=
  argument.head? ≠ some Byte.minus

instance : DecidablePred IsOperand :=
  fun argument => inferInstanceAs (Decidable (argument.head? ≠ some Byte.minus))

/-- The flags can be read, name no file, and ask for work on files that can begin. -/
structure Options.Asks (o : Options) (flags : List Text) : Prop where
  parse : Options.parse flags = .ok o
  files : o.files = []
  help : o.help = false
  version : o.version = false
  format : ∃ format, Command.formatOf? o.format = some format
  maxDepth : 0 ≤ o.maxDepth

/-- The file can be walked, and no include that is reached from it has an error. -/
def Resolver.Closed (r : Resolver) (fs : FileSystem) (file : Text) : Prop :=
  ∃ ds, r.walk fs file = .ok ds ∧ ∀ dep ∈ ds, dep.error? = none

/-- The spellings with one dash of the flags that may be written so. -/
def singleDashed : List Text :=
  [Flag.dparse, Flag.deps].map fun f => Byte.minus :: f.longName

theorem normalizeFlag_of_not_mem {a : Text} (h : a ∉ singleDashed) : normalizeFlag a = a := by
  have hnone : ([Flag.dparse, Flag.deps].any fun f => a = Byte.minus :: f.longName) = false := by
    rw [List.any_eq_false]
    intro f hf heq
    exact h (List.mem_map.mpr ⟨f, hf, (of_decide_eq_true heq).symm⟩)
  simp [normalizeFlag, hnone]

theorem IsOperand.normalizeFlag {a : Text} (h : IsOperand a) : normalizeFlag a = a := by
  refine normalizeFlag_of_not_mem fun hmem => ?_
  obtain ⟨f, -, rfl⟩ := List.mem_map.mp hmem
  exact h rfl

theorem map_normalizeFlag {names : List Text} (h : ∀ name ∈ names, IsOperand name) :
    names.map normalizeFlag = names := by
  conv_rhs => rw [← List.map_id names]
  exact List.map_congr_left fun name hname => (h name hname).normalizeFlag

namespace Options

variable {o : Options} {flags names : List Text} {a : Text}

/-- The options with more files. -/
def withFiles (o : Options) (names : List Text) : Options :=
  { o with files := o.files ++ names }

theorem argument_operand (h : IsOperand a) (next? : Option Text) :
    o.argument a next? = .ok (o.withFiles [a], false) := by
  unfold argument
  split
  · next first second rest =>
    rw [if_pos (by simpa [IsOperand] using h)]
    rfl
  · rfl

theorem read_operands (o : Options) (h : ∀ name ∈ names, IsOperand name) :
    o.read false names = .ok (o.withFiles names) := by
  induction names generalizing o with
  | nil => simp [read, withFiles]
  | cons a names ih =>
    have ha : IsOperand a := h a List.mem_cons_self
    have hend : a ≠ endOfFlags := by
      rintro rfl
      exact ha rfl
    rw [read, if_neg hend, argument_operand ha]
    simp only [ih (o.withFiles [a]) fun name hname => h name (List.mem_cons_of_mem _ hname)]
    simp [withFiles]

/-- A flag that needs no other argument is the same before any. -/
theorem setFrom_none {flag : Flag} {value? : Option Text} {result : Options × TookNext}
    (h : o.setFrom flag value? none = .ok result) (next? : Option Text) :
    o.setFrom flag value? next? = .ok result ∧ result.2 = false := by
  unfold setFrom at h ⊢
  cases value? with
  | some v =>
    refine ⟨h, ?_⟩
    dsimp only at h
    cases hset : o.set flag v with
    | error e =>
      rw [hset] at h
      cases h
    | ok o' =>
      rw [hset] at h
      cases h
      rfl
  | none =>
    dsimp only at h ⊢
    split at h
    · next hswitch =>
      cases h
      simp [hswitch]
    · cases h

theorem short_none {t : Text} {result : Options × TookNext}
    (h : o.short none t = .ok result) (next? : Option Text) :
    o.short next? t = .ok result ∧ result.2 = false := by
  induction t generalizing o with
  | nil =>
    cases h
    exact ⟨rfl, rfl⟩
  | cons b rest ih =>
    rw [short] at h ⊢
    split at h
    · next hmark =>
      cases h
      simp [hmark]
    · next hmark =>
      rw [if_neg hmark]
      split at h
      · cases h
      · next flag hflag =>
        split at h
        · next e c more =>
          split at h
          · next hequals =>
            rw [if_pos hequals]
            exact setFrom_none h next?
          · next hequals =>
            rw [if_neg hequals]
            split at h
            · next hswitch =>
              rw [if_pos hswitch]
              exact ih h
            · next hswitch =>
              rw [if_neg hswitch]
              exact setFrom_none h next?
        · next e =>
          split at h
          · next hswitch =>
            simp only [hswitch]
            exact ih h
          · next hswitch =>
            simp only [hswitch]
            exact setFrom_none h next?
        · exact setFrom_none h next?

theorem long_none {t : Text} {result : Options × TookNext} (h : o.long t none = .ok result)
    (next? : Option Text) : o.long t next? = .ok result ∧ result.2 = false := by
  unfold long at h ⊢
  split at h
  · cases h
  · next hname =>
    rw [if_neg hname]
    dsimp only at h ⊢
    split at h
    · cases h
    · exact setFrom_none h next?

/-- An argument that can be read as the last one is read in the same way before others. -/
theorem argument_none {result : Options × TookNext} (h : o.argument a none = .ok result)
    (next? : Option Text) : o.argument a next? = .ok result ∧ result.2 = false := by
  unfold argument at h ⊢
  split at h
  · next first second rest =>
    split at h
    · next hfirst =>
      cases h
      simp [hfirst]
    · next hfirst =>
      simp only [hfirst]
      split at h
      · next hsecond =>
        simp only [hsecond]
        exact long_none h next?
      · next hsecond =>
        simp only [hsecond]
        exact short_none h next?
  · cases h
    simp

/-- Files after the flags are added to the options that these give. A value of the last flag is no
file, for that flag could not be read without it. -/
theorem read_append {o' : Options} {took : TookNext} (h : o.read took flags = .ok o')
    (htook : took = true → flags ≠ [])
    (hnames : ∀ o : Options, o.read false names = .ok (o.withFiles names)) :
    o.read took (flags ++ names) = .ok (o'.withFiles names) := by
  induction flags generalizing o took with
  | nil =>
    cases took with
    | true => exact absurd rfl (htook rfl)
    | false =>
      cases h
      exact hnames o'
  | cons a rest ih =>
    cases took with
    | true => exact ih h (by simp)
    | false =>
      rw [read] at h
      rw [List.cons_append, read]
      split at h
      · next hend =>
        cases h
        rw [if_pos hend]
        simp [withFiles]
      · next hend =>
        rw [if_neg hend]
        split at h
        · cases h
        · next next' took' harg =>
          cases rest with
          | nil =>
            obtain ⟨hnext, rfl⟩ := argument_none harg names.head?
            simp only [List.nil_append, hnext]
            exact ih h (by simp)
          | cons b rest =>
            simp only [List.cons_append, List.head?_cons] at harg ⊢
            simp only [harg]
            exact ih h (by simp)

end Options

/-- Flags followed by files give the options of the flags, with these files. -/
theorem Options.Asks.parse_operands {o : Options} {flags names : List Text} (h : o.Asks flags)
    (hnames : ∀ name ∈ names, IsOperand name) :
    Options.parse (flags ++ names) = .ok { o with files := names } := by
  have hread := Options.read_append h.parse (by simp) fun o => o.read_operands hnames
  rw [Options.parse, List.map_append, map_normalizeFlag hnames, hread, Options.withFiles, h.files,
    List.nil_append]

namespace Report

theorem failure_ne_nil (message : Text) : failure message ≠ [] := by
  simp [failure]

end Report

namespace Command

variable {s : Settings} {w : World} {file : Text}

/-- Where no file takes the standard input, what is written for files is what is written for each. -/
theorem processAll_eq {files : List Text} (h : ∀ file ∈ files, (process s w file).2 = w) :
    processAll s w files =
      ⟨files.flatMap fun file => (process s w file).1.stdout,
        files.flatMap fun file => (process s w file).1.stderr,
        files.all fun file => (process s w file).1.succeeded⟩ := by
  induction files with
  | nil => rfl
  | cons file rest ih =>
    have hrest := ih fun f hf => h f (List.mem_cons_of_mem _ hf)
    rw [processAll]
    simp only [h file List.mem_cons_self, hrest]
    rfl

/-- The output says that all is well, without a word on the standard error, just if the condition
holds. -/
structure Judges (output : Output) (condition : Prop) : Prop where
  succeeded : output.succeeded = true ↔ output.stderr = []
  stderr : output.stderr = [] ↔ condition

theorem judges_failed (message : Text) {condition : Prop} (h : ¬condition) :
    Judges (.failed message) condition :=
  ⟨by simp [Output.failed, Report.failure_ne_nil], by simp [Output.failed, Report.failure_ne_nil, h]⟩

theorem firstBroken?_eq_none_iff {ds : List Dependency} :
    firstBroken? ds = none ↔ ∀ dep ∈ ds, dep.error? = none := by
  simp [firstBroken?, List.findSome?_eq_none_iff]

theorem deps_judges (s : Settings) (fs : FileSystem) (file : Text) :
    Judges (deps s fs file)
      ((Resolver.start s.projectRoot s.includePaths s.levels).Closed fs file) := by
  unfold deps Resolver.Closed
  cases hw : (Resolver.start s.projectRoot s.includePaths s.levels).walk fs file with
  | error e => exact judges_failed _ (by simp)
  | ok ds =>
    have hclosed : (∃ ds', (Except.ok ds : Except IncludeError _) = .ok ds' ∧
        ∀ dep ∈ ds', dep.error? = none) ↔ firstBroken? ds = none := by
      rw [firstBroken?_eq_none_iff]
      constructor
      · rintro ⟨ds', hds, hall⟩
        cases hds
        exact hall
      · exact fun hall => ⟨ds, rfl, hall⟩
    dsimp only
    rw [hclosed]
    cases firstBroken? ds with
    | none => exact ⟨by simp, by simp⟩
    | some message => exact ⟨by simp [Report.failure_ne_nil], by simp [Report.failure_ne_nil]⟩

theorem process_deps (hmode : s.mode = .deps) (w : World) (file : Text) :
    process s w file = (deps s w.files file, w) := by
  rw [process, hmode]

/-- What holds of the output for each file holds of the output for all. -/
theorem processAll_judges {files : List Text} (hfiles : ∀ file ∈ files, (process s w file).2 = w)
    {condition : Text → Prop} (h : ∀ file ∈ files, Judges (process s w file).1 (condition file)) :
    Judges (processAll s w files) (∀ file ∈ files, condition file) := by
  rw [processAll_eq hfiles]
  constructor
  · simp only [List.all_eq_true, List.flatMap_eq_nil_iff]
    exact forall₂_congr fun file hfile => (h file hfile).succeeded
  · simp only [List.flatMap_eq_nil_iff]
    exact forall₂_congr fun file hfile => (h file hfile).stderr

theorem processAll_deps (hmode : s.mode = .deps) (w : World) (files : List Text) :
    Judges (processAll s w files) (∀ file ∈ files,
      (Resolver.start s.projectRoot s.includePaths s.levels).Closed w.files file) := by
  refine processAll_judges (fun file _ => ?_) fun file _ => ?_
  · rw [process_deps hmode]
  · rw [process_deps hmode]
    exact deps_judges s w.files file

/-- After flags that ask for it, files are worked on by the settings that the flags give. -/
theorem run_operands {o : Options} {flags files : List Text} (h : o.Asks flags) (hne : files ≠ [])
    (hfiles : ∀ file ∈ files, IsOperand file) : ∃ format, formatOf? o.format = some format ∧
      ∀ w : World, run w (flags ++ files) = processAll (settings o w.hasColor format) w files := by
  obtain ⟨format, hformat⟩ := h.format
  refine ⟨format, hformat, fun w => ?_⟩
  have hmax : ¬o.maxDepth < 0 := Int.not_lt.mpr h.maxDepth
  rw [run, h.parse_operands hfiles]
  simp [execute, h.help, h.version, hne, hformat, hmax, settings]

end Command

namespace Output

theorem status_eq_zero_iff {o : Output} : o.status = 0 ↔ o.succeeded = true := by
  cases hs : o.succeeded <;> simp [Output.status, hs]

end Output

/-- A listing of includes succeeds just if every file can be walked without an error. -/
theorem Command.status_deps {o : Options} {flags files : List Text} (h : o.Asks flags)
    (hdeps : o.deps = true) (hne : files ≠ []) (hfiles : ∀ file ∈ files, IsOperand file) (w : World) :
    (run w (flags ++ files)).status = 0 ↔ ∀ file ∈ files,
      (Resolver.start o.projectRoot o.includePaths (levelsFor o.maxDepth)).Closed w.files file := by
  obtain ⟨format, -, hrun⟩ := run_operands h hne hfiles
  have hmode : (settings o w.hasColor format).mode = .deps := by simp [settings, hdeps]
  have hjudges := processAll_deps hmode w files
  rw [hrun, Output.status_eq_zero_iff, hjudges.succeeded, hjudges.stderr]
  rfl

end ShaderSyntax
