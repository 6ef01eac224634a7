import ShaderSyntax.Proofs.Operands

/-!
# What arguments are for

An argument names flags, is the value of the flag before it, ends the flags, or names a file. Which of
these it is hangs on the arguments before it, and from it follows what the options hold: the files and
the values, in order. Two flags may be written with one dash. They are given the second one wherever
an argument is spelled like them, and so a file or a value with that spelling is changed as well.
-/
namespace ShaderSyntax

/-- What an argument is for. -/
inductive ArgumentUse where
  /-- It names flags, and carries the value of the last of them or not. -/
  | flags (carried? : Option (Flag × Text))
  /-- It is the value of the flag before it. -/
  | value (flag : Flag)
  /-- It ends the flags. -/
  | mark
  | file
  deriving DecidableEq, Repr

namespace ArgumentUse

def isFlags : ArgumentUse → Bool
  | flags _ => true
  | _ => false

/-- A flag without a value in the same argument. A switch needs none; any other flag waits for the
next argument. -/
def bare (flag : Flag) : ArgumentUse × Option Flag :=
  (flags none, if flag.isSwitch then none else some flag)

/-- A flag with its value in the same argument. -/
def carrying (flag : Flag) (v : Text) : ArgumentUse × Option Flag :=
  (flags (some (flag, v)), none)

/-- Flags given by their letters. -/
def ofLetters : Text → ArgumentUse × Option Flag
  | [] => (flags none, none)
  | b :: rest =>
    match Flag.ofLetter? b with
    | none => (flags none, none)
    | some flag =>
      match rest with
      | [] => bare flag
      | e :: more =>
        if e = Byte.equals ∧ more ≠ [] then carrying flag more
        else if flag.isSwitch then ofLetters (e :: more)
        else carrying flag (e :: more)

/-- A flag given by its long name. -/
def ofLongName (t : Text) : ArgumentUse × Option Flag :=
  match Flag.ofLongName? (t.takeWhile (· != Byte.equals)) with
  | none => (flags none, none)
  | some flag =>
    match Options.valueAfterEquals? t with
    | some v => carrying flag v
    | none => bare flag

/-- What an argument is for that is no value and does not end the flags, and the flag that waits for
the next argument as its value then. -/
def ofArgument : Text → ArgumentUse × Option Flag
  | first :: second :: rest =>
    if first ≠ Byte.minus then (file, none)
    else if second = Byte.minus then ofLongName rest
    else ofLetters (second :: rest)
  | _ => (file, none)

/-- What arguments are for, after a flag that waits for its value or after none. -/
def ofArguments : Option Flag → List Text → List ArgumentUse
  | _, [] => []
  | some flag, _ :: rest => value flag :: ofArguments none rest
  | none, a :: rest =>
    if a = Options.endOfFlags then mark :: rest.map fun _ => file
    else (ofArgument a).1 :: ofArguments (ofArgument a).2 rest

/-- The file that an argument names by its use. -/
def file? : Text × ArgumentUse → Option Text
  | (a, file) => some a
  | _ => none

/-- The value that an argument gives by its use. -/
def value? : Text × ArgumentUse → Option (Flag × Text)
  | (_, flags carried?) => carried?
  | (a, value flag) => some (flag, a)
  | _ => none

end ArgumentUse

/-- The arguments with their uses, after a flag that waits for its value or after none. -/
def used (waiting : Option Flag) (arguments : List Text) : List (Text × ArgumentUse) :=
  arguments.zip (ArgumentUse.ofArguments waiting arguments)

/-- The files that the arguments name. -/
def namedFiles (arguments : List Text) : List Text :=
  (used none arguments).filterMap ArgumentUse.file?

/-- The values of one flag among those given. -/
def valuesOf (flag : Flag) (given : List (Flag × Text)) : List Text :=
  given.filterMap fun (f, v) => if f = flag then some v else none

/-- The values that the arguments give to a flag. -/
def namedValues (flag : Flag) (arguments : List Text) : List Text :=
  valuesOf flag ((used none arguments).filterMap ArgumentUse.value?)

namespace Options

/-- The options with these files and values more. Of the project roots the last counts. -/
structure Gains (o o' : Options) (files : List Text) (given : List (Flag × Text)) : Prop where
  files : o'.files = o.files ++ files
  includePaths : o'.includePaths = o.includePaths ++ valuesOf .includePath given
  projectRoot : o'.projectRoot = (valuesOf .projectRoot given).getLast?.getD o.projectRoot

variable {o o' o'' : Options} {files files' : List Text} {given given' : List (Flag × Text)}
  {flag : Flag} {a v : Text} {next? : Option Text} {result : Options × TookNext}

theorem Gains.trans (h : Gains o o' files given) (h' : Gains o' o'' files' given') :
    Gains o o'' (files ++ files') (given ++ given') := by
  constructor
  · rw [h'.files, h.files, List.append_assoc]
  · rw [h'.includePaths, h.includePaths, valuesOf, valuesOf, valuesOf, List.filterMap_append,
      List.append_assoc]
  · rw [h'.projectRoot, h.projectRoot, valuesOf, valuesOf, valuesOf, List.filterMap_append,
      List.getLast?_append]
    cases (given'.filterMap _).getLast? <;> rfl

theorem gains_files (o : Options) (names : List Text) : Gains o (o.withFiles names) names [] :=
  ⟨rfl, (List.append_nil _).symm, rfl⟩

theorem gains_nothing (o : Options) : Gains o o [] [] :=
  ⟨(List.append_nil _).symm, (List.append_nil _).symm, rfl⟩

theorem gains_turn (o : Options) (flag : Flag) (on : Bool) : Gains o (o.turn flag on) [] [] := by
  cases flag <;> exact ⟨(List.append_nil _).symm, (List.append_nil _).symm, rfl⟩

theorem gains_set (h : o.set flag v = .ok o') : Gains o o' [] [(flag, v)] := by
  cases flag with
  | format | projectRoot =>
    cases h
    exact ⟨(List.append_nil _).symm, (List.append_nil _).symm, rfl⟩
  | includePath =>
    cases h
    exact ⟨(List.append_nil _).symm, rfl, rfl⟩
  | maxDepth =>
    unfold set at h
    dsimp only at h
    split at h
    · cases h
      exact ⟨(List.append_nil _).symm, (List.append_nil _).symm, rfl⟩
    · cases h
  | deps | dparse | help | noColor | version =>
    unfold set at h
    dsimp only at h
    split at h
    · next on hon =>
      cases h
      exact ⟨(List.append_nil _).symm, (List.append_nil _).symm, rfl⟩
    · cases h

/-- How the options change with an argument that has a use: by what it names or carries, or else by
the next argument, as the value of the flag that waits. -/
inductive Changes (o : Options) (a : Text) :
    ArgumentUse × Option Flag → Option Text → Options × TookNext → Prop
  | alone {o' : Options} {use : ArgumentUse} {next? : Option Text} :
    Gains o o' (ArgumentUse.file? (a, use)).toList (ArgumentUse.value? (a, use)).toList →
    Changes o a (use, none) next? (o', false)
  | withNext {o' : Options} {flag : Flag} {v : Text} : Gains o o' [] [(flag, v)] →
    Changes o a (.flags none, some flag) (some v) (o', true)

theorem Changes.after {use : ArgumentUse × Option Flag} (h : Changes o' a use next? result)
    (hturn : Gains o o' [] []) : Changes o a use next? result := by
  cases h with
  | alone h => exact .alone (hturn.trans h)
  | withNext h => exact .withNext (hturn.trans h)

theorem changes_carrying (a : Text) (h : o.setFrom flag (some v) next? = .ok result) :
    Changes o a (ArgumentUse.carrying flag v) next? result := by
  unfold setFrom at h
  dsimp only at h
  cases hset : o.set flag v with
  | error e =>
    rw [hset] at h
    cases h
  | ok o' =>
    rw [hset] at h
    cases h
    exact .alone (gains_set hset)

theorem changes_bare (a : Text) (h : o.setFrom flag none next? = .ok result) :
    Changes o a (ArgumentUse.bare flag) next? result := by
  unfold setFrom at h
  unfold ArgumentUse.bare
  dsimp only at h
  split at h
  · next hswitch =>
    cases h
    rw [if_pos hswitch]
    exact .alone (gains_turn o flag true)
  · next hswitch =>
    rw [if_neg hswitch]
    cases next? with
    | none => cases h
    | some v =>
      dsimp only at h
      cases hset : o.set flag v with
      | error e =>
        rw [hset] at h
        cases h
      | ok o' =>
        rw [hset] at h
        cases h
        exact .withNext (gains_set hset)

theorem changes_long (a : Text) {t : Text} (h : o.long t next? = .ok result) :
    Changes o a (ArgumentUse.ofLongName t) next? result := by
  unfold long at h
  unfold ArgumentUse.ofLongName
  split at h
  · cases h
  · dsimp only at h
    cases hflag : Flag.ofLongName? (t.takeWhile (· != Byte.equals)) with
    | none =>
      rw [hflag] at h
      cases h
    | some flag =>
      rw [hflag] at h
      cases hvalue : valueAfterEquals? t with
      | some v =>
        rw [hvalue] at h
        exact changes_carrying a h
      | none =>
        rw [hvalue] at h
        exact changes_bare a h

/-- The mark of a test runner starts with no letter of a flag. -/
theorem ofLetters_of_mark {t : Text} (h : t.startsWith testRunnerMark = true) :
    ArgumentUse.ofLetters t = (.flags none, none) := by
  obtain ⟨more, rfl⟩ := List.isPrefixOf_iff_prefix.mp h
  rfl

theorem changes_short (a : Text) {t : Text} (h : o.short next? t = .ok result) :
    Changes o a (ArgumentUse.ofLetters t) next? result := by
  induction t generalizing o with
  | nil =>
    cases h
    exact .alone (gains_nothing o)
  | cons b rest ih =>
    rw [short] at h
    split at h
    · next hmark =>
      cases h
      rw [ofLetters_of_mark hmark]
      exact .alone (gains_nothing o)
    · rw [ArgumentUse.ofLetters]
      cases hflag : Flag.ofLetter? b with
      | none =>
        rw [hflag] at h
        cases h
      | some flag =>
        rw [hflag] at h
        dsimp only at h ⊢
        cases rest with
        | nil => exact changes_bare a h
        | cons e tail =>
          cases tail with
          | nil =>
            dsimp only at h ⊢
            rw [if_neg fun hboth => hboth.2 rfl]
            split at h
            · next hswitch =>
              rw [if_pos hswitch]
              exact (ih h).after (gains_turn o flag true)
            · next hswitch =>
              rw [if_neg hswitch]
              exact changes_carrying a h
          | cons c more =>
            dsimp only at h ⊢
            split at h
            · next hequals =>
              rw [if_pos ⟨hequals, List.cons_ne_nil _ _⟩]
              exact changes_carrying a h
            · next hequals =>
              rw [if_neg fun hboth => hequals hboth.1]
              split at h
              · next hswitch =>
                rw [if_pos hswitch]
                exact (ih h).after (gains_turn o flag true)
              · next hswitch =>
                rw [if_neg hswitch]
                exact changes_carrying a h

theorem argument_changes (h : o.argument a next? = .ok result) :
    Changes o a (ArgumentUse.ofArgument a) next? result := by
  unfold argument at h
  split at h
  · next first second rest =>
    rw [ArgumentUse.ofArgument]
    split at h
    · next hfirst =>
      cases h
      rw [if_pos hfirst]
      exact .alone (gains_files o _)
    · next hfirst =>
      rw [if_neg hfirst]
      split at h
      · next hsecond =>
        rw [if_pos hsecond]
        exact changes_long _ h
      · next hsecond =>
        rw [if_neg hsecond]
        exact changes_short _ h
  · next hshort =>
    cases h
    have huse : ArgumentUse.ofArgument a = (.file, none) := by
      cases a with
      | nil => rfl
      | cons first tail =>
        cases tail with
        | nil => rfl
        | cons second rest => exact absurd rfl (hshort first second rest)
    rw [huse]
    exact .alone (gains_files o [a])

theorem used_mark (rest : List Text) : used none (endOfFlags :: rest) =
    (endOfFlags, .mark) :: rest.map fun a => (a, .file) := by
  rw [used, ArgumentUse.ofArguments, if_pos rfl, List.zip_cons_cons, List.map_prod_left_eq_zip]

theorem used_argument (h : a ≠ endOfFlags) (rest : List Text) : used none (a :: rest) =
    (a, (ArgumentUse.ofArgument a).1) :: used (ArgumentUse.ofArgument a).2 rest := by
  rw [used, ArgumentUse.ofArguments, if_neg h, List.zip_cons_cons, used]

theorem filterMap_cons_eq {α β : Type} (f : α → Option β) (x : α) (xs : List α) :
    (x :: xs).filterMap f = (f x).toList ++ xs.filterMap f := by
  rw [List.filterMap_cons]
  cases f x <;> rfl

/-- Arguments that can be read give the options the files and the values that they name, in order. -/
theorem read_gains {arguments : List Text} (h : o.read false arguments = .ok o') :
    Gains o o' ((used none arguments).filterMap ArgumentUse.file?)
      ((used none arguments).filterMap ArgumentUse.value?) := by
  induction hn : arguments.length using Nat.strongRecOn generalizing o arguments with
  | _ n ih =>
    cases arguments with
    | nil =>
      cases h
      exact gains_nothing _
    | cons a rest =>
      rw [read] at h
      split at h
      · next hmark =>
        cases h
        rw [hmark, used_mark, filterMap_cons_eq, filterMap_cons_eq, List.filterMap_map,
          List.filterMap_map]
        have hfiles : rest.filterMap (ArgumentUse.file? ∘ fun a => (a, .file)) = rest :=
          List.filterMap_some
        have hvalues : rest.filterMap (ArgumentUse.value? ∘ fun a => (a, .file)) = [] :=
          List.filterMap_eq_nil_iff.mpr fun _ _ => rfl
        rw [hfiles, hvalues]
        exact gains_files _ rest
      · next hmark =>
        rw [used_argument hmark]
        split at h
        · cases h
        · next o₁ took harg =>
          have hchanges := argument_changes harg
          generalize ArgumentUse.ofArgument a = use at hchanges ⊢
          generalize hnext : rest.head? = next? at hchanges
          cases hchanges with
          | alone hgains =>
            rw [filterMap_cons_eq, filterMap_cons_eq]
            exact hgains.trans (ih _ (by simp [← hn]) h rfl)
          | @withNext _ flag v hgains =>
            obtain ⟨rest, rfl⟩ := List.head?_eq_some_iff.mp hnext
            have hlt : rest.length < n := by
              rw [← hn, List.length_cons, List.length_cons]
              omega
            exact hgains.trans (ih _ hlt h rfl)

end Options

section Normalized

variable {arguments : List Text} {a : Text}

theorem normalizeFlag_of_mem (h : a ∈ singleDashed) : normalizeFlag a = Byte.minus :: a := by
  obtain ⟨f, hf, rfl⟩ := List.mem_map.mp h
  have hsome : ([Flag.dparse, Flag.deps].any fun g =>
      Byte.minus :: f.longName = Byte.minus :: g.longName) = true :=
    List.any_eq_true.mpr ⟨f, hf, decide_eq_true rfl⟩
  exact if_pos hsome

theorem normalizeFlag_eq_self_iff : normalizeFlag a = a ↔ a ∉ singleDashed := by
  refine ⟨fun h hmem => ?_, normalizeFlag_of_not_mem⟩
  rw [normalizeFlag_of_mem hmem] at h
  exact List.cons_ne_self _ _ h

/-- With its second dash an argument is for the same. -/
theorem ofArgument_normalizeFlag (a : Text) :
    ArgumentUse.ofArgument (normalizeFlag a) = ArgumentUse.ofArgument a := by
  by_cases h : a ∈ singleDashed
  · have hboth : ∀ a ∈ singleDashed,
        ArgumentUse.ofArgument (Byte.minus :: a) = ArgumentUse.ofArgument a := by decide +kernel
    rw [normalizeFlag_of_mem h, hboth a h]
  · rw [normalizeFlag_of_not_mem h]

theorem normalizeFlag_eq_endOfFlags_iff :
    normalizeFlag a = Options.endOfFlags ↔ a = Options.endOfFlags := by
  by_cases h : a ∈ singleDashed
  · have hboth : ∀ a ∈ singleDashed, Byte.minus :: a ≠ Options.endOfFlags ∧
        a ≠ Options.endOfFlags := by decide +kernel
    rw [normalizeFlag_of_mem h]
    exact iff_of_false (hboth a h).1 (hboth a h).2
  · rw [normalizeFlag_of_not_mem h]

/-- Respelled arguments are for the same, each at its place. -/
theorem ofArguments_normalized (waiting : Option Flag) (arguments : List Text) :
    ArgumentUse.ofArguments waiting (arguments.map normalizeFlag) =
      ArgumentUse.ofArguments waiting arguments := by
  induction arguments generalizing waiting with
  | nil => rfl
  | cons a rest ih =>
    rw [List.map_cons]
    cases waiting with
    | some flag => rw [ArgumentUse.ofArguments, ArgumentUse.ofArguments, ih]
    | none =>
      rw [ArgumentUse.ofArguments, ArgumentUse.ofArguments, ofArgument_normalizeFlag, ih]
      simp only [normalizeFlag_eq_endOfFlags_iff, List.map_map]
      rfl

theorem used_normalized (waiting : Option Flag) (arguments : List Text) :
    used waiting (arguments.map normalizeFlag) =
      (used waiting arguments).map fun (a, use) => (normalizeFlag a, use) := by
  rw [used, ofArguments_normalized, List.zip_map_left, used]
  rfl

theorem namedFiles_normalized (arguments : List Text) :
    namedFiles (arguments.map normalizeFlag) = (namedFiles arguments).map normalizeFlag := by
  rw [namedFiles, namedFiles, used_normalized, List.filterMap_map, List.map_filterMap]
  congr 1
  funext p
  obtain ⟨a, use⟩ := p
  cases use <;> rfl

/-- Arguments that are no flags reach the reader of options as they were given. -/
def Verbatim (arguments : List Text) : Prop :=
  ∀ (i : Nat) (use : ArgumentUse), (ArgumentUse.ofArguments none arguments)[i]? = some use →
    use.isFlags = false → (arguments.map normalizeFlag)[i]? = arguments[i]?

theorem verbatim_iff : Verbatim arguments ↔
    ∀ p ∈ used none arguments, p.2.isFlags = false → p.1 ∉ singleDashed := by
  constructor
  · intro h p hp hflags
    obtain ⟨i, hi⟩ := List.mem_iff_getElem?.mp hp
    obtain ⟨ha, huse⟩ := List.getElem?_zip_eq_some.mp hi
    have hkept := h i p.2 huse hflags
    rw [List.getElem?_map, ha] at hkept
    exact normalizeFlag_eq_self_iff.mp (Option.some.inj hkept)
  · intro h i use huse hflags
    rw [List.getElem?_map]
    cases ha : arguments[i]? with
    | none => rfl
    | some a =>
      have hp : (a, use) ∈ used none arguments :=
        List.mem_of_getElem? (List.getElem?_zip_eq_some.mpr ⟨ha, huse⟩)
      rw [Option.map_some, normalizeFlag_of_not_mem (h _ hp hflags)]

/-- What is drawn from files and values alone is the same for arguments that are passed on as they
are. -/
theorem filterMap_of_verbatim {β : Type} (h : Verbatim arguments)
    (f : Text × ArgumentUse → Option β)
    (hflags : ∀ a carried?, f (normalizeFlag a, .flags carried?) = f (a, .flags carried?)) :
    (used none (arguments.map normalizeFlag)).filterMap f = (used none arguments).filterMap f := by
  rw [used_normalized, List.filterMap_map]
  refine List.filterMap_congr fun p hp => ?_
  obtain ⟨a, use⟩ := p
  cases hflag : use.isFlags with
  | true =>
    cases use with
    | flags carried? => exact hflags a carried?
    | value flag | mark | file => cases hflag
  | false =>
    have ha := normalizeFlag_of_not_mem (verbatim_iff.mp h _ hp hflag)
    exact congrArg (fun a => f (a, use)) ha

theorem namedFiles_of_verbatim (h : Verbatim arguments) :
    namedFiles (arguments.map normalizeFlag) = namedFiles arguments :=
  filterMap_of_verbatim h ArgumentUse.file? fun _ _ => rfl

theorem namedValues_of_verbatim (h : Verbatim arguments) (flag : Flag) :
    namedValues flag (arguments.map normalizeFlag) = namedValues flag arguments :=
  congrArg (valuesOf flag) (filterMap_of_verbatim h ArgumentUse.value? fun _ _ => rfl)

end Normalized

/-- Every argument keeps its use when the flags with a single dash are given their second one. Files and
values are passed on as they were given just if none of them is spelled like such a flag, and one that
is gets a dash more. So the options name the files, the directories and the project root of the
command line, but for those dashes. -/
theorem arguments_respelled (arguments : List Text) :
    ArgumentUse.ofArguments none (arguments.map normalizeFlag) =
        ArgumentUse.ofArguments none arguments ∧
      (Verbatim arguments ↔
        ∀ p ∈ used none arguments, p.2.isFlags = false → p.1 ∉ singleDashed) ∧
      (∀ (i : Nat) (a : Text), arguments[i]? = some a → a ∈ singleDashed →
        (arguments.map normalizeFlag)[i]? = some (Byte.minus :: a)) ∧
      ∀ o, Options.parse arguments = .ok o →
        o.files = (namedFiles arguments).map normalizeFlag ∧
        o.includePaths = namedValues .includePath (arguments.map normalizeFlag) ∧
        (Verbatim arguments → o.files = namedFiles arguments ∧
          o.includePaths = namedValues .includePath arguments ∧
          o.projectRoot = (namedValues .projectRoot arguments).getLast?.getD []) := by
  refine ⟨ofArguments_normalized none arguments, verbatim_iff, fun i a ha hmem => ?_,
    fun o ho => ?_⟩
  · rw [List.getElem?_map, ha, Option.map_some, normalizeFlag_of_mem hmem]
  · have hgains := Options.read_gains ho
    have hfiles : o.files = namedFiles (arguments.map normalizeFlag) := hgains.files
    have hpaths : o.includePaths = namedValues .includePath (arguments.map normalizeFlag) :=
      hgains.includePaths
    have hroot : o.projectRoot =
        (namedValues .projectRoot (arguments.map normalizeFlag)).getLast?.getD [] :=
      hgains.projectRoot
    refine ⟨by rw [hfiles, namedFiles_normalized], hpaths, fun h => ⟨?_, ?_, ?_⟩⟩
    · rw [hfiles, namedFiles_of_verbatim h]
    · rw [hpaths, namedValues_of_verbatim h]
    · rw [hroot, namedValues_of_verbatim h]

/-- A switch with a single dash, a directory and two files. The directory and one of the files are
spelled like it. -/
theorem arguments_respelled_thrice :
    let deps := Text.ofString "-deps"
    let named := ["-I", "-deps", "-deps", "a", "--", "-dparse"].map Text.ofString
    let o := { Options.initial with
      deps := true
      includePaths := [Text.ofString "--deps"]
      files := [Text.ofString "a", Text.ofString "--dparse"] }
    Options.parse named = .ok o ∧ ¬Verbatim named ∧
      o.files = (namedFiles named).map normalizeFlag ∧
      namedFiles named = [Text.ofString "a", Text.ofString "-dparse"] ∧
      o.includePaths = namedValues .includePath (named.map normalizeFlag) ∧
      namedValues .includePath named = [deps] := by
  intro deps named o
  have hparse : Options.parse named = .ok o := by decide +kernel
  obtain ⟨-, hverbatim, -, hreads⟩ := arguments_respelled named
  obtain ⟨hfiles, hpaths, -⟩ := hreads o hparse
  refine ⟨hparse, fun h => ?_, hfiles, by decide +kernel, hpaths, by decide +kernel⟩
  exact hverbatim.mp h (deps, .value .includePath) (by decide +kernel) rfl (by decide +kernel)

/-- A file behind the mark that ends the flags is not passed on as it was given. -/
theorem file_respelled : ¬∀ arguments, Verbatim arguments := by
  intro h
  have hkept := h [Options.endOfFlags, Text.ofString "-deps"] 1 .file (by decide +kernel) rfl
  revert hkept
  decide +kernel

end ShaderSyntax
