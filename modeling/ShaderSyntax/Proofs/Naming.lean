import ShaderSyntax.Proofs.Calls

/-!
# Names of files

Files are compared by their names, and a resolver has one source of names: paths that were made
absolute. So whatever holds of all such paths holds of every name that a resolver keeps or gives, in
any call and on every tour. One such property is to be canonical: absolute, clean, and from the root
by names only.
-/
namespace ShaderSyntax

/-- The path has one spelling only, and it is this one. -/
structure FileSystem.Canonical (fs : FileSystem) (path : Text) : Prop where
  isAbsolute : Path.isAbsolute path = true
  clean : Path.clean path = path
  absolute : fs.absolute path = path
  named : ∃ parts, (∀ n ∈ parts, Path.IsName n) ∧ path = Path.root ++ Path.joined parts

def ReadError.path : ReadError → Text
  | notOpened path _ => path
  | isDirectory path => path

/-- The files that an error names. What an include says is not the name of a file. -/
def IncludeError.names : IncludeError → List Text
  | noProjectRoot _ => []
  | notFound .. => []
  | cycle path stack => path :: stack
  | tooNested path => [path]
  | unreadable e => [e.path]
  | tooDeep file _ => [file]

variable {P : Text → Prop}

/-- Either there is a result with the property, or all names in the error have theirs. -/
def Named {α : Type} (P : Text → Prop) (Q : α → Prop) : Except IncludeError α → Prop
  | .ok a => Q a
  | .error e => ∀ name ∈ e.names, P name

/-- All names in the dependency have the property. -/
structure Dependency.Named (P : Text → Prop) (dep : Dependency) : Prop where
  includer : P dep.includer
  resolved : dep.resolved ≠ [] → P dep.resolved
  error : ∀ e ∈ dep.error?, ∀ name ∈ e.names, P name

def Reply.Named (P : Text → Prop) : Reply → Prop
  | done => True
  | found path => P path
  | walked dependencies => ∀ dep ∈ dependencies, dep.Named P

/-- All names in the answer have the property, those of files that were open meanwhile as well. -/
structure Answer.Named (P : Text → Prop) (a : Answer) : Prop where
  reply : ShaderSyntax.Named P (Reply.Named P) a.reply
  passed : ∀ stack ∈ a.passed, ∀ file ∈ stack, P file
  after : ∀ file ∈ a.after.stack, P file

/-- All names of files that are or were open on the tour have the property. -/
structure Tour.Named (P : Text → Prop) (t : Tour) : Prop where
  stack : ∀ file ∈ t.stack, P file
  passed : ∀ stack ∈ t.passed, ∀ file ∈ stack, P file

theorem Named.map {α β : Type} {Q : α → Prop} {Q' : β → Prop} {f : α → β}
    {result : Except IncludeError α} (h : Named P Q result) (hf : ∀ a, Q a → Q' (f a)) :
    Named P Q' (result.map f) := by
  cases result with
  | error e => exact h
  | ok a => exact hf a h

theorem Named.of_ok {α : Type} {Q : α → Prop} {result : Except IncludeError α} {a : α}
    (h : Named P Q result) (ha : result = .ok a) : Q a := by
  rwa [ha] at h

theorem Named.of_error {α : Type} {Q : α → Prop} {result : Except IncludeError α}
    {e : IncludeError} (h : Named P Q result) (he : result = .error e) :
    ∀ name ∈ e.names, P name := by
  rwa [he] at h

theorem FileSystem.Rooted.canonical_absolute {fs : FileSystem} (h : fs.Rooted) (path : Text) :
    fs.Canonical (fs.absolute path) := by
  obtain ⟨full, hfull, hpath⟩ := Path.exists_absolute h path
  have hclean : fs.absolute path = Path.clean full := hpath
  constructor
  · exact h.isAbsolute_absolute path
  · rw [hclean, Path.clean_clean hfull]
  · exact h.absolute_absolute path
  · rw [hclean, Path.clean_of_isAbsolute hfull]
    exact ⟨_, Path.isName_of_mem_cleanComponents hfull, rfl⟩

section

variable {fs : FileSystem} {r : Resolver} {stack : List Text} {file path : Text}

theorem Resolver.named_open? (hP : ∀ path, P (fs.absolute path)) (hstack : ∀ f ∈ stack, P f)
    (path : Text) : Named P (fun inner => ∀ f ∈ inner, P f) (open? fs stack path) := by
  have hfile := hP path
  unfold open?
  dsimp only
  split
  · exact List.forall_mem_cons.mpr ⟨hfile, hstack⟩
  · split
    · exact List.forall_mem_singleton.mpr hfile
    · exact List.forall_mem_append.mpr ⟨hstack, List.forall_mem_singleton.mpr hfile⟩

theorem Resolver.named_resolve (hP : ∀ path, P (fs.absolute path)) (path includer : Text) :
    Named P P (r.resolve fs path includer) := by
  cases h : r.resolve fs path includer with
  | ok target =>
    obtain ⟨c, rfl⟩ := resolve_eq_absolute h
    exact hP c
  | error e =>
    unfold resolve candidates at h
    have hnames : e.names = [] := by
      split at h
      · next hc =>
        split at hc
        · split at hc <;> cases hc
          cases h
          rfl
        · split at hc <;> cases hc
      · split at h
        · cases h
        · cases h
          rfl
    simp [Named, hnames]

theorem Resolver.named_load (hfile : P file) : Named P (fun _ => True) (r.load fs file) := by
  have hread : ∀ e, fs.read file = .error e → e.path = file := by
    intro e h
    unfold FileSystem.read at h
    split at h <;> cases h <;> rfl
  unfold load
  cases hr : fs.read file with
  | error e => exact List.forall_mem_singleton.mpr ((hread e hr).symm ▸ hfile)
  | ok text =>
    dsimp only
    cases Document.parse r.levels text with
    | error e => exact List.forall_mem_singleton.mpr hfile
    | ok d => trivial

namespace Tour

variable {t : Tour} {stage : Stage}

/-- A stage that starts with names that have the property gives no others. -/
def KeepsNames (P : Text → Prop) (stage : Stage) : Prop :=
  ∀ file t, P file → Tour.Named P t →
    ShaderSyntax.Named P (fun deps => ∀ dep ∈ deps, Dependency.Named P dep) (stage file t).1 ∧
      (stage file t).2.Named P

theorem Named.pop (h : t.Named P) : t.pop.Named P := by
  have hstack : ∀ f ∈ t.stack.dropLast, P f := fun f hf => h.stack f (List.dropLast_subset _ hf)
  exact ⟨hstack, List.forall_mem_append.mpr ⟨h.passed, List.forall_mem_singleton.mpr hstack⟩⟩

theorem Named.push (hP : ∀ path, P (fs.absolute path)) (h : t.Named P) (path : Text) :
    ShaderSyntax.Named P (Tour.Named P) (t.push fs path) := by
  refine (Resolver.named_open? hP h.stack path).map fun inner hinner => ?_
  exact ⟨hinner, List.forall_mem_append.mpr ⟨h.passed, List.forall_mem_singleton.mpr hinner⟩⟩

theorem follow_named (hP : ∀ path, P (fs.absolute path)) (hstage : KeepsNames P stage)
    (hfile : P file) (ht : t.Named P) (path : Text) (line : Nat) :
    (∀ dep ∈ (follow r fs stage file t path line).1, dep.Named P) ∧
      (follow r fs stage file t path line).2.Named P := by
  have hresolve := Resolver.named_resolve (r := r) hP path file
  unfold follow
  cases hr : r.resolve fs path file with
  | error e =>
    have herror := hresolve.of_error hr
    exact ⟨List.forall_mem_singleton.mpr ⟨hfile, by simp, by simpa using herror⟩, ht⟩
  | ok target =>
    have htarget : P target := hresolve.of_ok hr
    have hfailed : ∀ e : IncludeError, (∀ name ∈ e.names, P name) →
        ∀ dep ∈ [(⟨file, line, path, target, some e⟩ : Dependency)], dep.Named P :=
      fun e he => List.forall_mem_singleton.mpr ⟨hfile, fun _ => htarget, by simpa using he⟩
    have hpush := ht.push hP target
    dsimp only
    cases ho : t.push fs target with
    | error e => exact ⟨hfailed e (hpush.of_error ho), ht⟩
    | ok inner =>
      have hinner : inner.Named P := hpush.of_ok ho
      have hdep : Dependency.Named P ⟨file, line, path, target, none⟩ :=
        ⟨hfile, fun _ => htarget, by simp⟩
      dsimp only
      split
      · exact ⟨List.forall_mem_singleton.mpr hdep, hinner.pop⟩
      · have hmark : (inner.mark target).Named P := ⟨hinner.stack, hinner.passed⟩
        obtain ⟨hbelow, hafter⟩ := hstage target _ htarget hmark
        split
        · next e after hs =>
          rw [hs] at hbelow hafter
          exact ⟨hfailed e hbelow, hafter.pop⟩
        · next below after hs =>
          rw [hs] at hbelow hafter
          exact ⟨List.forall_mem_cons.mpr ⟨hdep, hbelow⟩, hafter.pop⟩

theorem followAll_named (hP : ∀ path, P (fs.absolute path)) (hstage : KeepsNames P stage)
    (hfile : P file) (includes : List (Text × Nat)) (ht : t.Named P) :
    (∀ dep ∈ (followAll r fs stage file t includes).1, dep.Named P) ∧
      (followAll r fs stage file t includes).2.Named P := by
  induction includes generalizing t with
  | nil => exact ⟨by simp [followAll], ht⟩
  | cons i rest ih =>
    obtain ⟨path, line⟩ := i
    obtain ⟨hfirst, hmiddle⟩ := follow_named (r := r) hP hstage hfile ht path line
    obtain ⟨hothers, hafter⟩ := ih hmiddle
    exact ⟨List.forall_mem_append.mpr ⟨hfirst, hothers⟩, hafter⟩

theorem within_named (hP : ∀ path, P (fs.absolute path)) (room : Nat) :
    KeepsNames P (within r fs room) := by
  induction room with
  | zero => exact fun _ _ _ ht => ⟨by simp [within, ShaderSyntax.Named], ht⟩
  | succ room ih =>
    intro file t hfile ht
    have hload : ShaderSyntax.Named P (fun _ => True) (r.load fs file) :=
      Resolver.named_load hfile
    have hread : Tour.Named P { t with reads := t.reads ++ [file] } := ⟨ht.stack, ht.passed⟩
    simp only [within, load]
    cases hl : r.load fs file with
    | error e => exact ⟨hload.of_error hl, hread⟩
    | ok d => exact followAll_named hP ih hfile d.includes hread

end Tour

namespace Resolver

theorem tour_named (hP : ∀ path, P (fs.absolute path)) (hr : ∀ f ∈ r.stack, P f) (path : Text) :
    Named P (fun deps => ∀ dep ∈ deps, Dependency.Named P dep) (r.tour fs path).1 ∧
      (r.tour fs path).2.Named P := by
  have ht : Tour.Named P ⟨r.stack, [], [], [r.stack]⟩ := ⟨hr, List.forall_mem_singleton.mpr hr⟩
  have hpush := ht.push hP (fs.absolute path)
  unfold tour
  dsimp only
  split
  · next e ho => exact ⟨hpush.of_error ho, ht⟩
  · next inner ho =>
    have hinner : inner.Named P := hpush.of_ok ho
    have hmark : (inner.mark (fs.absolute path)).Named P := ⟨hinner.stack, hinner.passed⟩
    obtain ⟨hresult, hafter⟩ :=
      Tour.within_named (r := r) hP maxIncludeDepth _ _ (hP path) hmark
    exact ⟨hresult, hafter.pop⟩

/-- The names in an answer have every property that absolute paths have, provided that the files
which were open before have names with that property. -/
theorem answer_named (hP : ∀ path, P (fs.absolute path)) (hr : ∀ f ∈ r.stack, P f) (c : Call) :
    (r.answer fs c).Named P := by
  cases c with
  | addSearchPath directory => exact ⟨trivial, List.forall_mem_singleton.mpr hr, hr⟩
  | resolve path includer =>
    have hresolve := named_resolve (r := r) hP path includer
    exact ⟨hresolve.map fun _ h => h, List.forall_mem_singleton.mpr hr, hr⟩
  | push path =>
    have hopen := named_open? hP hr path
    simp only [answer, push]
    cases ho : open? fs r.stack path with
    | error e => exact ⟨hopen.of_error ho, List.forall_mem_singleton.mpr hr, hr⟩
    | ok stack =>
      have hstack : ∀ f ∈ stack, P f := hopen.of_ok ho
      exact ⟨trivial, List.forall_mem_singleton.mpr hstack, hstack⟩
  | pop =>
    have hpop : ∀ f ∈ r.stack.dropLast, P f := fun f hf => hr f (List.dropLast_subset _ hf)
    exact ⟨trivial, List.forall_mem_singleton.mpr hpop, hpop⟩
  | walk path =>
    obtain ⟨hresult, htour⟩ := tour_named (r := r) hP hr path
    exact ⟨hresult.map fun _ h => h, htour.passed, htour.stack⟩

theorem afterCalls_named (hP : ∀ path, P (fs.absolute path)) (hr : ∀ f ∈ r.stack, P f)
    (calls : List Call) : ∀ f ∈ (r.afterCalls fs calls).stack, P f := by
  induction calls generalizing r with
  | nil => exact hr
  | cons c calls ih => exact ih (answer_named hP hr c).after

end Resolver

end

end ShaderSyntax
