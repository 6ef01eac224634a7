import ShaderSyntax.FileSystem.Disk
import ShaderSyntax.Proofs.Naming
import ShaderSyntax.Proofs.Resolving
import ShaderSyntax.Proofs.Spelling

/-!
# Names and places

On a disk without links every file has one place, and a path leads to the place that its clean
absolute form spells. So the names that a resolver compares stand for files: two includes mean the
same name if and only if they lead to the same file, and no file is open under two names.
-/
namespace ShaderSyntax

namespace Path

variable {p q : Text} {parts : List Text}

/-- Two ways of writing an include that clean to the same: both relative, both absolute, or both
from the project root. -/
inductive Respelled : Text → Text → Prop where
  | relative {p q : Text} : ¬resourceMark <+: p → ¬resourceMark <+: q → isAbsolute p = false →
    isAbsolute q = false → clean p = clean q → Respelled p q
  | absolute {p q : Text} : isAbsolute p = true → isAbsolute q = true → clean p = clean q →
    Respelled p q
  | resource {p q : Text} : isAbsolute p = false → isAbsolute q = false → clean p = clean q →
    Respelled (resourceMark ++ p) (resourceMark ++ q)

theorem joined_cons (n : Text) (hne : parts ≠ []) :
    joined (n :: parts) = n ++ root ++ joined parts := by
  obtain ⟨m, parts, rfl⟩ := List.exists_cons_of_ne_nil hne
  simp [joined, List.intercalate]

theorem not_mem_joined {b : UInt8} (hb : b ≠ Byte.slash) (h : ∀ n ∈ parts, b ∉ n) :
    b ∉ joined parts := by
  induction parts with
  | nil => exact List.not_mem_nil
  | cons n parts ih =>
    obtain ⟨hn, hparts⟩ := List.forall_mem_cons.mp h
    by_cases hne : parts = []
    · subst hne
      simpa [joined, List.intercalate] using hn
    · rw [joined_cons n hne]
      simp [root, hb, hn, ih hparts]

theorem components_root (h : ∀ n ∈ parts, Byte.slash ∉ n) (hne : parts ≠ []) :
    components (root ++ joined parts) = [] :: parts := by
  have hroot : components (root ++ joined parts) = [] :: components (joined parts) :=
    Text.split_append_cons List.not_mem_nil _
  rw [hroot, components_joined h hne]

theorem isAbsolute_directory (h : isAbsolute p = true) : isAbsolute (directory p) = true := by
  apply isAbsolute_clean
  obtain ⟨rest, rfl⟩ : ∃ rest, p = Byte.slash :: rest := by
    cases p with
    | nil => cases h
    | cons b rest => exact ⟨rest, by simpa [isAbsolute] using h⟩
  rw [List.reverse_cons, List.dropWhile_append]
  split <;> simp [isAbsolute]

end Path

namespace Disk

/-- From the directory the components lead to the file at the place. -/
inductive Finds (d : Disk) : List Text → List Text → List Text → Prop where
  | stay {directory rest place : List Text} {c : Text} : c = [] ∨ c = Path.here →
    d.Finds directory rest place → d.Finds directory (c :: rest) place
  | up {directory rest place : List Text} : d.Finds directory.dropLast rest place →
    d.Finds directory (Path.parent :: rest) place
  | down {directory rest place : List Text} {c : Text} : Path.IsName c → c.length ≤ maxName →
    d.entryAt (directory ++ [c]) = .directory → d.Finds (directory ++ [c]) rest place →
    d.Finds directory (c :: rest) place
  | file {directory : List Text} {c content : Text} : Path.IsName c → c.length ≤ maxName →
    d.entryAt (directory ++ [c]) = .file content → d.Finds directory [c] (directory ++ [c])

/-- The path leads to the file at the place. -/
structure Leads (d : Disk) (path : Text) (place : List Text) : Prop where
  nul_not_mem : (0 : UInt8) ∉ path
  length_le : path.length ≤ maxPath
  finds : d.Finds (if Path.isAbsolute path then [] else d.working) (Path.components path) place

/-- A component with a name that the system allows. -/
structure Allows (c : Text) : Prop where
  isName : Path.IsName c
  nul_not_mem : (0 : UInt8) ∉ c
  length_le : c.length ≤ maxName

/-- There are directories on the whole way from the root, with names that the system allows. -/
def Stands (d : Disk) (directory : List Text) : Prop :=
  ∀ before c after, directory = before ++ c :: after →
    Allows c ∧ d.entryAt (before ++ [c]) = .directory

variable {d : Disk} {directory more place place' : List Text} {path : Text}

theorem Finds.follow (h : d.Finds directory more place) :
    d.follow directory more = d.entryAt place ∧ ∃ content, d.entryAt place = .file content := by
  induction h with
  | stay hc h ih => simpa [Disk.follow, hc] using ih
  | up h ih =>
    simpa [Disk.follow, show Path.parent ≠ [] by decide,
      show Path.parent ≠ Path.here by decide] using ih
  | down hname hlen hentry h ih =>
    simpa [Disk.follow, hname.ne_nil, hname.ne_here, hname.ne_parent, Nat.not_lt.mpr hlen,
      hentry] using ih
  | file hname hlen hentry =>
    simp [Disk.follow, hname.ne_nil, hname.ne_here, hname.ne_parent, Nat.not_lt.mpr hlen, hentry]

theorem finds_of_follow {content : Text} (hmore : ∀ c ∈ more, Byte.slash ∉ c)
    (h : d.follow directory more = .file content) : ∃ place, d.Finds directory more place := by
  induction more generalizing directory with
  | nil => cases h
  | cons c more ih =>
    obtain ⟨hslash, hmore⟩ := List.forall_mem_cons.mp hmore
    unfold follow at h
    split at h
    · next hplain =>
      obtain ⟨place, hfinds⟩ := ih hmore h
      exact ⟨place, .stay hplain hfinds⟩
    · next hplain =>
      split at h
      · next hparent =>
        obtain ⟨place, hfinds⟩ := ih hmore h
        exact ⟨place, hparent ▸ .up hfinds⟩
      · next hparent =>
        have hname : Path.IsName c :=
          ⟨fun h => hplain (.inl h), fun h => hplain (.inr h), hparent, hslash⟩
        split at h
        · cases h
        · next hlen =>
          split at h
          · next hentry =>
            obtain ⟨place, hfinds⟩ := ih hmore h
            exact ⟨place, .down hname (Nat.not_lt.mp hlen) hentry hfinds⟩
          · next hentry =>
            split at h
            · next hlast =>
              subst hlast
              exact ⟨_, .file hname (Nat.not_lt.mp hlen) hentry⟩
            · cases h
          · split at h <;> cases h
          · cases h

/-- Every file on a disk can be read. -/
theorem entryAt_ne_unreadable (place : List Text) (reason : Reason) :
    d.entryAt place ≠ .unreadable reason := by
  unfold entryAt
  split
  · exact nofun
  · split <;> exact nofun

theorem follow_ne_unreadable (directory more : List Text) (reason : Reason) :
    d.follow directory more ≠ .unreadable reason := by
  fun_induction d.follow directory more with
  | case2 _ _ _ _ ih => exact ih
  | case3 _ _ _ ih => exact ih
  | case5 _ _ _ _ _ _ _ ih => exact ih
  | case8 _ _ _ _ _ reason' hentry => exact absurd hentry (entryAt_ne_unreadable _ reason')
  | _ => exact nofun

theorem Finds.ne_nil (h : d.Finds directory more place) : more ≠ [] := by
  cases h <;> simp

theorem Leads.lookup (h : d.Leads path place) :
    d.lookup path = d.entryAt place ∧ ∃ content, d.entryAt place = .file content := by
  have hne : path ≠ [] := by
    rintro rfl
    cases h.finds with
    | stay _ hrest => exact absurd rfl hrest.ne_nil
    | down hname => exact absurd rfl hname.ne_nil
    | file hname => exact absurd rfl hname.ne_nil
  obtain ⟨hfollow, hfile⟩ := h.finds.follow
  refine ⟨?_, hfile⟩
  rw [Disk.lookup, if_neg h.nul_not_mem, if_neg hne, if_neg (Nat.not_lt.mpr h.length_le), hfollow]

theorem hasFile_iff : d.fileSystem.HasFile path ↔ ∃ place, d.Leads path place := by
  constructor
  · rintro ⟨hdirectory, habsent⟩
    change d.lookup path ≠ .directory at hdirectory
    change ∀ reason, d.lookup path ≠ .absent reason at habsent
    cases hentry : d.lookup path with
    | directory => exact absurd hentry hdirectory
    | absent reason => exact absurd hentry (habsent reason)
    | unreadable reason =>
      unfold Disk.lookup at hentry
      split at hentry
      · cases hentry
      · split at hentry
        · cases hentry
        · split at hentry
          · cases hentry
          · exact absurd hentry (follow_ne_unreadable _ _ reason)
    | file content =>
      unfold Disk.lookup at hentry
      split at hentry
      · cases hentry
      · next hnul =>
        split at hentry
        · cases hentry
        · split at hentry
          · cases hentry
          · next hlen =>
            obtain ⟨place, hfinds⟩ :=
              finds_of_follow (fun c hc => Text.not_mem_of_mem_split hc) hentry
            exact ⟨place, hnul, Nat.not_lt.mp hlen, hfinds⟩
  · rintro ⟨place, h⟩
    obtain ⟨hlookup, content, hfile⟩ := h.lookup
    have hentry : d.fileSystem.lookup path = .file content := hlookup.trans hfile
    simp [FileSystem.HasFile, hentry]

/-- Following components comes to where cleaning them does. -/
theorem Finds.foldl_push (h : d.Finds directory more place)
    (hd : ∀ n ∈ directory, Path.IsName n) :
    more.foldl (Path.push true) directory.reverse = place.reverse ∧
      ∀ n ∈ place, Path.IsName n := by
  induction h with
  | @stay directory rest place c hc h ih =>
    have hpush : Path.push true directory.reverse c = directory.reverse := if_pos hc
    rw [List.foldl_cons, hpush]
    exact ih hd
  | @up directory rest place h ih =>
    have hpush : Path.push true directory.reverse Path.parent = directory.dropLast.reverse := by
      rcases List.eq_nil_or_concat directory with rfl | ⟨init, last, rfl⟩
      · rfl
      · have hlast : last ≠ Path.parent := (hd last (by simp)).ne_parent
        simp [Path.push, hlast, show Path.parent ≠ [] by decide,
          show Path.parent ≠ Path.here by decide]
    rw [List.foldl_cons, hpush]
    exact ih fun n hn => hd n (List.dropLast_subset _ hn)
  | down hname hlen hentry h ih =>
    rw [List.foldl_cons, hname.push]
    have hmore := List.forall_mem_append.mpr ⟨hd, List.forall_mem_singleton.mpr hname⟩
    simpa using ih hmore
  | file hname hlen hentry =>
    have hmore := List.forall_mem_append.mpr ⟨hd, List.forall_mem_singleton.mpr hname⟩
    exact ⟨by simp [hname.push], hmore⟩

theorem Stands.allows (h : d.Stands directory) : ∀ n ∈ directory, Allows n := by
  intro n hn
  obtain ⟨before, after, rfl⟩ := List.append_of_mem hn
  exact (h before n after rfl).1

theorem Stands.isName (h : d.Stands directory) : ∀ n ∈ directory, Path.IsName n :=
  fun n hn => (h.allows n hn).isName

theorem cleanComponents_workingPath (hd : d.Stands d.working) :
    Path.cleanComponents d.workingPath = d.working :=
  Path.cleanComponents_root hd.isName

/-- A path that leads to a file spells its place in the clean absolute form. -/
theorem Leads.absolute (hd : d.Stands d.working) (h : d.Leads path place) :
    d.fileSystem.absolute path = Path.root ++ Path.joined place ∧
      ∀ n ∈ place, Path.IsName n := by
  have hfinds := h.finds
  change Path.absolute d.workingPath path = _ ∧ _
  unfold Path.absolute
  split at hfinds
  · next habs =>
    obtain ⟨hfold, hnames⟩ := hfinds.foldl_push (by simp)
    have hplace : Path.cleanComponents path = place := by
      rw [Path.cleanComponents, habs, ← List.reverse_nil, hfold, List.reverse_reverse]
    rw [if_pos habs, Path.clean_of_isAbsolute habs, hplace]
    exact ⟨rfl, hnames⟩
  · next habs =>
    obtain ⟨hfold, hnames⟩ := hfinds.foldl_push hd.isName
    have hne : d.workingPath ≠ [] := by simp [workingPath, Path.root]
    have hplace : Path.cleanComponents (d.workingPath ++ Path.root ++ path) = place := by
      rw [Path.cleanComponents_append hne, cleanComponents_workingPath hd]
      change (List.foldl (Path.push true) _ _).reverse = _
      rw [hfold, List.reverse_reverse]
    rw [if_neg habs, Path.join_eq_clean hne, Path.clean_of_isAbsolute rfl, hplace]
    exact ⟨rfl, hnames⟩

theorem joined_inj (h : ∀ n ∈ place, Path.IsName n) (h' : ∀ n ∈ place', Path.IsName n)
    (heq : Path.root ++ Path.joined place = Path.root ++ Path.joined place') : place = place' := by
  rw [← Path.cleanComponents_root h, heq, Path.cleanComponents_root h']

/-- A path leads to one place at most. -/
theorem Leads.unique (hd : d.Stands d.working) (h : d.Leads path place)
    (h' : d.Leads path place') : place = place' := by
  obtain ⟨hpath, hnames⟩ := h.absolute hd
  obtain ⟨hpath', hnames'⟩ := h'.absolute hd
  exact joined_inj hnames hnames' (hpath.symm.trans hpath')

theorem Stands.dropLast (h : d.Stands directory) : d.Stands directory.dropLast := by
  rcases List.eq_nil_or_concat directory with rfl | ⟨init, last, rfl⟩
  · exact h
  · intro before c after he
    rw [List.concat_eq_append, List.dropLast_concat] at he
    exact h before c (after ++ [last]) (by simp [he])

theorem Stands.concat {c : Text} (h : d.Stands directory) (hc : Allows c)
    (hentry : d.entryAt (directory ++ [c]) = .directory) : d.Stands (directory ++ [c]) := by
  intro before c' after he
  rcases List.eq_nil_or_concat after with rfl | ⟨init, last, rfl⟩
  · obtain ⟨rfl, he⟩ := List.append_inj' he rfl
    obtain rfl : c = c' := by simpa using he
    exact ⟨hc, hentry⟩
  · rw [List.concat_eq_append, ← List.cons_append, ← List.append_assoc] at he
    obtain ⟨rfl, -⟩ := List.append_inj' he rfl
    exact h before c' init rfl

/-- The file that is found stands in a directory that can be reached from the root. -/
theorem Finds.stands (h : d.Finds directory more place) (hd : d.Stands directory)
    (hmore : ∀ c ∈ more, (0 : UInt8) ∉ c) : ∃ above c content, place = above ++ [c] ∧
      d.Stands above ∧ Allows c ∧ d.entryAt place = .file content := by
  induction h with
  | stay hc h ih => exact ih hd (List.forall_mem_cons.mp hmore).2
  | up h ih => exact ih hd.dropLast (List.forall_mem_cons.mp hmore).2
  | down hname hlen hentry h ih =>
    obtain ⟨hc, hmore⟩ := List.forall_mem_cons.mp hmore
    exact ih (hd.concat ⟨hname, hc, hlen⟩ hentry) hmore
  | file hname hlen hentry =>
    obtain ⟨hc, -⟩ := List.forall_mem_cons.mp hmore
    exact ⟨_, _, _, rfl, hd, ⟨hname, hc, hlen⟩, hentry⟩

/-- A directory that can be reached is passed on the way down by its own components. -/
theorem Stands.finds (before : List Text) (h : d.Stands (before ++ directory))
    (hfinds : d.Finds (before ++ directory) more place) :
    d.Finds before (directory ++ more) place := by
  induction directory generalizing before with
  | nil => simpa using hfinds
  | cons c directory ih =>
    obtain ⟨hc, hentry⟩ := h before c directory rfl
    refine .down hc.isName hc.length_le hentry (ih (before ++ [c]) ?_ ?_)
    · simpa using h
    · simpa using hfinds

/-- Where a path leads, its clean absolute form leads as well, if that is not too long. -/
theorem Leads.absolute_leads (hd : d.Stands d.working) (h : d.Leads path place)
    (hlen : (d.fileSystem.absolute path).length ≤ maxPath) :
    d.Leads (d.fileSystem.absolute path) place := by
  obtain ⟨hpath, hnames⟩ := h.absolute hd
  have hnul : ∀ c ∈ Path.components path, (0 : UInt8) ∉ c := by
    intro c hc h0
    exact h.nul_not_mem (Text.mem_of_mem_split hc h0)
  have hstart : d.Stands (if Path.isAbsolute path then [] else d.working) := by
    split
    · exact fun before c after he => by simp at he
    · exact hd
  obtain ⟨above, c, content, rfl, habove, hc, hentry⟩ := h.finds.stands hstart hnul
  have hplace : d.Finds [] (above ++ [c]) (above ++ [c]) :=
    Stands.finds [] habove (.file hc.isName hc.length_le hentry)
  have hnot : ∀ n ∈ above ++ [c], (0 : UInt8) ∉ n := List.forall_mem_append.mpr
    ⟨fun n hn => (habove.allows n hn).nul_not_mem, List.forall_mem_singleton.mpr hc.nul_not_mem⟩
  have hnulRoot : (0 : UInt8) ∉ Path.root := by decide
  rw [hpath] at hlen ⊢
  refine ⟨?_, hlen, ?_⟩
  · rw [List.mem_append, not_or]
    exact ⟨hnulRoot, Path.not_mem_joined (by decide) hnot⟩
  · rw [Path.components_root (fun n hn => (hnames n hn).slash_not_mem) (by simp)]
    exact .stay (.inl rfl) hplace

/-- Nothing is found at an empty path or at the path of the directory itself. -/
theorem not_hasFile_of_here (h : path = [] ∨ path = Path.here) : ¬d.fileSystem.HasFile path := by
  rintro ⟨hdirectory, habsent⟩
  rcases h with rfl | rfl
  · exact habsent .noSuchFile rfl
  · exact hdirectory rfl

end Disk

namespace Resolver

variable {r : Resolver} {d : Disk} {path other includer includer' file file' : Text}

/-- The include leads to the file at the place, by the first path that leads to a file. -/
def Locates (r : Resolver) (d : Disk) (path includer : Text) (place : List Text) : Prop :=
  ∃ before c after, r.Means includer path (before ++ c :: after) ∧
    (∀ b ∈ before, ¬d.fileSystem.HasFile b) ∧ d.Leads c place

/-- Two files have one name if and only if they are one. What cleans to the same means the same, and
an include finds the file that its first candidate spells, however another include spells it. No
file is open twice, and a path that leads to an open file is refused, whatever its spelling. -/
structure Identifies (r : Resolver) (d : Disk) (a : Answer) : Prop where
  found : ∀ path includer file path' includer' file',
    r.resolve d.fileSystem path includer = .ok file →
    r.resolve d.fileSystem path' includer' = .ok file' →
    (file = file' ↔ ∃ place, r.Locates d path includer place ∧ r.Locates d path' includer' place)
  respelled : ∀ path path' includer file file', Path.Respelled path path' →
    r.resolve d.fileSystem path includer = .ok file →
    r.resolve d.fileSystem path' includer = .ok file' → file = file'
  spelled : ∀ path includer file path' includer' first others file',
    r.resolve d.fileSystem path includer = .ok file → file.length ≤ Disk.maxPath →
    d.fileSystem.Canonical includer' → r.Means includer' path' (first :: others) →
    d.fileSystem.absolute first = file →
    r.resolve d.fileSystem path' includer' = .ok file' → file = file'
  apart : ∀ stack ∈ a.passed, stack.Pairwise fun f g => ¬∃ place, d.Leads f place ∧ d.Leads g place
  refused : ∀ stack ∈ a.passed, ∀ f ∈ stack, ∀ path place, d.Leads path place → d.Leads f place →
    open? d.fileSystem stack path = .error (.cycle f stack)

theorem exists_locates (hd : d.Stands d.working)
    (h : r.resolve d.fileSystem path includer = .ok file) : ∃ place,
      r.Locates d path includer place ∧ file = Path.root ++ Path.joined place ∧
        ∀ n ∈ place, Path.IsName n := by
  have hresolves := r.resolves_resolve d.fileSystem path includer
  rw [h] at hresolves
  cases hresolves with
  | found hmeans hbefore hfile =>
    obtain ⟨place, hleads⟩ := Disk.hasFile_iff.mp hfile
    obtain ⟨hname, hnames⟩ := hleads.absolute hd
    exact ⟨place, ⟨_, _, _, hmeans, hbefore, hleads⟩, hname, hnames⟩

/-- What an include leads to has the name that resolving gives. -/
theorem Locates.resolve {place : List Text} (hd : d.Stands d.working)
    (h : r.Locates d path includer place) :
    r.resolve d.fileSystem path includer = .ok (Path.root ++ Path.joined place) := by
  obtain ⟨before, c, after, hmeans, hbefore, hleads⟩ := h
  rw [← (hleads.absolute hd).1]
  exact (Resolves.found hmeans hbefore (Disk.hasFile_iff.mpr ⟨place, hleads⟩)).resolve

theorem eq_iff_locates (hd : d.Stands d.working)
    (h : r.resolve d.fileSystem path includer = .ok file)
    (h' : r.resolve d.fileSystem other includer' = .ok file') :
    file = file' ↔
      ∃ place, r.Locates d path includer place ∧ r.Locates d other includer' place := by
  constructor
  · rintro rfl
    obtain ⟨place, hlocates, hfile, hnames⟩ := exists_locates hd h
    obtain ⟨place', hlocates', hfile', hnames'⟩ := exists_locates hd h'
    obtain rfl := Disk.joined_inj hnames hnames' (hfile.symm.trans hfile')
    exact ⟨place, hlocates, hlocates'⟩
  · rintro ⟨place, hlocates, hlocates'⟩
    have hfile := h.symm.trans (hlocates.resolve hd)
    have hfile' := h'.symm.trans (hlocates'.resolve hd)
    exact Except.ok.inj (hfile.trans hfile'.symm)

/-- Where an include has one candidate only, it means that or nothing. -/
theorem eq_absolute_of_means {fs : FileSystem} {c : Text} (hmeans : r.Means includer path [c])
    (h : r.resolve fs path includer = .ok file) : file = fs.absolute c := by
  rw [hmeans.resolve] at h
  cases hfind : [c].find? fs.isFile with
  | none =>
    rw [hfind] at h
    cases h
  | some c' =>
    rw [hfind] at h
    cases h
    rw [List.mem_singleton.mp (List.mem_of_find?_eq_some hfind)]

/-- The directories that a relative include is taken from, in order. -/
def bases (r : Resolver) (includer : Text) : List Text :=
  (if includer = [] then [] else [Path.directory includer]) ++ r.searchPaths

theorem means_bases (hmark : ¬resourceMark <+: path) (habs : Path.isAbsolute path = false) :
    r.Means includer path ((r.bases includer).map fun base => Path.join base path) := by
  unfold bases
  split
  · next hincluder => exact .listed hmark habs hincluder
  · next hincluder => exact .beside hmark habs hincluder

/-- From every directory, relative paths with one clean form lead to the same file if they lead to
any. -/
theorem hasFile_join (base : Text) (hp : Path.isAbsolute path = false)
    (ho : Path.isAbsolute other = false) (hclean : Path.clean path = Path.clean other) :
    Path.join base path = Path.join base other ∨
      ¬d.fileSystem.HasFile (Path.join base path) ∧
        ¬d.fileSystem.HasFile (Path.join base other) := by
  by_cases hbase : base = []
  · have hempty : Path.clean [] = Path.here := rfl
    subst hbase
    by_cases hpath : path = [] <;> by_cases hother : other = []
    · exact .inl (by rw [hpath, hother])
    · refine .inr ⟨Disk.not_hasFile_of_here (.inl ?_), Disk.not_hasFile_of_here (.inr ?_)⟩
      · simp [Path.join, hpath]
      · simpa [Path.join, hother, hpath, hempty] using hclean.symm
    · refine .inr ⟨Disk.not_hasFile_of_here (.inr ?_), Disk.not_hasFile_of_here (.inl ?_)⟩
      · simpa [Path.join, hother, hpath, hempty] using hclean
      · simp [Path.join, hother]
    · exact .inl (by simp [Path.join, hpath, hother, hclean])
  · exact .inl (Path.join_congr hbase hp ho hclean)

theorem resolve_relative {fs : FileSystem} (hmark : ¬resourceMark <+: path)
    (habs : Path.isAbsolute path = false) (h : r.resolve fs path includer = .ok file) :
    ∃ base, (r.bases includer).find? (fun base => fs.isFile (Path.join base path)) = some base ∧
      fs.HasFile (Path.join base path) ∧ file = fs.absolute (Path.join base path) := by
  rw [(means_bases hmark habs).resolve, List.find?_map] at h
  cases hfind : (r.bases includer).find? (fs.isFile ∘ fun base => Path.join base path) with
  | none =>
    rw [hfind] at h
    cases h
  | some base =>
    rw [hfind] at h
    cases h
    have hfile : fs.isFile (Path.join base path) = true :=
      List.find?_some (p := fun base => fs.isFile (Path.join base path)) hfind
    exact ⟨base, hfind, FileSystem.isFile_iff.mp hfile, rfl⟩

theorem eq_of_respelled (hspell : Path.Respelled path other)
    (h : r.resolve d.fileSystem path includer = .ok file)
    (h' : r.resolve d.fileSystem other includer = .ok file') : file = file' := by
  cases hspell with
  | relative hmark hmark' habs habs' hclean =>
    have hjoin := fun base => hasFile_join (d := d) base habs habs' hclean
    have hsame : (fun base => d.fileSystem.isFile (Path.join base path)) =
        fun base => d.fileSystem.isFile (Path.join base other) := by
      funext base
      rcases hjoin base with heq | ⟨hnone, hnone'⟩
      · rw [heq]
      · rw [← FileSystem.isFile_iff, Bool.not_eq_true] at hnone hnone'
        rw [hnone, hnone']
    obtain ⟨base, hfind, hfile, rfl⟩ := resolve_relative hmark habs h
    obtain ⟨base', hfind', -, rfl⟩ := resolve_relative hmark' habs' h'
    rw [← hsame, hfind] at hfind'
    cases hfind'
    rw [(hjoin base).resolve_right fun hnone => hnone.1 hfile]
  | absolute habs habs' hclean =>
    rw [eq_absolute_of_means (.absolute habs) h, eq_absolute_of_means (.absolute habs') h']
    simp only [FileSystem.absolute, Path.absolute, habs, habs', if_true, hclean]
  | @resource p q habs habs' hclean =>
    by_cases hroot : r.projectRoot = []
    · rw [resolve, candidates_eq_error_iff.mpr ⟨rfl, List.prefix_append .., hroot⟩] at h
      cases h
    · rw [eq_absolute_of_means (.resource p hroot) h, eq_absolute_of_means (.resource q hroot) h',
        Path.join_congr hroot habs habs' hclean]

/-- In a file with a canonical name, an include has one candidate only or starts with one that is
canonical. -/
theorem Means.first {fs : FileSystem} {first : Text} {others : List Text}
    (h : r.Means includer path (first :: others)) (hincluder : fs.Canonical includer) :
    others = [] ∨ fs.absolute first = first := by
  generalize hpaths : first :: others = paths at h
  cases h with
  | resource rest hroot => exact .inl (List.cons.inj hpaths).2
  | absolute habs => exact .inl (List.cons.inj hpaths).2
  | beside hmark habs hne =>
    refine .inr ?_
    have hdirectory := Path.isAbsolute_directory hincluder.isAbsolute
    have hfull : Path.isAbsolute (Path.directory includer ++ Path.root ++ path) = true := by
      rw [Path.isAbsolute_append_root (Path.directory_ne_nil _), hdirectory]
    rw [(List.cons.inj hpaths).1, Path.join_eq_clean (Path.directory_ne_nil _), FileSystem.absolute,
      Path.absolute, if_pos (Path.isAbsolute_clean hfull), Path.clean_clean hfull]
  | listed hmark habs hnil =>
    obtain ⟨parts, -, hparts⟩ := hincluder.named
    rw [hnil] at hparts
    cases hparts

theorem eq_of_spelled (hd : d.Stands d.working) {first : Text} {others : List Text}
    (h : r.resolve d.fileSystem path includer = .ok file) (hlen : file.length ≤ Disk.maxPath)
    (hincluder : d.fileSystem.Canonical includer')
    (hmeans : r.Means includer' other (first :: others))
    (hfirst : d.fileSystem.absolute first = file)
    (h' : r.resolve d.fileSystem other includer' = .ok file') : file = file' := by
  rcases hmeans.first hincluder with rfl | hcanonical
  · rw [eq_absolute_of_means hmeans h', hfirst]
  · obtain ⟨place, ⟨before, c, after, hc, hbefore, hleads⟩, hfile, -⟩ := exists_locates hd h
    have hname : d.fileSystem.absolute c = file := by rw [(hleads.absolute hd).1, hfile]
    have hthere := hleads.absolute_leads hd (hname ▸ hlen)
    rw [hname, ← hfirst, hcanonical] at hthere
    have hmeans' : r.Means includer' other ([] ++ first :: others) := hmeans
    have hfound : r.Resolves d.fileSystem other includer' (.ok (d.fileSystem.absolute first)) :=
      .found hmeans' (by simp) (Disk.hasFile_iff.mpr ⟨place, hthere⟩)
    rw [← hfirst]
    exact Except.ok.inj (hfound.resolve.symm.trans h')

/-- Files with different canonical names stand at different places. -/
theorem eq_of_leads (hd : d.Stands d.working) {place : List Text}
    (hfile : d.fileSystem.Canonical file) (h : d.Leads path place) (h' : d.Leads file place) :
    d.fileSystem.absolute path = file := by
  rw [(h.absolute hd).1, ← (h'.absolute hd).1, hfile.absolute]

theorem identifies (hd : d.Stands d.working) {a : Answer}
    (hnames : ∀ stack ∈ a.passed, ∀ f ∈ stack, d.fileSystem.Canonical f)
    (horderly : ∀ stack ∈ a.passed, Orderly stack) : r.Identifies d a := by
  constructor
  · exact fun _ _ _ _ _ _ h h' => eq_iff_locates hd h h'
  · exact fun _ _ _ _ _ hspell h h' => eq_of_respelled hspell h h'
  · exact fun _ _ _ _ _ _ _ _ h hlen hcanonical hmeans hfirst h' =>
      eq_of_spelled hd h hlen hcanonical hmeans hfirst h'
  · intro stack hstack
    refine (horderly stack hstack).nodup.imp_of_mem ?_
    rintro f g hf hg hne ⟨place, hleads, hleads'⟩
    have hcanonical := hnames stack hstack
    exact hne (((hcanonical f hf).absolute).symm.trans
      (eq_of_leads hd (hcanonical g hg) hleads hleads'))
  · intro stack hstack f hf path place h h'
    rw [open?_eq_error_iff, eq_of_leads hd (hnames stack hstack f hf) h h']
    exact .inl ⟨hf, rfl⟩

end Resolver

/-- Whatever was called on a resolver, all names of files that it gives or keeps open are canonical.
So on a disk without links two names are the same if and only if the files are. -/
theorem names_identify_files (projectRoot : Text) (searchPaths : List Text) (levels : Nat)
    (calls : List Call) (c : Call) :
    (∀ fs : FileSystem, fs.Rooted →
      let r := (Resolver.start projectRoot searchPaths levels).afterCalls fs calls
      (r.answer fs c).Named fs.Canonical) ∧
    ∀ d : Disk, d.Stands d.working →
      let r := (Resolver.start projectRoot searchPaths levels).afterCalls d.fileSystem calls
      r.Identifies d (r.answer d.fileSystem c) := by
  have hnone : ∀ P : Text → Prop,
      ∀ f ∈ (Resolver.start projectRoot searchPaths levels).stack, P f :=
    fun P f hf => absurd hf List.not_mem_nil
  have hnamed : ∀ fs : FileSystem, fs.Rooted →
      (((Resolver.start projectRoot searchPaths levels).afterCalls fs calls).answer fs c).Named
        fs.Canonical := by
    intro fs hfs
    have hstack := Resolver.afterCalls_named hfs.canonical_absolute (hnone _) calls
    exact Resolver.answer_named hfs.canonical_absolute hstack c
  refine ⟨hnamed, fun d hd => ?_⟩
  have horderly := Resolver.orderly_afterCalls d.fileSystem
    (r := Resolver.start projectRoot searchPaths levels) orderly_nil calls
  exact Resolver.identifies hd (hnamed d.fileSystem rfl).passed
    (Resolver.answer_keeps horderly c).meanwhile

/-- Five spellings of one file, and its name once it is open. -/
theorem names_identify_files_spellings :
    let d := Disk.ofEntries (Text.ofString "/w")
      [(Text.ofString "main", []), (Text.ofString "a", []), (Text.ofString "d/b", [])] []
    let fs := d.fileSystem
    let r := Resolver.start (Text.ofString "/w/d/..") [] 1
    let includer := Text.ofString "/w/main"
    let file := Text.ofString "/w/a"
    let spellings := [Text.ofString "./a", Text.ofString "d/../a", Text.ofString "d//../a",
      Text.ofString "/w/d/../a", Text.ofString "res://a"]
    let opened := r.afterCalls fs [.push (Text.ofString "d/../a")]
    fs.Rooted ∧ d.Stands d.working ∧
      (∀ path ∈ spellings, r.resolve fs path includer = .ok file) ∧
      (opened.answer fs (.walk includer)).Named fs.Canonical ∧
      opened.Identifies d (opened.answer fs (.push (Text.ofString "d/.././a"))) ∧
      opened.stack = [file] := by
  intro d fs r includer file spellings opened
  have hd : d.Stands d.working := by
    intro before c after he
    have hworking : d.working = [Text.ofString "w"] := by decide +kernel
    rw [hworking] at he
    cases before with
    | cons b before => simp at he
    | nil =>
      obtain rfl : Text.ofString "w" = c := (List.cons.inj he).1
      have hname : Path.IsName (Text.ofString "w") :=
        ⟨by decide +kernel, by decide +kernel, by decide +kernel, by decide +kernel⟩
      exact ⟨⟨hname, by decide +kernel, by decide +kernel⟩, by decide +kernel⟩
  have hspellings : ∀ path ∈ spellings, r.resolve fs path includer = .ok file := by decide +kernel
  have hstack : opened.stack = [file] := by decide +kernel
  exact ⟨rfl, hd, hspellings,
    (names_identify_files _ _ _ [.push (Text.ofString "d/../a")] (.walk includer)).1 fs rfl,
    (names_identify_files _ _ _ [.push (Text.ofString "d/../a")] _).2 d hd, hstack⟩

end ShaderSyntax
