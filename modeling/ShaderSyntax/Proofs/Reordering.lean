import Mathlib.Data.List.Perm.Subperm
import ShaderSyntax.Proofs.Cycles
import ShaderSyntax.Proofs.Operands
import ShaderSyntax.Proofs.Restarting

/-!
# The order of includes

Whether a walk reports an error hangs on the files that are reached, and not on the order of their
includes, but for the limit on open files. A walk without an error shows that the files reached are
sound: all can be read and parsed, every include means a file, and no chain of includes goes on for
ever. In whatever order they are walked, nothing but the limit can then go wrong. Since a file is
walked only where it is met first, the order decides how many files are open there.
-/
namespace ShaderSyntax

/-- The path that a declaration includes. -/
def Decl.includePath? : Decl → Option Text
  | .includes raw => some (unquote raw)
  | _ => none

/-- The texts have the same declarations in some order, or neither can be parsed. -/
inductive Document.Reorders (levels : Nat) (text text' : Text) : Prop where
  | parsed {d d' : Document} : Document.parse levels text = .ok d →
    Document.parse levels text' = .ok d' → d.decls.Perm d'.decls →
    Document.Reorders levels text text'
  | failed {e e' : TooDeep} : Document.parse levels text = .error e →
    Document.parse levels text' = .error e' → Document.Reorders levels text text'

/-- The same, but for the order of the declarations in a file. -/
inductive Entry.Reorders (levels : Nat) : Entry → Entry → Prop where
  | file {text text' : Text} : Document.Reorders levels text text' →
    Entry.Reorders levels (.file text) (.file text')
  | directory : Entry.Reorders levels .directory .directory
  | unreadable (reason : Reason) : Entry.Reorders levels (.unreadable reason) (.unreadable reason)
  | absent (reason : Reason) : Entry.Reorders levels (.absent reason) (.absent reason)

/-- The file systems differ only in the order of the declarations in their files. -/
structure FileSystem.Reorders (levels : Nat) (fs fs' : FileSystem) : Prop where
  workingDirectory : fs'.workingDirectory = fs.workingDirectory
  lookup : ∀ path, Entry.Reorders levels (fs.lookup path) (fs'.lookup path)

/-- The paths that the declarations of a document include, in order. -/
theorem Document.map_fst_includes (d : Document) :
    d.includes.map Prod.fst = d.decls.filterMap Decl.includePath? := by
  have hlen : d.decls.length = d.trees.length := by
    rw [Document.trees, Source.placeAll, Node.length_placeAll, List.length_map]
  calc d.includes.map Prod.fst
      = (d.decls.zip d.trees).filterMap fun p => p.1.includePath? := by
        rw [Document.includes, List.map_filterMap]
        refine List.filterMap_congr fun p _ => ?_
        obtain ⟨decl, tree⟩ := p
        cases decl <;> rfl
    _ = ((d.decls.zip d.trees).map Prod.fst).filterMap Decl.includePath? := by
        rw [List.filterMap_map]
        rfl
    _ = d.decls.filterMap Decl.includePath? := by rw [List.map_fst_zip hlen.le]

theorem Document.Reorders.symm {levels : Nat} {text text' : Text}
    (h : Document.Reorders levels text text') : Document.Reorders levels text' text := by
  cases h with
  | parsed hd hd' hperm => exact .parsed hd' hd hperm.symm
  | failed he he' => exact .failed he' he

theorem Entry.Reorders.symm {levels : Nat} {entry entry' : Entry}
    (h : Entry.Reorders levels entry entry') : Entry.Reorders levels entry' entry := by
  cases h with
  | file ht => exact .file ht.symm
  | directory => exact .directory
  | unreadable reason => exact .unreadable reason
  | absent reason => exact .absent reason

theorem Document.Reorders.refl (levels : Nat) (text : Text) :
    Document.Reorders levels text text := by
  cases h : Document.parse levels text with
  | error e => exact .failed h h
  | ok d => exact .parsed h h (.refl _)

theorem Entry.Reorders.refl (levels : Nat) (entry : Entry) : Entry.Reorders levels entry entry := by
  cases entry with
  | file text => exact .file (.refl levels text)
  | directory => exact .directory
  | unreadable reason => exact .unreadable reason
  | absent reason => exact .absent reason

/-- The file system with another text in one file. -/
def FileSystem.overwrite (fs : FileSystem) (file text : Text) : FileSystem :=
  ⟨fs.workingDirectory, fun path => if path = file then .file text else fs.lookup path⟩

variable {levels : Nat} {fs fs' : FileSystem}

namespace FileSystem.Reorders

theorem overwrite {file text text' : Text} (hfile : fs.lookup file = .file text)
    (h : Document.Reorders levels text text') : fs.Reorders levels (fs.overwrite file text') := by
  refine ⟨rfl, fun path => ?_⟩
  unfold FileSystem.overwrite
  by_cases hpath : path = file
  · simp only [hpath, hfile, if_true]
    exact .file h
  · simp only [hpath, if_false]
    exact .refl levels _

theorem symm (h : fs.Reorders levels fs') : fs'.Reorders levels fs :=
  ⟨h.workingDirectory.symm, fun path => (h.lookup path).symm⟩

theorem rooted (h : fs.Reorders levels fs') (hfs : fs.Rooted) : fs'.Rooted := by
  unfold Rooted
  rw [h.workingDirectory]
  exact hfs

theorem absolute_eq (h : fs.Reorders levels fs') : fs'.absolute = fs.absolute := by
  funext path
  unfold FileSystem.absolute
  rw [h.workingDirectory]

theorem isFile_eq (h : fs.Reorders levels fs') : fs'.isFile = fs.isFile := by
  funext path
  have hentry := h.lookup path
  unfold FileSystem.isFile
  generalize fs.lookup path = entry at hentry
  generalize fs'.lookup path = entry' at hentry
  cases hentry <;> rfl

end FileSystem.Reorders

namespace Resolver

variable {r : Resolver} {root file target : Text}

/-- The paths that a file includes, in order. -/
def pathsOf (r : Resolver) (fs : FileSystem) (file : Text) : List Text :=
  (r.includesOf fs file).map Prod.fst

theorem leads_iff_pathsOf : r.Leads fs file target ↔
    ∃ path ∈ r.pathsOf fs file, r.resolve fs path file = .ok target := by
  simp [leads_iff, pathsOf]

section Reorders

variable (h : fs.Reorders r.levels fs')
include h

theorem resolve_reorders (path includer : Text) :
    r.resolve fs' path includer = r.resolve fs path includer := by
  simp only [resolve, h.isFile_eq, h.absolute_eq]

theorem open?_reorders (stack : List Text) (path : Text) :
    open? fs' stack path = open? fs stack path := by
  unfold open?
  rw [h.absolute_eq]

/-- A file can be read and parsed as before, and includes the same paths in some order. -/
theorem load_reorders (file : Text) :
    (∃ e e', r.load fs file = .error e ∧ r.load fs' file = .error e') ∨
      ∃ d d', r.load fs file = .ok d ∧ r.load fs' file = .ok d' ∧ d.decls.Perm d'.decls := by
  have hentry := h.lookup file
  unfold load FileSystem.read
  generalize fs.lookup file = entry at hentry
  generalize fs'.lookup file = entry' at hentry
  cases hentry with
  | file ht =>
    cases ht with
    | parsed hd hd' hperm => exact .inr ⟨_, _, by simp only [hd]; rfl, by simp only [hd']; rfl, hperm⟩
    | failed he he' => exact .inl ⟨_, _, by simp only [he]; rfl, by simp only [he']; rfl⟩
  | directory => exact .inl ⟨_, _, rfl, rfl⟩
  | unreadable reason => exact .inl ⟨_, _, rfl, rfl⟩
  | absent reason => exact .inl ⟨_, _, rfl, rfl⟩

theorem failure?_reorders (file : Text) :
    r.failure? fs' file = none ↔ r.failure? fs file = none := by
  rcases load_reorders h file with ⟨e, e', he, he'⟩ | ⟨d, d', hd, hd', -⟩
  · simp [failure?, he, he']
  · simp [failure?, hd, hd']

theorem pathsOf_reorders (file : Text) : (r.pathsOf fs file).Perm (r.pathsOf fs' file) := by
  rcases load_reorders h file with ⟨e, e', he, he'⟩ | ⟨d, d', hd, hd', hperm⟩
  · simp [pathsOf, includesOf, he, he']
  · rw [pathsOf, pathsOf, includesOf_of_load hd, includesOf_of_load hd',
      Document.map_fst_includes, Document.map_fst_includes]
    exact hperm.filterMap _

/-- The include graph is the same. -/
theorem leads_reorders : r.Leads fs' = r.Leads fs := by
  funext file target
  rw [eq_iff_iff, leads_iff_pathsOf, leads_iff_pathsOf]
  simp only [(pathsOf_reorders h file).mem_iff, resolve_reorders h]

end Reorders

/-- Nothing can be wrong below the file but that too many files are open: what is reached from it can be
read and parsed, is not open before, and includes nothing that means no file, and no chain of includes
goes on for ever. -/
structure Sound (r : Resolver) (fs : FileSystem) (root : Text) : Prop where
  terminates : r.Terminates fs root
  usable : ∀ file, r.Reaches fs root file → r.failure? fs file = none
  closed : ∀ file, r.Reaches fs root file → file ∉ r.stack
  resolves : ∀ file, r.Reaches fs root file → ∀ path ∈ r.pathsOf fs file,
    ∃ target, r.resolve fs path file = .ok target

/-- However its files are chained, from the root on no more are open at a time than may be. -/
def Shallow (r : Resolver) (fs : FileSystem) (root : Text) : Prop :=
  ∀ chain : List Text, chain.head? = some root → chain.IsChain (r.Leads fs) → chain.Nodup →
    r.stack.length + chain.length ≤ maxIncludeDepth

theorem Sound.of_leads (h : r.Sound fs file) (hedge : r.Leads fs file target) :
    r.Sound fs target :=
  ⟨h.terminates.inv hedge, fun f hf => h.usable f (.head hedge hf),
    fun f hf => h.closed f (.head hedge hf), fun f hf => h.resolves f (.head hedge hf)⟩

theorem Sound.reorders (h : r.Sound fs root) (hre : fs.Reorders r.levels fs') :
    r.Sound fs' root := by
  have hleads := leads_reorders hre
  constructor
  · rw [Terminates, hleads]
    exact h.terminates
  · intro file hfile
    rw [Reaches, hleads] at hfile
    exact (failure?_reorders hre file).mpr (h.usable file hfile)
  · intro file hfile
    rw [Reaches, hleads] at hfile
    exact h.closed file hfile
  · intro file hfile path hpath
    rw [Reaches, hleads] at hfile
    rw [resolve_reorders hre]
    exact h.resolves file hfile path ((pathsOf_reorders hre file).mem_iff.mpr hpath)

theorem Shallow.reorders (h : r.Shallow fs root) (hre : fs.Reorders r.levels fs') :
    r.Shallow fs' root := by
  unfold Shallow
  rw [leads_reorders hre]
  exact h

/-- Chains are short where few files are reached. -/
theorem Shallow.of_closed (known : List Text) (hroot : root ∈ known)
    (hclosed : ∀ f ∈ known, ∀ path ∈ r.pathsOf fs f, ∀ target,
      r.resolve fs path f = .ok target → target ∈ known)
    (hlen : r.stack.length + known.length ≤ maxIncludeDepth) : r.Shallow fs root := by
  intro chain hhead hchain hnodup
  have hreach : ∀ f, r.Reaches fs root f → f ∈ known := by
    intro f hf
    induction hf with
    | refl => exact hroot
    | tail _ hedge ih =>
      obtain ⟨path, hpath, ht⟩ := leads_iff_pathsOf.mp hedge
      exact hclosed _ ih path hpath _ ht
  have hsub : chain ⊆ known := fun f hf => hreach f (reaches_of_mem hchain hhead f hf)
  have hle : chain.length ≤ known.length := (hnodup.subperm hsub).length_le
  omega

variable {stack visited fresh : List Text} {includes : List (Text × Nat)} {deps : List Dependency}

/-- Each of the includes means a file that is known and not open. -/
def Arrives (r : Resolver) (fs : FileSystem) (stack known : List Text) (file : Text)
    (includes : List (Text × Nat)) : Prop :=
  ∀ i ∈ includes, ∃ target, r.resolve fs i.1 file = .ok target ∧ target ∉ stack ∧ target ∈ known

theorem Arrives.mono {stack' known known' : List Text} (h : r.Arrives fs stack known file includes)
    (hstack : stack' ⊆ stack) (hknown : known ⊆ known') :
    r.Arrives fs stack' known' file includes := by
  intro i hi
  obtain ⟨target, ht, hout, hmem⟩ := h i hi
  exact ⟨target, ht, fun hm => hout (hstack hm), hknown hmem⟩

/-- Without an error the includes mean files that were visited or are gone into, and so do those of
every file gone into, which can be read and parsed. -/
theorem Follows.arrives (hfs : fs.Rooted)
    (h : r.Follows fs stack file visited includes deps fresh)
    (hclean : ∀ dep ∈ deps, dep.error? = none) :
    r.Arrives fs stack (visited ++ fresh) file includes ∧
      ∀ f ∈ fresh, r.failure? fs f = none ∧
        r.Arrives fs stack (visited ++ fresh) f (r.includesOf fs f) := by
  induction h with
  | nil => exact ⟨fun _ hi => (List.not_mem_nil hi).elim, by simp⟩
  | @stop stack file visited path line rest resolved error? deps fresh hs h ih =>
    obtain ⟨hself, hfresh⟩ := ih fun dep hdep => hclean dep (List.mem_cons_of_mem _ hdep)
    have hnone : error? = none := hclean _ List.mem_cons_self
    refine ⟨fun i hi => ?_, hfresh⟩
    rcases List.mem_cons.mp hi with rfl | hi
    · cases hs with
      | unresolved hr => cases hnone
      | refused hr ho => cases hnone
      | known hr ho hv =>
        obtain ⟨hout, -, -⟩ := open?_eq_ok_iff.mp ho
        rw [absolute_of_resolve hfs hr] at hout
        exact ⟨_, hr, hout, List.mem_append_left _ hv⟩
    · exact hself i hi
  | @enter stack file visited path line rest target inner below deps new fresh hr ho hv hb h ihb
      ih =>
    obtain ⟨hout, -, rfl⟩ := open?_eq_ok_iff.mp ho
    rw [absolute_of_resolve hfs hr] at hout
    obtain ⟨htarget, hnew⟩ := ihb fun dep hdep => hclean dep (by simp [hdep])
    obtain ⟨hself, hfresh⟩ := ih fun dep hdep => hclean dep (by simp [hdep])
    have hstack : stack ⊆ stack ++ [fs.absolute target] := List.subset_append_left ..
    have hbelow : target :: visited ++ new ⊆ visited ++ target :: (new ++ fresh) := by
      intro f hf
      simp only [List.mem_append, List.mem_cons] at hf
      rcases hf with (hf | hf) | hf <;> simp [hf]
    have hafter : new.reverse ++ target :: visited ++ fresh ⊆
        visited ++ target :: (new ++ fresh) := by
      intro f hf
      simp only [List.mem_append, List.mem_cons, List.mem_reverse] at hf
      rcases hf with ((hf | hf | hf) | hf) <;> simp [hf]
    constructor
    · intro i hi
      rcases List.mem_cons.mp hi with rfl | hi
      · exact ⟨target, hr, hout, by simp⟩
      · exact hself.mono (List.Subset.refl _) hafter i hi
    · intro f hf
      rcases List.mem_cons.mp hf with rfl | hf
      · exact ⟨hclean _ List.mem_cons_self, htarget.mono hstack hbelow⟩
      · rcases List.mem_append.mp hf with hf | hf
        · exact ⟨(hnew f hf).1, (hnew f hf).2.mono hstack hbelow⟩
        · exact ⟨(hfresh f hf).1, (hfresh f hf).2.mono (List.Subset.refl _) hafter⟩

/-- A walk without an error leaves nothing behind that could be wrong. -/
theorem Follows.sound (hfs : fs.Rooted)
    (h : r.Follows fs stack root [root] (r.includesOf fs root) deps fresh)
    (hstack : stack = r.stack ++ [root]) (hroot : root ∉ r.stack)
    (husable : r.failure? fs root = none) (hclean : ∀ dep ∈ deps, dep.error? = none) :
    r.Sound fs root := by
  obtain ⟨hself, hfresh⟩ := h.arrives hfs hclean
  -- The root and the files gone into are closed under includes.
  have harrives : ∀ f ∈ root :: fresh, r.failure? fs f = none ∧
      r.Arrives fs stack (root :: fresh) f (r.includesOf fs f) := by
    intro f hf
    rcases List.mem_cons.mp hf with rfl | hf
    · exact ⟨husable, hself⟩
    · exact hfresh f hf
  have hreach : ∀ f, r.Reaches fs root f → f ∈ root :: fresh ∧ f ∉ r.stack := by
    intro f hf
    induction hf with
    | refl => exact ⟨List.mem_cons_self, hroot⟩
    | tail _ hedge ih =>
      obtain ⟨i, hi, hr⟩ := leads_iff.mp hedge
      obtain ⟨target, ht, hout, hmem⟩ := (harrives _ ih.1).2 i hi
      cases hr.symm.trans ht
      exact ⟨hmem, fun hm => hout (by simp [hstack, hm])⟩
  obtain ⟨-, htargets⟩ := h.terminates hfs (by simp [hstack]) fun dep hdep e he => by
    rw [hclean dep hdep] at he
    cases he
  refine ⟨.intro root fun next hedge => ?_, fun f hf => (harrives f (hreach f hf).1).1,
    fun f hf => (hreach f hf).2, fun f hf path hpath => ?_⟩
  · obtain ⟨i, hi, hr⟩ := leads_iff.mp hedge
    exact htargets i hi next hr
  · obtain ⟨i, hi, rfl⟩ := List.mem_map.mp hpath
    obtain ⟨target, ht, -⟩ := (harrives f (hreach f hf).1).2 i hi
    exact ⟨target, ht⟩

/-- Below a sound file nothing but the limit on open files is an error. -/
theorem Follows.only_nested (hfs : fs.Rooted)
    (h : r.Follows fs stack file visited includes deps fresh) (hsound : r.Sound fs file)
    (hsub : ∀ i ∈ includes, i ∈ r.includesOf fs file)
    (hstack : ∀ f ∈ stack, f ∈ r.stack ∨ r.Reaches fs f file) :
    ∀ dep ∈ deps, ∀ e ∈ dep.error?, e.isTooNested = true := by
  induction h with
  | nil => simp
  | @stop stack file visited path line rest resolved error? deps fresh hs h ih =>
    intro dep hdep e he
    rcases List.mem_cons.mp hdep with rfl | hdep
    · have hi := hsub (path, line) List.mem_cons_self
      cases hs with
      | unresolved hr =>
        obtain ⟨target, ht⟩ := hsound.resolves file .refl path (List.mem_map_of_mem hi)
        cases hr.symm.trans ht
      | @refused target e' hr ho =>
        cases he
        have hedge : r.Leads fs file resolved := leads_iff.mpr ⟨_, hi, hr⟩
        rcases open?_eq_error_iff.mp ho with ⟨hmem, -⟩ | ⟨-, -, rfl⟩
        · rw [absolute_of_resolve hfs hr] at hmem
          rcases hstack resolved hmem with hopen | hback
          · exact absurd hopen (hsound.closed resolved (.single hedge))
          · exact absurd (Relation.TransGen.head' hedge hback) hsound.terminates.not_cycle
        · rfl
      | known hr ho hv => cases he
    · exact ih hsound (fun i hi => hsub i (List.mem_cons_of_mem _ hi)) hstack dep hdep e he
  | @enter stack file visited path line rest target inner below deps new fresh hr ho hv hb h ihb
      ih =>
    have hedge : r.Leads fs file target :=
      leads_iff.mpr ⟨_, hsub (path, line) List.mem_cons_self, hr⟩
    obtain ⟨-, -, rfl⟩ := open?_eq_ok_iff.mp ho
    rw [absolute_of_resolve hfs hr] at ihb
    have hinner : ∀ f ∈ stack ++ [target], f ∈ r.stack ∨ r.Reaches fs f target := by
      intro f hf
      rcases List.mem_append.mp hf with hf | hf
      · exact (hstack f hf).imp_right fun hreach => hreach.tail hedge
      · rw [List.mem_singleton.mp hf]
        exact .inr .refl
    intro dep hdep e he
    rcases List.mem_cons.mp hdep with rfl | hdep
    · rw [hsound.usable target (.single hedge)] at he
      cases he
    · rcases List.mem_append.mp hdep with hdep | hdep
      · exact ihb (hsound.of_leads hedge) (fun i hi => hi) hinner dep hdep e he
      · exact ih hsound (fun i hi => hsub i (List.mem_cons_of_mem _ hi)) hstack dep hdep e he

/-- The open files are those open before and a chain of different ones from the root to the file. -/
def Trails (r : Resolver) (fs : FileSystem) (root : Text) (stack : List Text) (file : Text) : Prop :=
  ∃ chain, stack = r.stack ++ chain ∧ chain.head? = some root ∧ chain.getLast? = some file ∧
    chain.IsChain (r.Leads fs) ∧ chain.Nodup

theorem Trails.push (h : r.Trails fs root stack file) (hedge : r.Leads fs file target)
    (hout : target ∉ stack) : r.Trails fs root (stack ++ [target]) target := by
  obtain ⟨chain, rfl, hhead, hlast, hchain, hnodup⟩ := h
  refine ⟨chain ++ [target], List.append_assoc .., ?_, List.getLast?_concat, ?_, ?_⟩
  · rw [List.head?_append, hhead, Option.some_or]
  · refine List.isChain_append.mpr ⟨hchain, by simp, fun f hf g hg => ?_⟩
    obtain rfl := Option.some.inj (hlast.symm.trans hf)
    obtain rfl : target = g := by simpa using hg
    exact hedge
  · rw [← List.concat_eq_append]
    exact hnodup.concat fun hm => hout (List.mem_append_right _ hm)

theorem isTooNested_of_isUnresolved {e : IncludeError} (h : e.isUnresolved = true) :
    e.isTooNested = false := by
  cases e <;> first | rfl | cases h

/-- An include is too nested only below a chain of files that is longer than may be. -/
theorem Follows.not_shallow (hfs : fs.Rooted)
    (h : r.Follows fs stack file visited includes deps fresh)
    (hsub : ∀ i ∈ includes, i ∈ r.includesOf fs file) (htrail : r.Trails fs root stack file) :
    ∀ dep ∈ deps, ∀ e ∈ dep.error?, e.isTooNested = true → ¬r.Shallow fs root := by
  induction h with
  | nil => simp
  | @stop stack file visited path line rest resolved error? deps fresh hs h ih =>
    intro dep hdep e he hnested
    rcases List.mem_cons.mp hdep with rfl | hdep
    · cases hs with
      | unresolved hr =>
        cases he
        rw [isTooNested_of_isUnresolved (isUnresolved_of_resolve hr)] at hnested
        cases hnested
      | @refused target e' hr ho =>
        cases he
        rcases open?_eq_error_iff.mp ho with ⟨-, rfl⟩ | ⟨hout, hlen, -⟩
        · cases hnested
        · rw [absolute_of_resolve hfs hr] at hout
          have hedge : r.Leads fs file resolved :=
            leads_iff.mpr ⟨_, hsub (path, line) List.mem_cons_self, hr⟩
          obtain ⟨chain, hstack, hhead, -, hchain, hnodup⟩ := htrail.push hedge hout
          intro hshallow
          have hle := hshallow chain hhead hchain hnodup
          have hall := congrArg List.length hstack
          simp only [List.length_append, List.length_singleton] at hall
          omega
      | known hr ho hv => cases he
    · exact ih (fun i hi => hsub i (List.mem_cons_of_mem _ hi)) htrail dep hdep e he hnested
  | @enter stack file visited path line rest target inner below deps new fresh hr ho hv hb h ihb
      ih =>
    intro dep hdep e he hnested
    have hedge : r.Leads fs file target :=
      leads_iff.mpr ⟨_, hsub (path, line) List.mem_cons_self, hr⟩
    rcases List.mem_cons.mp hdep with rfl | hdep
    · rcases failure?_eq_some he with ⟨e', rfl⟩ | ⟨limit, rfl⟩ <;> cases hnested
    · rcases List.mem_append.mp hdep with hdep | hdep
      · obtain ⟨hout, -, rfl⟩ := open?_eq_ok_iff.mp ho
        rw [absolute_of_resolve hfs hr] at hout ihb
        exact ihb (fun i hi => hi) (htrail.push hedge hout) dep hdep e he hnested
      · exact ih (fun i hi => hsub i (List.mem_cons_of_mem _ hi)) htrail dep hdep e he hnested

/-- A walk gives dependencies just if its root can be opened, read and parsed. -/
theorem exists_walk_iff {path : Text} : (∃ deps, r.walk fs path = .ok deps) ↔
    (∃ stack, open? fs r.stack (fs.absolute path) = .ok stack) ∧
      r.failure? fs (fs.absolute path) = none := by
  constructor
  · rintro ⟨deps, h⟩
    obtain ⟨stack, -, ho, hl, -, -⟩ := walk_eq_ok h
    exact ⟨⟨stack, ho⟩, hl⟩
  · rintro ⟨⟨stack, ho⟩, hl⟩
    obtain ⟨deps, fresh, -, heq⟩ := visits_of_open? ho (fs.absolute path) [fs.absolute path]
    rw [hl] at heq
    exact ⟨deps, by simp only [walk, ho, heq]⟩

theorem exists_walk_reorders (hre : fs.Reorders r.levels fs') (path : Text) :
    (∃ deps, r.walk fs path = .ok deps) ↔ ∃ deps, r.walk fs' path = .ok deps := by
  simp only [exists_walk_iff, hre.absolute_eq, open?_reorders hre, failure?_reorders hre]

/-- If one order gives no error, then another gives none but that too many files are open, and only
where some chain of files is that long. -/
theorem only_nested_reorders (hfs : fs.Rooted) (hre : fs.Reorders r.levels fs') {path : Text}
    {deps' : List Dependency} (h : r.walk fs path = .ok deps) (h' : r.walk fs' path = .ok deps')
    (hclean : ∀ dep ∈ deps, dep.error? = none) :
    ∀ dep ∈ deps', ∀ e ∈ dep.error?, e.isTooNested = true ∧ ¬r.Shallow fs (fs.absolute path) := by
  obtain ⟨stack, fresh, ho, husable, -, hf⟩ := walk_eq_ok h
  obtain ⟨stack', fresh', ho', -, -, hf'⟩ := walk_eq_ok h'
  rw [open?_reorders hre, hre.absolute_eq, ho] at ho'
  obtain rfl := Except.ok.inj ho'
  obtain ⟨hout, -, hstack⟩ := open?_eq_ok_iff.mp ho
  rw [hfs.absolute_absolute] at hout hstack
  rw [hre.absolute_eq] at hf'
  have hsound : r.Sound fs' (fs.absolute path) :=
    (hf.sound hfs hstack hout husable hclean).reorders hre
  have htrail : r.Trails fs' (fs.absolute path) stack (fs.absolute path) :=
    ⟨[fs.absolute path], hstack, rfl, rfl, List.isChain_singleton _, List.nodup_singleton _⟩
  intro dep hdep e he
  have hnested := hf'.only_nested (hre.rooted hfs) hsound (fun i hi => hi) (by
    intro f hf
    rw [hstack] at hf
    rcases List.mem_append.mp hf with hf | hf
    · exact .inl hf
    · rw [List.mem_singleton.mp hf]
      exact .inr .refl) dep hdep e he
  refine ⟨hnested, fun hshallow => ?_⟩
  exact hf'.not_shallow (hre.rooted hfs) (fun i hi => hi) htrail dep hdep e he hnested
    (hshallow.reorders hre)

/-- Without long chains, a file is walked without an error in any order or in none. -/
theorem closed_reorders (hfs : fs.Rooted) (hre : fs.Reorders r.levels fs') {path : Text}
    (hshallow : r.Shallow fs (fs.absolute path)) (h : r.Closed fs path) : r.Closed fs' path := by
  obtain ⟨deps, hwalk, hclean⟩ := h
  obtain ⟨deps', hwalk'⟩ := (exists_walk_reorders hre path).mp ⟨deps, hwalk⟩
  refine ⟨deps', hwalk', fun dep hdep => ?_⟩
  rw [Option.eq_none_iff_forall_ne_some]
  intro e he
  exact (only_nested_reorders hfs hre hwalk hwalk' hclean dep hdep e he).2 hshallow

end Resolver

namespace Command

/-- The exit status of a listing of includes hangs on the files that can be walked without an error. -/
theorem status_congr_of_closed {w : World} {arguments : List Text} {o : Options}
    (hparse : Options.parse arguments = .ok o) (hdeps : o.deps = true)
    (h : ∀ file ∈ o.files,
      (Resolver.start o.projectRoot o.includePaths (levelsFor o.maxDepth)).Closed fs file ↔
        (Resolver.start o.projectRoot o.includePaths (levelsFor o.maxDepth)).Closed fs' file) :
    (run { w with files := fs } arguments).status =
      (run { w with files := fs' } arguments).status := by
  rw [run, run, hparse]
  dsimp only
  unfold execute
  split
  · rfl
  split
  · rfl
  split
  · rfl
  split
  · rfl
  · next format _ =>
    split
    · rfl
    · have hmode : (settings o w.hasColor format).mode = .deps := by simp [settings, hdeps]
      have hbefore := processAll_deps hmode { w with files := fs } o.files
      have hafter := processAll_deps hmode { w with files := fs' } o.files
      have hsame := hbefore.succeeded.trans <| hbefore.stderr.trans <|
        (forall₂_congr h).trans (hafter.succeeded.trans hafter.stderr).symm
      rw [Output.status, Output.status, Bool.eq_iff_iff.mpr hsame]

end Command

/-- In a file system that differs only in the order of declarations, a walk can start if and only if it
could before. Unless all errors of one of the two walks are that too many files are open, either both
report an error or none does. Where no chain of files is as long as that, they always agree, and so does
the exit status of a listing of includes. -/
theorem verdict_reordered {levels : Nat} {fs fs' : FileSystem} (hfs : fs.Rooted)
    (hre : fs.Reorders levels fs') :
    (∀ (r : Resolver) (path : Text), r.levels = levels →
      ((∃ deps, r.walk fs path = .ok deps) ↔ ∃ deps, r.walk fs' path = .ok deps) ∧
      ∀ deps deps', r.walk fs path = .ok deps → r.walk fs' path = .ok deps' →
        ((∃ dep ∈ deps, ∃ e ∈ dep.error?, e.isTooNested = false) →
          ∃ dep ∈ deps', dep.error? ≠ none) ∧
        ((∃ dep ∈ deps', ∃ e ∈ dep.error?, e.isTooNested = false) →
          ∃ dep ∈ deps, dep.error? ≠ none) ∧
        (r.Shallow fs (fs.absolute path) →
          ((∃ dep ∈ deps, dep.error? ≠ none) ↔ ∃ dep ∈ deps', dep.error? ≠ none))) ∧
    ∀ (w : World) (arguments : List Text) (o : Options), Options.parse arguments = .ok o →
      o.deps = true →
      levelsFor o.maxDepth = levels →
      (∀ file ∈ o.files,
        (Resolver.start o.projectRoot o.includePaths levels).Shallow fs (fs.absolute file)) →
      (Command.run { w with files := fs } arguments).status =
        (Command.run { w with files := fs' } arguments).status := by
  constructor
  · rintro r path rfl
    refine ⟨Resolver.exists_walk_reorders hre path, fun deps deps' h h' => ?_⟩
    have hforth := Resolver.only_nested_reorders hfs hre h h'
    have hback := Resolver.only_nested_reorders (hre.rooted hfs) hre.symm h' h
    refine ⟨?_, ?_, fun hshallow => ⟨?_, ?_⟩⟩
    · rintro ⟨dep, hdep, e, he, hnested⟩
      by_contra! hclean
      rw [(hback hclean dep hdep e he).1] at hnested
      cases hnested
    · rintro ⟨dep, hdep, e, he, hnested⟩
      by_contra! hclean
      rw [(hforth hclean dep hdep e he).1] at hnested
      cases hnested
    · rintro ⟨dep, hdep, herror⟩
      by_contra! hclean
      obtain ⟨e, he⟩ := Option.ne_none_iff_exists'.mp herror
      refine (hback hclean dep hdep e he).2 ?_
      rw [hre.absolute_eq]
      exact hshallow.reorders hre
    · rintro ⟨dep, hdep, herror⟩
      by_contra! hclean
      obtain ⟨e, he⟩ := Option.ne_none_iff_exists'.mp herror
      exact (hforth hclean dep hdep e he).2 hshallow
  · rintro w arguments o hparse hdeps rfl hshallow
    refine Command.status_congr_of_closed hparse hdeps fun file hfile => ⟨?_, ?_⟩
    · exact Resolver.closed_reorders hfs hre (hshallow file hfile)
    · refine Resolver.closed_reorders (hre.rooted hfs) hre.symm ?_
      rw [hre.absolute_eq]
      exact Resolver.Shallow.reorders (hshallow file hfile) hre

/-- Two includes are parsed into two declarations, in the order written. -/
theorem Document.Reorders.swap {text text' : Text} (first second : Text)
    (h : (Document.parse levels text).toOption.map Document.decls =
      some [.includes first, .includes second])
    (h' : (Document.parse levels text').toOption.map Document.decls =
      some [.includes second, .includes first]) : Document.Reorders levels text text' := by
  cases hd : Document.parse levels text with
  | error e => simp [hd, Except.toOption] at h
  | ok d =>
    cases hd' : Document.parse levels text' with
    | error e => simp [hd', Except.toOption] at h'
    | ok d' =>
      simp only [hd, hd', Except.toOption, Option.map_some, Option.some.injEq] at h h'
      refine .parsed hd hd' ?_
      rw [h, h']
      exact .swap _ _ []

/-- A file with two includes, one of which leads to a cycle, in both orders: walks report the cycle, and
so do listings. -/
theorem verdict_reordered_cycle :
    let fs : FileSystem := ⟨Text.ofString "/w", fun path =>
      if path = Text.ofString "/w/main" then
        .file (Text.ofString "#include \"a\"\n#include \"b\"")
      else if path = Text.ofString "/w/a" then .file (Text.ofString "#include \"a\"")
      else if path = Text.ofString "/w/b" then .file []
      else .absent .noSuchFile⟩
    let fs' := fs.overwrite (Text.ofString "/w/main")
      (Text.ofString "#include \"b\"\n#include \"a\"")
    let r := Resolver.start [] [] 1
    let path := Text.ofString "main"
    let arguments := [Text.ofString "--deps", Text.ofString "--max-depth=1", path]
    ∃ deps deps', fs.Rooted ∧ fs.Reorders 1 fs' ∧ r.levels = 1 ∧ r.Shallow fs (fs.absolute path) ∧
      r.walk fs path = .ok deps ∧ r.walk fs' path = .ok deps' ∧
      deps.map (fun dep => dep.error?.isSome) = [false, true, false] ∧
      deps'.map (fun dep => dep.error?.isSome) = [false, false, true] ∧
      ((∃ dep ∈ deps, dep.error? ≠ none) ↔ ∃ dep ∈ deps', dep.error? ≠ none) ∧
      (Command.run ⟨fs, [], false⟩ arguments).status = 1 ∧
      (Command.run ⟨fs', [], false⟩ arguments).status = 1 := by
  intro fs fs' r path arguments
  have hfs : fs.Rooted := rfl
  have hre : fs.Reorders 1 fs' := by
    refine .overwrite rfl (.swap (Text.ofString "\"a\"") (Text.ofString "\"b\"") ?_ ?_)
    · rfl
    · rfl
  have hshallow : r.Shallow fs (fs.absolute path) := by
    let known := [Text.ofString "/w/main", Text.ofString "/w/a", Text.ofString "/w/b"]
    have hclosed : (known.all fun f => (r.pathsOf fs f).all fun path =>
        (r.resolve fs path f).toOption.all known.contains) = true := by decide +kernel
    refine .of_closed known (by decide) (fun f hf path hpath target ht => ?_) (by decide)
    have htarget := List.all_eq_true.mp (List.all_eq_true.mp hclosed f hf) path hpath
    simpa [ht, Except.toOption] using htarget
  obtain ⟨deps, hdeps, hbefore⟩ := Resolver.exists_walk r fs path
    (fun deps => deps.map (fun dep => dep.error?.isSome) == [false, true, false])
    (by decide +kernel)
  obtain ⟨deps', hdeps', hafter⟩ := Resolver.exists_walk r fs' path
    (fun deps => deps.map (fun dep => dep.error?.isSome) == [false, false, true])
    (by decide +kernel)
  have hverdict := ((verdict_reordered hfs hre).1 r path rfl).2 deps deps' hdeps hdeps'
  have hlisted : (Command.run ⟨fs, [], false⟩ arguments).status = 1 := by decide +kernel
  have hsame := (verdict_reordered hfs hre).2 ⟨fs, [], false⟩ arguments
    { Options.initial with deps := true, maxDepth := 1, files := [path] } rfl rfl rfl
    (List.forall_mem_singleton.mpr hshallow)
  exact ⟨deps, deps', hfs, hre, rfl, hshallow, hdeps, hdeps', eq_of_beq hbefore, eq_of_beq hafter,
    hverdict.2.2 hshallow, hlisted, hsame.symm.trans hlisted⟩

/-- A file that includes the files of one letter each. -/
def includingEach (letters : List UInt8) : Text :=
  letters.flatMap fun b => Text.ofString "#include \"" ++ [b] ++ Text.ofString "\"\n"

/-- A root with the given includes, above a chain of 62 files of which each includes the next, and the
last a file `o` that includes `p`. No file is called by a backslash. -/
def chainBelow (letters : List UInt8) : FileSystem :=
  ⟨Path.root, fun path =>
    match path with
    | [slash, b] =>
      if slash ≠ Byte.slash then .absent .noSuchFile
      else if b = 114 then .file (includingEach letters)
      else if b = 112 then .file []
      else if 48 ≤ b ∧ b < 112 then .file (includingEach [if b = 91 then 93 else b + 1])
      else .absent .noSuchFile
    | _ => .absent .noSuchFile⟩

/-- If the root includes `o` before the chain, all is well, for `o` was walked when the chain comes to
it. If it includes the chain first, `o` is the 64th file that is open, and what it includes is too
nested. -/
theorem verdict_depends_on_order :
    let fs := chainBelow [111, 48]
    let fs' := fs.overwrite (Text.ofString "/r") (includingEach [48, 111])
    let r := Resolver.start [] [] defaultLevels
    let arguments := [Text.ofString "--deps", Text.ofString "r"]
    (fs.Rooted ∧ fs.Reorders r.levels fs') ∧
      (∃ deps, r.walk fs (Text.ofString "r") = .ok deps ∧ ∀ dep ∈ deps, dep.error? = none) ∧
      (∃ deps, r.walk fs' (Text.ofString "r") = .ok deps ∧ ∃ dep ∈ deps, dep.error? ≠ none) ∧
      (Command.run ⟨fs, [], false⟩ arguments).status = 0 ∧
      (Command.run ⟨fs', [], false⟩ arguments).status = 1 := by
  intro fs fs' r arguments
  have hre : fs.Reorders r.levels fs' := by
    refine .overwrite rfl (.swap (Text.ofString "\"o\"") (Text.ofString "\"0\"") ?_ ?_)
    · rfl
    · rfl
  have hsucceeds : (Command.run ⟨fs, [], false⟩ arguments).status = 0 := by decide +kernel
  have hfails : (Command.run ⟨fs', [], false⟩ arguments).status = 1 := by decide +kernel
  have hflags : { Options.initial with deps := true }.Asks [Text.ofString "--deps"] :=
    ⟨by rfl, rfl, rfl, rfl, ⟨.sexp, by decide⟩, by decide⟩
  have hclosed : ∀ files : FileSystem, (Command.run ⟨files, [], false⟩ arguments).status = 0 ↔
      r.Closed files (Text.ofString "r") := fun files =>
    (Command.status_deps hflags rfl (by decide) (by decide) ⟨files, [], false⟩).trans (by simp; rfl)
  have hclean : r.Closed fs (Text.ofString "r") := (hclosed fs).mp hsucceeds
  obtain ⟨deps', hdeps'⟩ := (Resolver.exists_walk_reorders hre _).mp
    ⟨hclean.choose, hclean.choose_spec.1⟩
  refine ⟨⟨rfl, hre⟩, hclean, ⟨deps', hdeps', ?_⟩, hsucceeds, hfails⟩
  by_contra! hnone
  rw [(hclosed fs').mpr ⟨deps', hdeps', hnone⟩] at hfails
  cases hfails

end ShaderSyntax
