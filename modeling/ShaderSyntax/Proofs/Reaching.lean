import Mathlib.Data.List.Forall2
import ShaderSyntax.Proofs.Touring

/-!
# What a walk reaches

A walk goes into exactly the files that are reached along includes, and into each of them once. Of
every file that can be read and parsed it reports every include, in source order. Only the limit on
open files may keep it from a file, and then it says so.
-/
namespace ShaderSyntax

/-- The include is wrong by itself: what it says means no file. -/
def IncludeError.isUnresolved : IncludeError → Bool
  | noProjectRoot _ | notFound .. => true
  | _ => false

/-- The include was not followed because too many files were open. -/
def IncludeError.isTooNested : IncludeError → Bool
  | tooNested _ => true
  | _ => false

namespace Resolver

variable {r : Resolver} {fs : FileSystem} {stack visited fresh : List Text} {file : Text}
  {includes : List (Text × Nat)} {deps : List Dependency}

/-- The dependency is about the include of the file: it says where that stands, how it is written, and
what it means. -/
structure Reports (r : Resolver) (fs : FileSystem) (file : Text) (i : Text × Nat)
    (dep : Dependency) : Prop where
  includer : dep.includer = file
  path : dep.path = i.1
  line : dep.line = i.2
  found : ∀ target, r.resolve fs i.1 file = .ok target →
    dep.resolved = target ∧ ∀ e ∈ dep.error?, e.isUnresolved = false
  missed : ∀ e, r.resolve fs i.1 file = .error e → dep.resolved = [] ∧ dep.error? = some e

/-- The dependencies about the includes of a file. -/
def about (deps : List Dependency) (file : Text) : List Dependency :=
  deps.filter fun dep => dep.includer = file

theorem about_cons (dep : Dependency) (deps : List Dependency) :
    about (dep :: deps) file =
      if dep.includer = file then dep :: about deps file else about deps file := by
  simp [about, List.filter_cons]

theorem about_append (xs ys : List Dependency) :
    about (xs ++ ys) file = about xs file ++ about ys file :=
  List.filter_append ..

theorem about_eq_nil (h : ∀ dep ∈ deps, dep.includer ≠ file) : about deps file = [] := by
  simpa [about, List.filter_eq_nil_iff] using h

theorem isUnresolved_of_resolve {path : Text} {e : IncludeError}
    (h : r.resolve fs path file = .error e) : e.isUnresolved = true := by
  unfold resolve at h
  split at h
  · next e' hc =>
    cases h
    unfold candidates at hc
    split at hc
    · split at hc
      · cases hc
        rfl
      · cases hc
    · split at hc <;> cases hc
  · split at h
    · cases h
    · cases h
      rfl

theorem isUnresolved_of_open? {target : Text} {e : IncludeError}
    (h : open? fs stack target = .error e) : e.isUnresolved = false := by
  rcases open?_eq_error_iff.mp h with ⟨-, rfl⟩ | ⟨-, -, rfl⟩ <;> rfl

theorem isUnresolved_of_failure? {e : IncludeError} (h : r.failure? fs file = some e) :
    e.isUnresolved = false := by
  rcases failure?_eq_some h with ⟨e', rfl⟩ | ⟨limit, rfl⟩ <;> rfl

theorem Stops.reports {path resolved : Text} {error? : Option IncludeError}
    (h : r.Stops fs stack visited file path resolved error?) (line : Nat) :
    r.Reports fs file (path, line) ⟨file, line, path, resolved, error?⟩ := by
  refine ⟨rfl, rfl, rfl, ?_, ?_⟩
  · intro target ht
    cases h with
    | unresolved hr => cases hr.symm.trans ht
    | refused hr ho =>
      cases hr.symm.trans ht
      exact ⟨rfl, by simpa using isUnresolved_of_open? ho⟩
    | known hr ho hv =>
      cases hr.symm.trans ht
      exact ⟨rfl, by simp⟩
  · intro e he
    cases h with
    | unresolved hr =>
      cases hr.symm.trans he
      exact ⟨rfl, rfl⟩
    | refused hr ho => cases hr.symm.trans he
    | known hr ho hv => cases hr.symm.trans he

theorem reports_target {path target : Text} (h : r.resolve fs path file = .ok target)
    (line : Nat) : r.Reports fs file (path, line)
      ⟨file, line, path, target, r.failure? fs target⟩ := by
  refine ⟨rfl, rfl, rfl, ?_, ?_⟩
  · intro target' ht
    cases h.symm.trans ht
    exact ⟨rfl, fun e he => isUnresolved_of_failure? he⟩
  · intro e he
    cases h.symm.trans he

/-- The files gone into are new, and none is gone into twice. -/
theorem Follows.fresh_nodup (h : r.Follows fs stack file visited includes deps fresh) :
    fresh.Nodup ∧ ∀ f ∈ fresh, f ∉ visited := by
  induction h with
  | nil => simp
  | stop hs h ih => exact ih
  | @enter stack file visited path line rest target inner below deps new fresh hr ho hv hb h ihb
      ih =>
    obtain ⟨hnew, hnew'⟩ := ihb
    obtain ⟨hfresh, hfresh'⟩ := ih
    have hdisjoint : ∀ f ∈ new, f ∉ fresh := by
      intro f hf hf'
      exact hfresh' f hf' (by simp [hf])
    refine ⟨List.nodup_cons.mpr ⟨?_, List.nodup_append.mpr ⟨hnew, hfresh, ?_⟩⟩, ?_⟩
    · intro hm
      rcases List.mem_append.mp hm with hm | hm
      · exact hnew' target hm List.mem_cons_self
      · exact hfresh' target hm (by simp)
    · rintro f hf g hg rfl
      exact hdisjoint f hf hg
    · intro f hf hf'
      rcases List.mem_cons.mp hf with rfl | hf
      · exact hv hf'
      · rcases List.mem_append.mp hf with hf | hf
        · exact hnew' f hf (List.mem_cons_of_mem target hf')
        · exact hfresh' f hf (by simp [hf'])

/-- Dependencies are about the file itself and the files gone into. -/
theorem Follows.includer_mem (h : r.Follows fs stack file visited includes deps fresh) :
    ∀ dep ∈ deps, dep.includer ∈ file :: fresh := by
  induction h with
  | nil => simp
  | stop hs h ih =>
    intro dep hdep
    rcases List.mem_cons.mp hdep with rfl | hdep
    · exact List.mem_cons_self
    · exact ih dep hdep
  | enter hr ho hv hb h ihb ih =>
    intro dep hdep
    rcases List.mem_cons.mp hdep with rfl | hdep
    · exact List.mem_cons_self
    · rcases List.mem_append.mp hdep with hdep | hdep
      · have := ihb dep hdep
        simp only [List.mem_cons, List.mem_append] at this ⊢
        grind
      · have := ih dep hdep
        simp only [List.mem_cons, List.mem_append] at this ⊢
        grind

/-- There is no dependency about any other file. -/
theorem Follows.about_eq_nil (h : r.Follows fs stack file visited includes deps fresh) {f : Text}
    (hself : f ≠ file) (hfresh : f ∉ fresh) : about deps f = [] := by
  refine Resolver.about_eq_nil fun dep hdep he => ?_
  rcases List.mem_cons.mp (h.includer_mem dep hdep) with hd | hd
  · exact hself (he ▸ hd)
  · exact hfresh (he ▸ hd)

/-- Of the file itself the includes given are reported, and of each file gone into all includes. -/
theorem Follows.reports (h : r.Follows fs stack file visited includes deps fresh)
    (hfile : file ∈ visited) :
    List.Forall₂ (r.Reports fs file) includes (about deps file) ∧
      ∀ f ∈ fresh, List.Forall₂ (r.Reports fs f) (r.includesOf fs f) (about deps f) := by
  induction h with
  | nil => exact ⟨.nil, by simp⟩
  | @stop stack file visited path line rest resolved error? deps fresh hs h ih =>
    obtain ⟨hself, hfresh⟩ := ih hfile
    constructor
    · rw [about_cons, if_pos rfl]
      exact .cons (hs.reports line) hself
    · intro f hf
      have hne : file ≠ f := fun he => h.fresh_nodup.2 f hf (he ▸ hfile)
      rw [about_cons, if_neg hne]
      exact hfresh f hf
  | @enter stack file visited path line rest target inner below deps new fresh hr ho hv hb h ihb
      ih =>
    obtain ⟨htarget, hnew⟩ := ihb List.mem_cons_self
    obtain ⟨hself, hfresh⟩ := ih (by simp [hfile])
    have hne : file ≠ target := fun he => hv (he ▸ hfile)
    have hnewDistinct := hb.fresh_nodup.2
    have hfreshDistinct := h.fresh_nodup.2
    -- What lies below is about the target and new files only, and what follows about none of them.
    constructor
    · have hfn : file ∉ new := fun hm => hnewDistinct file hm (List.mem_cons_of_mem _ hfile)
      rw [about_cons, if_pos rfl, about_append, hb.about_eq_nil hne hfn]
      exact .cons (reports_target hr line) hself
    · intro f hf
      rcases List.mem_cons.mp hf with rfl | hf
      · have hfn : f ∉ fresh := fun hm => hfreshDistinct f hm (by simp)
        rw [about_cons, if_neg hne, about_append, h.about_eq_nil hne.symm hfn, List.append_nil]
        exact htarget
      · rcases List.mem_append.mp hf with hf | hf
        · have hff : f ≠ file :=
            fun he => hnewDistinct f hf (he ▸ List.mem_cons_of_mem _ hfile)
          have hfn : f ∉ fresh := fun hm => hfreshDistinct f hm (by simp [hf])
          rw [about_cons, if_neg hff.symm, about_append, h.about_eq_nil hff hfn, List.append_nil]
          exact hnew f hf
        · have hff : f ≠ file := fun he => hfreshDistinct f hf (by simp [he, hfile])
          have hft : f ≠ target := fun he => hfreshDistinct f hf (by simp [he])
          have hfn : f ∉ new := fun hm => hfreshDistinct f hf (by simp [hm])
          rw [about_cons, if_neg hff.symm, about_append, hb.about_eq_nil hft hfn]
          exact hfresh f hf

/-- The files gone into are reached from the file, and are the meanings of dependencies. -/
theorem Follows.reaches (h : r.Follows fs stack file visited includes deps fresh)
    (hsub : ∀ i ∈ includes, i ∈ r.includesOf fs file) :
    ∀ f ∈ fresh, r.Reaches fs file f ∧ ∃ dep ∈ deps, dep.resolved = f := by
  induction h with
  | nil => simp
  | stop hs h ih =>
    intro f hf
    obtain ⟨hreach, dep, hdep, hres⟩ := ih (fun i hi => hsub i (by simp [hi])) f hf
    exact ⟨hreach, dep, List.mem_cons_of_mem _ hdep, hres⟩
  | @enter stack file visited path line rest target inner below deps new fresh hr ho hv hb h ihb
      ih =>
    have hedge : r.Leads fs file target := leads_iff.mpr ⟨_, hsub (path, line) (by simp), hr⟩
    intro f hf
    rcases List.mem_cons.mp hf with rfl | hf
    · exact ⟨.single hedge, _, List.mem_cons_self, rfl⟩
    · rcases List.mem_append.mp hf with hf | hf
      · obtain ⟨hreach, dep, hdep, hres⟩ := ihb (fun i hi => hi) f hf
        exact ⟨.head hedge hreach, dep, by simp [hdep], hres⟩
      · obtain ⟨hreach, dep, hdep, hres⟩ := ih (fun i hi => hsub i (by simp [hi])) f hf
        exact ⟨hreach, dep, by simp [hdep], hres⟩

/-- Unless too many files were open, what an include means was visited before or is gone into. -/
theorem Follows.resolved_mem (hfs : fs.Rooted)
    (h : r.Follows fs stack file visited includes deps fresh) (hstack : stack ⊆ visited)
    (hdepth : ∀ dep ∈ deps, ∀ e ∈ dep.error?, e.isTooNested = false) :
    ∀ dep ∈ deps, dep.resolved ≠ [] → dep.resolved ∈ visited ∨ dep.resolved ∈ fresh := by
  induction h with
  | nil => simp
  | @stop stack file visited path line rest resolved error? deps fresh hs h ih =>
    intro dep hdep hne
    rcases List.mem_cons.mp hdep with rfl | hdep
    · cases hs with
      | unresolved hr => exact absurd rfl hne
      | @refused target e hr ho =>
        have hd := hdepth _ List.mem_cons_self e rfl
        rcases open?_eq_error_iff.mp ho with ⟨hmem, -⟩ | ⟨-, -, rfl⟩
        · rw [absolute_of_resolve hfs hr] at hmem
          exact .inl (hstack hmem)
        · cases hd
      | known hr ho hv => exact .inl hv
    · exact ih hstack (fun d hd => hdepth d (by simp [hd])) dep hdep hne
  | @enter stack file visited path line rest target inner below deps new fresh hr ho hv hb h ihb
      ih =>
    have hinner : inner ⊆ target :: visited := by
      obtain ⟨-, -, rfl⟩ := open?_eq_ok_iff.mp ho
      rw [absolute_of_resolve hfs hr]
      intro f hf
      rcases List.mem_append.mp hf with hf | hf
      · exact List.mem_cons_of_mem _ (hstack hf)
      · exact List.mem_cons.mpr (.inl (List.mem_singleton.mp hf))
    have houter : stack ⊆ new.reverse ++ target :: visited :=
      fun f hf => by simp [hstack hf]
    intro dep hdep hne
    rcases List.mem_cons.mp hdep with rfl | hdep
    · exact .inr List.mem_cons_self
    · rcases List.mem_append.mp hdep with hdep | hdep
      · have := ihb hinner (fun d hd => hdepth d (by simp [hd])) dep hdep hne
        simp only [List.mem_cons, List.mem_append] at this ⊢
        grind
      · have := ih houter (fun d hd => hdepth d (by simp [hd])) dep hdep hne
        simp only [List.mem_cons, List.mem_append, List.mem_reverse] at this ⊢
        grind

/-- What there is to a walk that no limit kept from a file. -/
structure Complete (r : Resolver) (fs : FileSystem) (root : Text) (deps : List Dependency)
    (reads : List Text) : Prop where
  /-- The root and what the includes mean are the files reached from the root. -/
  mem_iff : ∀ file, (file = root ∨ file ≠ [] ∧ ∃ dep ∈ deps, dep.resolved = file) ↔
    r.Reaches fs root file
  /-- Every include of a file reached is reported once, in source order. -/
  reports : ∀ file d, r.Reaches fs root file → r.load fs file = .ok d →
    List.Forall₂ (r.Reports fs file) d.includes (about deps file)
  /-- Every file reached is read once. -/
  reads_iff : ∀ file, file ∈ reads ↔ r.Reaches fs root file
  reads_nodup : reads.Nodup

/-- What is on the left of two lists in step has a partner on the right. -/
theorem exists_partner {α β : Type} {R : α → β → Prop} {as : List α} {bs : List β} {a : α}
    (h : List.Forall₂ R as bs) (ha : a ∈ as) : ∃ b ∈ bs, R a b := by
  induction h with
  | nil => cases ha
  | cons hab h ih =>
    rcases List.mem_cons.mp ha with rfl | ha
    · exact ⟨_, List.mem_cons_self, hab⟩
    · obtain ⟨b, hb, hr⟩ := ih ha
      exact ⟨b, List.mem_cons_of_mem _ hb, hr⟩

/-- From the root, all includes of every file gone into are reported. -/
theorem Follows.reports_root {root : Text}
    (h : r.Follows fs stack root [root] (r.includesOf fs root) deps fresh) :
    ∀ f ∈ root :: fresh, List.Forall₂ (r.Reports fs f) (r.includesOf fs f) (about deps f) := by
  obtain ⟨hself, hfresh⟩ := h.reports List.mem_cons_self
  intro f hf
  rcases List.mem_cons.mp hf with rfl | hf
  · exact hself
  · exact hfresh f hf

/-- What a dependency means is an edge from the file that it is about. -/
theorem Follows.leads {root : Text}
    (h : r.Follows fs stack root [root] (r.includesOf fs root) deps fresh) {dep : Dependency}
    (hdep : dep ∈ deps) (hne : dep.resolved ≠ []) : r.Leads fs dep.includer dep.resolved := by
  have habout : dep ∈ about deps dep.includer := List.mem_filter.mpr ⟨hdep, by simp⟩
  obtain ⟨i, hi, hrep⟩ :=
    exists_partner (h.reports_root _ (h.includer_mem dep hdep)).flip habout
  refine leads_iff.mpr ⟨i, hi, ?_⟩
  cases hr : r.resolve fs i.1 dep.includer with
  | error e => exact absurd (hrep.missed e hr).1 hne
  | ok target => rw [(hrep.found target hr).1]

/-- The files gone into from the root are all that are reached from it. -/
theorem Follows.mem_iff_reaches (hfs : fs.Rooted) {root : Text}
    (h : r.Follows fs stack root [root] (r.includesOf fs root) deps fresh)
    (hstack : stack ⊆ [root]) (hdepth : ∀ dep ∈ deps, ∀ e ∈ dep.error?, e.isTooNested = false) :
    file ∈ root :: fresh ↔ r.Reaches fs root file := by
  constructor
  · intro hf
    rcases List.mem_cons.mp hf with rfl | hf
    · exact .refl
    · exact (h.reaches (fun i hi => hi) file hf).1
  · intro hreach
    induction hreach with
    | refl => exact List.mem_cons_self
    | @tail f target _ hedge ih =>
      obtain ⟨i, hi, hr⟩ := leads_iff.mp hedge
      obtain ⟨dep, hdep, hrep⟩ := exists_partner (h.reports_root f ih) hi
      have hres := (hrep.found target hr).1
      have hmem := h.resolved_mem hfs hstack hdepth dep (List.mem_of_mem_filter hdep)
        (hres ▸ ne_nil_of_resolve hfs hr)
      rw [hres] at hmem
      simpa using hmem

/-- No file reached has an empty path. -/
theorem ne_nil_of_reaches (hfs : fs.Rooted) {path : Text}
    (h : r.Reaches fs (fs.absolute path) file) : file ≠ [] := by
  cases h with
  | refl => exact hfs.absolute_ne_nil path
  | tail _ hedge =>
    obtain ⟨i, -, hr⟩ := leads_iff.mp hedge
    exact ne_nil_of_resolve hfs hr

end Resolver

/-- From no open files, a walk that meets no limit on them is complete: the files it tells of are those
reached along includes, it reports each of their includes, and it reads each of them once. -/
theorem walk_complete {r : Resolver} {fs : FileSystem} {path : Text} {deps : List Dependency}
    (hfs : fs.Rooted) (hstack : r.stack = []) (h : r.walk fs path = .ok deps)
    (hdepth : ∀ dep ∈ deps, ∀ e ∈ dep.error?, e.isTooNested = false) :
    (r.tour fs path).1 = r.walk fs path ∧
      r.Complete fs (fs.absolute path) deps (r.tour fs path).2.reads := by
  obtain ⟨stack, fresh, ho, -, hwithin, hf⟩ := Resolver.walk_eq_ok h
  have hroot : stack ⊆ [fs.absolute path] := by
    obtain ⟨-, -, rfl⟩ := Resolver.open?_eq_ok_iff.mp ho
    simp [hstack, hfs.absolute_absolute]
  have horderly : Orderly r.stack := hstack ▸ orderly_nil
  have hreaches : ∀ file, file ∈ fs.absolute path :: fresh ↔ r.Reaches fs (fs.absolute path) file :=
    fun file => hf.mem_iff_reaches hfs hroot hdepth
  have hreads : (r.tour fs path).2.reads = fs.absolute path :: fresh := by
    obtain ⟨result, fresh', after, htour, hwithin', hgoes⟩ := Resolver.tour_goes horderly ho
    have hsame : fresh'.reverse = fresh.reverse := by
      rw [hwithin] at hwithin'
      exact (List.append_cancel_right (Prod.mk.inj hwithin').2).symm
    rw [htour, hgoes.reads, List.reverse_injective hsame]
    rfl
  refine ⟨(Resolver.tour_agrees fs horderly path).1, ?_, ?_, ?_, ?_⟩
  · intro file
    constructor
    · rintro (rfl | ⟨hne, dep, hdep, rfl⟩)
      · exact .refl
      · exact ((hreaches _).mp (hf.includer_mem dep hdep)).tail (hf.leads hdep hne)
    · intro hfile
      rcases List.mem_cons.mp ((hreaches file).mpr hfile) with rfl | hfresh
      · exact .inl rfl
      · obtain ⟨-, dep, hdep, rfl⟩ := hf.reaches (fun i hi => hi) file hfresh
        exact .inr ⟨Resolver.ne_nil_of_reaches hfs hfile, dep, hdep, rfl⟩
  · intro file d hfile hd
    rw [← Resolver.includesOf_of_load hd]
    exact hf.reports_root file ((hreaches file).mpr hfile)
  · intro file
    rw [hreads]
    exact hreaches file
  · obtain ⟨hnodup, hnew⟩ := hf.fresh_nodup
    rw [hreads]
    exact List.nodup_cons.mpr ⟨fun hm => hnew _ hm List.mem_cons_self, hnodup⟩

/-- A file that includes itself, one that is included twice, a cycle, a file that nests too deep and
one that does not exist. -/
theorem walk_complete_tangled :
    let fs : FileSystem := ⟨Text.ofString "/w", fun path =>
      if path = Text.ofString "/w/main" then
        .file (Text.ofString "#include \"a\"\n#include \"b\"\n#include \"none\"")
      else if path = Text.ofString "/w/a" then .file (Text.ofString "#include \"c\"")
      else if path = Text.ofString "/w/b" then
        .file (Text.ofString "#include \"./c\"\n#include \"b\"")
      else if path = Text.ofString "/w/c" then
        .file (Text.ofString "#include \"main\"\n#include \"deep\"")
      else if path = Text.ofString "/w/deep" then .file (Text.ofString "void f()\x7b\x7b\x7d\x7d")
      else .absent .noSuchFile⟩
    let r := Resolver.start [] [] 0
    let path := Text.ofString "main"
    ∃ deps, fs.Rooted ∧ r.stack = [] ∧ r.walk fs path = .ok deps ∧
      (∀ dep ∈ deps, ∀ e ∈ dep.error?, e.isTooNested = false) ∧
      deps.map (fun dep => (dep.includer, dep.resolved, dep.error?.isSome)) =
        [(Text.ofString "/w/main", Text.ofString "/w/a", false),
          (Text.ofString "/w/a", Text.ofString "/w/c", false),
          (Text.ofString "/w/c", Text.ofString "/w/main", true),
          (Text.ofString "/w/c", Text.ofString "/w/deep", true),
          (Text.ofString "/w/main", Text.ofString "/w/b", false),
          (Text.ofString "/w/b", Text.ofString "/w/c", false),
          (Text.ofString "/w/b", Text.ofString "/w/b", true),
          (Text.ofString "/w/main", [], true)] ∧
      r.Complete fs (fs.absolute path) deps (r.tour fs path).2.reads := by
  intro fs r path
  have hwalk : ((r.walk fs path).toOption.any fun deps =>
      deps.all (fun dep => dep.error?.all fun e => !e.isTooNested) &&
        deps.map (fun dep => (dep.includer, dep.resolved, dep.error?.isSome)) ==
        [(Text.ofString "/w/main", Text.ofString "/w/a", false),
          (Text.ofString "/w/a", Text.ofString "/w/c", false),
          (Text.ofString "/w/c", Text.ofString "/w/main", true),
          (Text.ofString "/w/c", Text.ofString "/w/deep", true),
          (Text.ofString "/w/main", Text.ofString "/w/b", false),
          (Text.ofString "/w/b", Text.ofString "/w/c", false),
          (Text.ofString "/w/b", Text.ofString "/w/b", true),
          (Text.ofString "/w/main", [], true)]) = true := by decide +kernel
  cases hdeps : r.walk fs path with
  | error e => simp [hdeps, Except.toOption] at hwalk
  | ok deps =>
    rw [hdeps] at hwalk
    obtain ⟨hdepth, hlist⟩ := Bool.and_eq_true_iff.mp hwalk
    have hdepth : ∀ dep ∈ deps, ∀ e ∈ dep.error?, e.isTooNested = false := by
      simpa [Option.all_eq_true] using hdepth
    have hfs : fs.Rooted := rfl
    exact ⟨deps, hfs, rfl, rfl, hdepth, eq_of_beq hlist, (walk_complete hfs rfl hdeps hdepth).2⟩

end ShaderSyntax
