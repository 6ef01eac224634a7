import Mathlib.Data.List.Chain
import ShaderSyntax.Proofs.Reaching

/-!
# Cycles of includes

A walk reports a cycle where an include leads back to a file that is open. The open files lie on a
path of the include graph, so what is reported is a cycle. And none is missed: once a file is closed
and no cycle was reported, no chain of includes goes on for ever from it, and that stays so however
often it is passed over later.
-/
namespace ShaderSyntax

/-- The include leads back to a file that is open. -/
def IncludeError.isCycle : IncludeError → Bool
  | cycle .. => true
  | _ => false

namespace Resolver

variable {r : Resolver} {fs : FileSystem} {stack visited fresh : List Text} {root file : Text}
  {includes : List (Text × Nat)} {deps : List Dependency}

/-- The dependency closes a cycle: its include leads from the innermost of the open files back to one
of them, and the others after that one lie between. -/
structure Closes (r : Resolver) (fs : FileSystem) (root : Text) (dep : Dependency) (path : Text)
    (stack : List Text) : Prop where
  head : stack.head? = some root
  chain : stack.IsChain (r.Leads fs)
  last : stack.getLast? = some dep.includer
  written : (dep.path, dep.line) ∈ r.includesOf fs dep.includer
  resolve : r.resolve fs dep.path dep.includer = .ok path
  resolved : dep.resolved = path
  cycle : ∃ before more, stack = before ++ path :: more ∧ path ∉ before ∧
    (path :: more ++ [path]).IsChain (r.Leads fs)

/-- The part of a path from one of its files on is a cycle, if the last file leads to that file. -/
theorem exists_cycle {path : Text} (hchain : stack.IsChain (r.Leads fs))
    (hlast : stack.getLast? = some file) (hpath : path ∈ stack) (hedge : r.Leads fs file path) :
    ∃ before more, stack = before ++ path :: more ∧ path ∉ before ∧
      (path :: more ++ [path]).IsChain (r.Leads fs) := by
  obtain ⟨before, more, rfl, hbefore⟩ := List.eq_append_cons_of_mem hpath
  refine ⟨before, more, rfl, hbefore, List.isChain_append.mpr ⟨hchain.right_of_append, ?_, ?_⟩⟩
  · simp
  · intro f hf g hg
    rw [List.getLast?_append_of_ne_nil _ (List.cons_ne_nil path more)] at hlast
    obtain rfl := Option.some.inj (hlast.symm.trans hf)
    obtain rfl : path = g := by simpa using hg
    exact hedge

/-- Every cycle that is reported is one, through the files open at that moment. -/
theorem Follows.closes (hfs : fs.Rooted)
    (h : r.Follows fs stack file visited includes deps fresh)
    (hsub : ∀ i ∈ includes, i ∈ r.includesOf fs file) (hhead : stack.head? = some root)
    (hchain : stack.IsChain (r.Leads fs)) (hlast : stack.getLast? = some file) :
    ∀ dep ∈ deps, ∀ path open', dep.error? = some (.cycle path open') →
      r.Closes fs root dep path open' := by
  induction h with
  | nil => simp
  | @stop stack file visited path line rest resolved error? deps fresh hs h ih =>
    intro dep hdep p s hcycle
    rcases List.mem_cons.mp hdep with rfl | hdep
    · have hwritten := hsub (path, line) List.mem_cons_self
      cases hs with
      | unresolved hr =>
        obtain rfl := Option.some.inj hcycle
        cases isUnresolved_of_resolve hr
      | refused hr ho =>
        obtain rfl := Option.some.inj hcycle
        rcases open?_eq_error_iff.mp ho with ⟨hmem, he⟩ | ⟨-, -, he⟩
        · cases he
          rw [absolute_of_resolve hfs hr] at hmem ⊢
          have hedge : r.Leads fs file resolved := leads_iff.mpr ⟨_, hwritten, hr⟩
          exact ⟨hhead, hchain, hlast, hwritten, hr, rfl, exists_cycle hchain hlast hmem hedge⟩
        · cases he
      | known hr ho hv => cases hcycle
    · exact ih (fun i hi => hsub i (by simp [hi])) hhead hchain hlast dep hdep p s hcycle
  | @enter stack file visited path line rest target inner below deps new fresh hr ho hv hb h ihb
      ih =>
    intro dep hdep p s hcycle
    rcases List.mem_cons.mp hdep with rfl | hdep
    · rcases failure?_eq_some hcycle with ⟨e, he⟩ | ⟨limit, he⟩ <;> cases he
    · rcases List.mem_append.mp hdep with hdep | hdep
      · have hedge : r.Leads fs file target :=
          leads_iff.mpr ⟨_, hsub (path, line) List.mem_cons_self, hr⟩
        obtain ⟨-, -, rfl⟩ := open?_eq_ok_iff.mp ho
        rw [absolute_of_resolve hfs hr] at ihb
        refine ihb (fun i hi => hi) ?_ ?_ List.getLast?_concat dep hdep p s hcycle
        · rw [List.head?_append, hhead, Option.some_or]
        · refine List.isChain_append.mpr ⟨hchain, by simp, ?_⟩
          intro f hf g hg
          obtain rfl := Option.some.inj (hlast.symm.trans hf)
          obtain rfl : target = g := by simpa using hg
          exact hedge
      · exact ih (fun i hi => hsub i (by simp [hi])) hhead hchain hlast dep hdep p s hcycle

/-- Every file on a path is reached from its head. -/
theorem reaches_of_mem (hchain : stack.IsChain (r.Leads fs)) (hhead : stack.head? = some root) :
    ∀ f ∈ stack, r.Reaches fs root f := by
  refine List.IsChain.induction (fun f => r.Reaches fs root f) stack hchain ?_ ?_
  · exact fun _ _ hedge hreach => hreach.tail hedge
  · intro hne
    rw [List.head?_eq_some_head hne] at hhead
    rw [Option.some.inj hhead]

/-- A cycle that is reported is reached from the root. -/
theorem Closes.transGen {dep : Dependency} {path : Text} (h : r.Closes fs root dep path stack) :
    r.Reaches fs root path ∧ Relation.TransGen (r.Leads fs) path path := by
  obtain ⟨before, more, hstack, -, hcycle⟩ := h.cycle
  refine ⟨reaches_of_mem h.chain h.head path (by simp [hstack]), ?_⟩
  have hback : r.Reaches fs path dep.includer := by
    refine reaches_of_mem (hcycle.left_of_append) rfl dep.includer ?_
    have hlast := h.last
    rw [hstack, List.getLast?_append_of_ne_nil _ (List.cons_ne_nil path more)] at hlast
    exact List.mem_of_getLast? hlast
  exact .tail' hback (leads_iff.mpr ⟨_, h.written, h.resolve⟩)

/-- No chain of includes goes on for ever from the file. -/
abbrev Terminates (r : Resolver) (fs : FileSystem) (file : Text) : Prop :=
  Acc (fun target file => r.Leads fs file target) file

theorem Terminates.of_reaches (h : r.Terminates fs root) (hreach : r.Reaches fs root file) :
    r.Terminates fs file := by
  induction hreach with
  | refl => exact h
  | tail _ hedge ih => exact ih.inv hedge

/-- A file on a cycle can be followed for ever. -/
theorem Terminates.not_cycle (h : r.Terminates fs file) :
    ¬Relation.TransGen (r.Leads fs) file file := by
  induction h with
  | intro file _ ih =>
    intro hcycle
    obtain ⟨next, hedge, hback⟩ := Relation.TransGen.head'_iff.mp hcycle
    exact ih next hedge (.tail' hback hedge)

/-- Where nothing kept the walk from an include, the files gone into terminate, and so do the meanings
of the includes, provided that every file visited before and closed does. -/
theorem Follows.terminates (hfs : fs.Rooted)
    (h : r.Follows fs stack file visited includes deps fresh)
    (hclosed : ∀ f ∈ visited, f ∉ stack → r.Terminates fs f)
    (hclean : ∀ dep ∈ deps, ∀ e ∈ dep.error?, e.isTooNested = false ∧ e.isCycle = false) :
    (∀ f ∈ fresh, r.Terminates fs f) ∧
      ∀ i ∈ includes, ∀ target, r.resolve fs i.1 file = .ok target → r.Terminates fs target := by
  induction h with
  | nil => simp
  | @stop stack file visited path line rest resolved error? deps fresh hs h ih =>
    obtain ⟨hfresh, hrest⟩ := ih hclosed fun dep hdep => hclean dep (by simp [hdep])
    refine ⟨hfresh, ?_⟩
    intro i hi target ht
    rcases List.mem_cons.mp hi with rfl | hi
    · cases hs with
      | unresolved hr => cases hr.symm.trans ht
      | @refused _ e hr ho =>
        obtain ⟨hnested, hcycle⟩ := hclean _ List.mem_cons_self e rfl
        rcases open?_eq_error_iff.mp ho with ⟨-, rfl⟩ | ⟨-, -, rfl⟩
        · cases hcycle
        · cases hnested
      | known hr ho hv =>
        cases hr.symm.trans ht
        obtain ⟨hout, -, -⟩ := open?_eq_ok_iff.mp ho
        rw [absolute_of_resolve hfs hr] at hout
        exact hclosed _ hv hout
    · exact hrest i hi target ht
  | @enter stack file visited path line rest target inner below deps new fresh hr ho hv hb h ihb
      ih =>
    obtain ⟨hout, -, rfl⟩ := open?_eq_ok_iff.mp ho
    rw [absolute_of_resolve hfs hr] at hout ihb
    obtain ⟨hnew, hincludes⟩ := ihb (by
        intro f hf hout
        simp only [List.mem_cons, List.mem_append, List.not_mem_nil, or_false, not_or] at hf hout
        exact hclosed f (hf.resolve_left hout.2) hout.1)
      fun dep hdep => hclean dep (by simp [hdep])
    have htarget : r.Terminates fs target := by
      refine .intro target fun next hedge => ?_
      obtain ⟨i, hi, hres⟩ := leads_iff.mp hedge
      exact hincludes i hi next hres
    obtain ⟨hfresh, hrest⟩ := ih (by
        intro f hf hout
        simp only [List.mem_append, List.mem_reverse, List.mem_cons] at hf
        rcases hf with hf | rfl | hf
        · exact hnew f hf
        · exact htarget
        · exact hclosed f hf hout)
      fun dep hdep => hclean dep (by simp [hdep])
    constructor
    · intro f hf
      simp only [List.mem_cons, List.mem_append] at hf
      rcases hf with rfl | hf | hf
      · exact htarget
      · exact hnew f hf
      · exact hfresh f hf
    · intro i hi t ht
      rcases List.mem_cons.mp hi with rfl | hi
      · cases hr.symm.trans ht
        exact htarget
      · exact hrest i hi t ht

end Resolver

/-- From no open files, a walk that meets no limit on them reports a cycle if and only if one can be
reached, and whatever it reports as a cycle is one, closed by the include that it reports it at. -/
theorem cycles_reported {r : Resolver} {fs : FileSystem} {path : Text} {deps : List Dependency}
    (hfs : fs.Rooted) (hstack : r.stack = []) (h : r.walk fs path = .ok deps) :
    ((∀ dep ∈ deps, ∀ e ∈ dep.error?, e.isTooNested = false) →
      ((∃ dep ∈ deps, ∃ e ∈ dep.error?, e.isCycle = true) ↔
        ∃ file, r.Reaches fs (fs.absolute path) file ∧
          Relation.TransGen (r.Leads fs) file file)) ∧
      ∀ dep ∈ deps, ∀ file stack, dep.error? = some (.cycle file stack) →
        r.Closes fs (fs.absolute path) dep file stack := by
  obtain ⟨stack, fresh, ho, -, -, hf⟩ := Resolver.walk_eq_ok h
  obtain ⟨-, -, rfl⟩ := Resolver.open?_eq_ok_iff.mp ho
  rw [hstack, hfs.absolute_absolute, List.nil_append] at hf
  have hcloses := hf.closes hfs (fun i hi => hi) rfl (List.isChain_singleton _) rfl
  refine ⟨fun hdepth => ⟨?_, ?_⟩, hcloses⟩
  · rintro ⟨dep, hdep, e, he, hcycle⟩
    cases e with
    | cycle file open' => exact ⟨file, (hcloses dep hdep file open' he).transGen⟩
    | _ => cases hcycle
  · rintro ⟨file, hreach, hcycle⟩
    by_contra hnone
    have hclean : ∀ dep ∈ deps, ∀ e ∈ dep.error?, e.isTooNested = false ∧ e.isCycle = false := by
      intro dep hdep e he
      refine ⟨hdepth dep hdep e he, ?_⟩
      rw [← Bool.not_eq_true]
      exact fun hc => hnone ⟨dep, hdep, e, he, hc⟩
    obtain ⟨-, hincludes⟩ := hf.terminates hfs (by simp) hclean
    have hroot : r.Terminates fs (fs.absolute path) := by
      refine .intro _ fun next hedge => ?_
      obtain ⟨i, hi, hr⟩ := Resolver.leads_iff.mp hedge
      exact hincludes i hi next hr
    exact (hroot.of_reaches hreach).not_cycle hcycle

/-- Two files that include each other, below a file from which there is a way to both. -/
theorem cycles_reported_mutual :
    let fs : FileSystem := ⟨Text.ofString "/w", fun path =>
      if path = Text.ofString "/w/main" then
        .file (Text.ofString "#include \"a\"\n#include \"b\"")
      else if path = Text.ofString "/w/a" then .file (Text.ofString "#include \"b\"")
      else if path = Text.ofString "/w/b" then .file (Text.ofString "#include \"../w/a\"")
      else .absent .noSuchFile⟩
    let r := Resolver.start [] [] 1
    let path := Text.ofString "main"
    let file := Text.ofString "/w/a"
    let stack := [Text.ofString "/w/main", file, Text.ofString "/w/b"]
    ∃ deps dep, fs.Rooted ∧ r.stack = [] ∧ r.walk fs path = .ok deps ∧
      (∀ dep ∈ deps, ∀ e ∈ dep.error?, e.isTooNested = false) ∧
      (dep ∈ deps ∧ dep.error? = some (.cycle file stack)) ∧
      r.Closes fs (fs.absolute path) dep file stack ∧
      ∃ file, r.Reaches fs (fs.absolute path) file ∧
        Relation.TransGen (r.Leads fs) file file := by
  intro fs r path file stack
  have hwalk : ((r.walk fs path).toOption.any fun deps =>
      deps.all (fun dep => dep.error?.all fun e => !e.isTooNested) &&
        deps.any fun dep => match dep.error? with
          | some (.cycle file' stack') => file' == file && stack' == stack
          | _ => false) = true := by decide +kernel
  cases hdeps : r.walk fs path with
  | error e => simp [hdeps, Except.toOption] at hwalk
  | ok deps =>
    rw [hdeps] at hwalk
    obtain ⟨hall, hany⟩ := Bool.and_eq_true_iff.mp hwalk
    have hdepth : ∀ dep ∈ deps, ∀ e ∈ dep.error?, e.isTooNested = false := by
      simpa [Option.all_eq_true] using hall
    obtain ⟨dep, hdep, hmatch⟩ := List.any_eq_true.mp hany
    split at hmatch
    · next file' stack' he =>
      obtain ⟨hfile, hstack⟩ := Bool.and_eq_true_iff.mp hmatch
      rw [eq_of_beq hfile, eq_of_beq hstack] at he
      have hfs : fs.Rooted := rfl
      obtain ⟨hiff, hcloses⟩ := cycles_reported hfs rfl hdeps
      exact ⟨deps, dep, hfs, rfl, rfl, hdepth, ⟨hdep, he⟩, hcloses dep hdep file stack he,
        (hiff hdepth).mp ⟨dep, hdep, _, he, rfl⟩⟩
    · cases hmatch

end ShaderSyntax
