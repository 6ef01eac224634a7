import ShaderSyntax.Proofs.Widths
import ShaderSyntax.Tree.Parent

/-!
# Owners are the trees that hold

No two trees of a document have the same kind and span, so a note about one is never taken for a
note about another. The owners noted for a document are those that a walk meets: every tree that is
no declaration stands once among the children of one tree, its owner, and from owner to owner one
comes to the declaration that contains it.
-/
namespace ShaderSyntax

section Subtrees

theorem Field.visits_eq (parent? : Option Tree) (fields : List Field) :
    Field.visits (fun _ => true) parent? fields =
      (fields.filterMap Field.tree?).flatMap fun t => t.visits (fun _ => true) parent? := by
  induction fields with
  | nil => rfl
  | cons f fields ih =>
    rcases f with ⟨label, w⟩ | ⟨label, t⟩
    · exact ih
    · exact congrArg (t.visits (fun _ => true) parent? ++ ·) ih

theorem Tree.visits_eq (t : Tree) (parent? : Option Tree) :
    t.visits (fun _ => true) parent? =
      ⟨parent?, t⟩ :: t.children.flatMap fun c => c.visits (fun _ => true) (some t) := by
  cases t with
  | leaf k s w => rfl
  | error s m => rfl
  | branch k s fields => simp [Tree.visits, Field.visits_eq, Tree.children, Tree.fields]

mutual

/-- What a tree has if its children have it, every tree has. -/
theorem Tree.of_children {P : Tree → Prop} (step : ∀ t : Tree, (∀ c ∈ t.children, P c) → P t) :
    ∀ t : Tree, P t
  | .leaf _ _ _ => step _ fun _ hc => absurd hc List.not_mem_nil
  | .error _ _ => step _ fun _ hc => absurd hc List.not_mem_nil
  | .branch _ _ fields => step _ (Field.of_children step fields)

theorem Field.of_children {P : Tree → Prop} (step : ∀ t : Tree, (∀ c ∈ t.children, P c) → P t) :
    ∀ fields : List Field, ∀ c ∈ fields.filterMap Field.tree?, P c
  | [], _, hc => absurd hc List.not_mem_nil
  | .attribute _ _ :: rest, c, hc => Field.of_children step rest c hc
  | .child _ t :: rest, c, hc => by
    rcases List.mem_cons.mp hc with hct | hrest
    · rw [hct]
      exact Tree.of_children step t
    · exact Field.of_children step rest c hrest

end

/-- A tree and all trees below it, as a walk meets them. -/
def Tree.subtrees (t : Tree) : List Tree :=
  (t.visits (fun _ => true) none).map Visit.tree

/-- Which trees a walk meets does not hang on who owns its root. -/
theorem Tree.map_tree_visits (t : Tree) :
    ∀ parent? : Option Tree, (t.visits (fun _ => true) parent?).map Visit.tree = t.subtrees := by
  intro parent?
  rw [subtrees, visits_eq, visits_eq, List.map_cons, List.map_cons]

theorem Tree.subtrees_eq (t : Tree) : t.subtrees = t :: t.children.flatMap Tree.subtrees := by
  rw [subtrees, visits_eq, List.map_cons, List.map_flatMap]
  simp only [map_tree_visits]

theorem Tree.map_tree_walk (roots : List Tree) :
    (Tree.walk (fun _ => true) roots).map Visit.tree = roots.flatMap Tree.subtrees :=
  List.map_flatMap

theorem Tree.self_mem_subtrees (t : Tree) : t ∈ t.subtrees := by
  rw [subtrees_eq]
  exact List.mem_cons_self

theorem Tree.mem_subtrees_of_child {t c u : Tree} (hc : c ∈ t.children) (hu : u ∈ c.subtrees) :
    u ∈ t.subtrees := by
  rw [subtrees_eq]
  exact List.mem_cons_of_mem t (List.mem_flatMap.mpr ⟨c, hc, hu⟩)

end Subtrees

section Keys

variable {text : Text}

/-- What is below a child lies within the tree, and if it is as wide it has fewer layers. -/
theorem Tree.below_within (t : Tree) (hall : ∀ u ∈ t.subtrees, u.Nested text ∧ u.Layered) :
    ∀ c ∈ t.children, ∀ u ∈ c.subtrees, t.span.contains u.span = true ∧
      (u.span = t.span → u.kind.layers < t.kind.layers) := by
  induction t using Tree.of_children with
  | step t ih =>
    intro c hc u hu
    obtain ⟨hnested, hlayered⟩ := hall t t.self_mem_subtrees
    have hcontains := hnested.contains c hc
    rw [subtrees_eq] at hu
    rcases List.mem_cons.mp hu with rfl | hu
    · exact ⟨hcontains, hlayered _ hc⟩
    · obtain ⟨c', hc', hu⟩ := List.mem_flatMap.mp hu
      obtain ⟨hin, hfewer⟩ := ih c hc (fun w hw => hall w (mem_subtrees_of_child hc hw)) c' hc' u hu
      refine ⟨Span.contains_trans hcontains hin, fun hspan => ?_⟩
      -- The child stands between the two, and so is as wide.
      have hspan' : c.span = t.span := Span.eq_of_contains hcontains (hspan ▸ hin)
      exact Nat.lt_trans (hfewer (hspan.trans hspan'.symm)) (hlayered c hc hspan')

theorem Tree.contains_of_mem_subtrees {t : Tree}
    (hall : ∀ u ∈ t.subtrees, u.Nested text ∧ u.Layered) :
    ∀ u ∈ t.subtrees, t.span.contains u.span = true := by
  intro u hu
  rw [subtrees_eq] at hu
  rcases List.mem_cons.mp hu with rfl | hu
  · exact Span.contains_refl _
  · obtain ⟨c, hc, hu⟩ := List.mem_flatMap.mp hu
    exact (t.below_within hall c hc u hu).1

/-- Trees that lie apart, each with all that is below it, share no key. -/
theorem Tree.nodup_keys_of_pairwise {trees : List Tree}
    (hapart : trees.Pairwise fun a b => a.span.stop ≤ b.span.start)
    (hall : ∀ t ∈ trees, ∀ u ∈ t.subtrees, u.Nested text ∧ u.Layered)
    (hnodup : ∀ t ∈ trees, (t.subtrees.map Tree.key).Nodup) :
    ((trees.flatMap Tree.subtrees).map Tree.key).Nodup := by
  rw [List.map_flatMap, List.nodup_flatMap]
  refine ⟨hnodup, hapart.imp_of_mem ?_⟩
  intro a b ha hb hab key hka hkb
  obtain ⟨u, hu, rfl⟩ := List.mem_map.mp hka
  obtain ⟨w, hw, hkey⟩ := List.mem_map.mp hkb
  have hspan : w.span = u.span := congrArg Prod.snd hkey
  have hua := Span.contains_iff.mp (contains_of_mem_subtrees (hall a ha) u hu)
  have hwb := Span.contains_iff.mp (contains_of_mem_subtrees (hall b hb) w hw)
  have hlt := (hall a ha u hu).1.start_lt_stop
  rw [hspan] at hwb
  omega

/-- A tree and all that is below it share no key. -/
theorem Tree.nodup_keys (t : Tree) (hall : ∀ u ∈ t.subtrees, u.Nested text ∧ u.Layered) :
    (t.subtrees.map Tree.key).Nodup := by
  induction t using Tree.of_children with
  | step t ih =>
    have hchild : ∀ c ∈ t.children, ∀ u ∈ c.subtrees, u.Nested text ∧ u.Layered :=
      fun c hc u hu => hall u (mem_subtrees_of_child hc hu)
    rw [subtrees_eq, List.map_cons, List.nodup_cons]
    constructor
    · intro hkey
      obtain ⟨u, hu, hkey⟩ := List.mem_map.mp hkey
      obtain ⟨c, hc, hu⟩ := List.mem_flatMap.mp hu
      have hfewer := (t.below_within hall c hc u hu).2 (congrArg Prod.snd hkey)
      have hkind : u.kind = t.kind := congrArg Prod.fst hkey
      rw [hkind] at hfewer
      exact Nat.lt_irrefl _ hfewer
    · exact nodup_keys_of_pairwise (hall t t.self_mem_subtrees).1.disjoint hchild
        fun c hc => ih c hc (hchild c hc)

end Keys

namespace Owners

variable {owners : Owners} {vs : List Visit} {key : Kind × Span Nat} {owner? : Option Tree}

@[simp] theorem put_same (owners : Owners) (t : Tree) (owner? : Option Tree) :
    owners.put t owner? t.key = owner? := by
  simp [put]

@[simp] theorem put_other {t : Tree} (h : key ≠ t.key) : owners.put t owner? key = owners key := by
  simp [put, h]

/-- The owners with a visit noted. -/
def note (owners : Owners) (v : Visit) : Owners :=
  owners.put v.tree v.parent?

/-- The visits that are noted for a root: its own, and one for each child of what a walk meets. -/
def notes (root : Tree) : List Visit :=
  ⟨none, root⟩ :: (root.visits (fun _ => true) none).flatMap fun v =>
    v.tree.children.map fun child => ⟨some v.tree, child⟩

theorem enroll_eq (owners : Owners) (root : Tree) :
    owners.enroll root = (notes root).foldl note owners := by
  simp only [enroll, notes, List.foldl_cons, List.foldl_flatMap, List.foldl_map]
  rfl

theorem ofRoots_eq (roots : List Tree) :
    ofRoots roots = (roots.flatMap notes).foldl note empty := by
  rw [List.foldl_flatMap, ofRoots]
  exact congrArg (fun f => roots.foldl f empty) (funext₂ enroll_eq)

/-- Where all notes on a key agree, they are what is noted on it. -/
theorem foldl_note (h : ∀ v ∈ vs, v.tree.key = key → v.parent? = owner?)
    (howner : (∀ v ∈ vs, v.tree.key ≠ key) → owners key = owner?) :
    vs.foldl note owners key = owner? := by
  induction vs generalizing owners with
  | nil => exact howner fun v hv => absurd hv List.not_mem_nil
  | cons w vs ih =>
    refine ih (fun v hv => h v (List.mem_cons_of_mem w hv)) fun hnone => ?_
    by_cases hw : w.tree.key = key
    · rw [note, ← hw, put_same]
      exact h w List.mem_cons_self hw
    · rw [note, put_other (Ne.symm hw)]
      refine howner fun v hv => ?_
      rcases List.mem_cons.mp hv with rfl | hv
      · exact hw
      · exact hnone v hv

end Owners

section Notes

/-- A walk that meets a tree meets its children below it. -/
theorem Tree.visit_child (t : Tree) : ∀ parent? : Option Tree,
    ∀ u ∈ t.visits (fun _ => true) parent?, ∀ c ∈ u.tree.children,
      ⟨some u.tree, c⟩ ∈ t.visits (fun _ => true) parent? := by
  induction t using Tree.of_children with
  | step t ih =>
    intro parent? u hu c hc
    rw [visits_eq] at hu ⊢
    apply List.mem_cons_of_mem
    rcases List.mem_cons.mp hu with rfl | hu
    · refine List.mem_flatMap.mpr ⟨c, hc, ?_⟩
      rw [visits_eq]
      exact List.mem_cons_self
    · obtain ⟨c', hc', hu⟩ := List.mem_flatMap.mp hu
      exact List.mem_flatMap.mpr ⟨c', hc', ih c' hc' (some t) u hu c hc⟩

theorem Tree.mem_children {t c : Tree} : c ∈ t.children ↔ ∃ label, t.Holds label c := by
  constructor
  · intro hc
    obtain ⟨f, hf, hft⟩ := List.mem_filterMap.mp hc
    rcases f with ⟨label, w⟩ | ⟨label, c'⟩
    · cases hft
    · cases hft
      exact ⟨label, hf⟩
  · rintro ⟨label, h⟩
    exact List.mem_filterMap.mpr ⟨_, h, rfl⟩

/-- What is noted for a root is what a walk meets. -/
theorem Owners.mem_notes {root : Tree} {v : Visit} :
    v ∈ notes root ↔ v ∈ root.visits (fun _ => true) none := by
  have hself : ⟨none, root⟩ ∈ root.visits (fun _ => true) none := by
    rw [Tree.visits_eq]
    exact List.mem_cons_self
  constructor
  · intro hv
    rcases List.mem_cons.mp hv with rfl | hv
    · exact hself
    · obtain ⟨u, hu, hv⟩ := List.mem_flatMap.mp hv
      obtain ⟨c, hc, rfl⟩ := List.mem_map.mp hv
      exact root.visit_child none u hu c hc
  · intro hv
    rcases Tree.exists_owner root none v hv with rfl | ⟨u, hu, label, hparent, hholds⟩
    · exact List.mem_cons_self
    · apply List.mem_cons_of_mem
      refine List.mem_flatMap.mpr ⟨u, hu, List.mem_map.mpr ⟨v.tree, ?_, ?_⟩⟩
      · exact Tree.mem_children.mpr ⟨label, hholds⟩
      · rw [← hparent]

theorem Owners.mem_flatMap_notes {roots : List Tree} {v : Visit} :
    v ∈ roots.flatMap notes ↔ v ∈ Tree.walk (fun _ => true) roots := by
  simp only [Tree.walk, List.mem_flatMap, mem_notes]

end Notes

namespace Document

variable {levels : Nat} {text : Text} {d : Document} {v w : Visit}

theorem subtrees_sound (h : parse levels text = .ok d) :
    ∀ t ∈ d.trees, ∀ u ∈ t.subtrees, u.Nested text ∧ u.Layered := by
  intro t ht u hu
  obtain ⟨v, hv, rfl⟩ := List.mem_map.mp hu
  have hwalk : v ∈ Tree.walk (fun _ => true) d.trees := List.mem_flatMap.mpr ⟨t, ht, hv⟩
  exact ⟨(walk_placed h v hwalk).nested, walk_layered h v hwalk⟩

theorem trees_apart (h : parse levels text = .ok d) :
    d.trees.Pairwise fun a b => a.span.stop ≤ b.span.start := by
  obtain ⟨runs, hruns, hc⟩ := trees_cover h
  exact covers_pairwise hc (hruns ▸ written_ordered text)

theorem nodup_keys (h : parse levels text = .ok d) :
    ((Tree.walk (fun _ => true) d.trees).map fun v => v.tree.key).Nodup := by
  have hsound := subtrees_sound h
  have hnodup := Tree.nodup_keys_of_pairwise (trees_apart h) hsound fun t ht =>
    t.nodup_keys (hsound t ht)
  rwa [← Tree.map_tree_walk, List.map_map] at hnodup

/-- A key tells the visit. -/
theorem eq_of_key (h : parse levels text = .ok d) (hv : v ∈ Tree.walk (fun _ => true) d.trees)
    (hw : w ∈ Tree.walk (fun _ => true) d.trees) (hkey : v.tree.key = w.tree.key) : v = w :=
  List.inj_on_of_nodup_map (nodup_keys h) hv hw hkey

/-- The owner noted for a tree is the one that a walk meets it with. -/
theorem parent?_eq (h : parse levels text = .ok d)
    (hv : v ∈ Tree.walk (fun _ => true) d.trees) : d.parent? v.tree = v.parent? := by
  rw [parent?, Owners.ofRoots_eq]
  apply Owners.foldl_note
  · intro w hw hkey
    rw [eq_of_key h (Owners.mem_flatMap_notes.mp hw) hv hkey]
  · intro hnone
    exact absurd rfl (hnone v (Owners.mem_flatMap_notes.mpr hv))

/-- A tree that no walk meets has no owner. -/
theorem parent?_eq_none {t : Tree}
    (ht : ∀ v ∈ Tree.walk (fun _ => true) d.trees, v.tree.key ≠ t.key) : d.parent? t = none := by
  rw [parent?, Owners.ofRoots_eq]
  apply Owners.foldl_note
  · intro v hv hkey
    exact absurd hkey (ht v (Owners.mem_flatMap_notes.mp hv))
  · exact fun _ => rfl

theorem root_mem_walk {t : Tree} (ht : t ∈ d.trees) :
    ⟨none, t⟩ ∈ Tree.walk (fun _ => true) d.trees := by
  refine List.mem_flatMap.mpr ⟨t, ht, ?_⟩
  rw [Tree.visits_eq]
  exact List.mem_cons_self

theorem child_mem_walk (hv : v ∈ Tree.walk (fun _ => true) d.trees) {c : Tree}
    (hc : c ∈ v.tree.children) : ⟨some v.tree, c⟩ ∈ Tree.walk (fun _ => true) d.trees := by
  obtain ⟨t, ht, hvt⟩ := List.mem_flatMap.mp hv
  exact List.mem_flatMap.mpr ⟨t, ht, t.visit_child none v hvt c hc⟩

/-- Where every tree has the owner that a walk meets it with, all lead to the root of the walk. -/
theorem exists_ancestor (t : Tree) : ∀ parent? : Option Tree,
    (∀ u ∈ t.visits (fun _ => true) parent?, d.parent? u.tree = u.parent?) →
    ∀ v ∈ t.visits (fun _ => true) parent?, ∃ steps, d.ancestor? steps v.tree = some t := by
  induction t using Tree.of_children with
  | step t ih =>
    intro parent? howner v hv
    rw [Tree.visits_eq] at hv howner
    rcases List.mem_cons.mp hv with rfl | hv
    · exact ⟨0, rfl⟩
    · obtain ⟨c, hc, hv⟩ := List.mem_flatMap.mp hv
      have hbelow : ∀ u ∈ c.visits (fun _ => true) (some t), d.parent? u.tree = u.parent? :=
        fun u hu => howner u (List.mem_cons_of_mem _ (List.mem_flatMap.mpr ⟨c, hc, hu⟩))
      obtain ⟨steps, hsteps⟩ := ih c hc (some t) hbelow v hv
      have hparent : d.parent? c = some t := by
        apply hbelow ⟨some t, c⟩
        rw [Tree.visits_eq]
        exact List.mem_cons_self
      exact ⟨steps + 1, by rw [ancestor?, hsteps, Option.bind_some, hparent]⟩

/-- What is no declaration stands once among the children of one tree. -/
theorem existsUnique_owner (h : parse levels text = .ok d)
    (hv : v ∈ Tree.walk (fun _ => true) d.trees) (hdecl : v.tree ∉ d.trees) :
    ∃! place : Nat × Nat, ∃ u, (Tree.walk (fun _ => true) d.trees)[place.1]? = some u ∧
      u.tree.children[place.2]? = some v.tree := by
  -- Whatever holds the tree is the owner that the walk meets it with.
  have hparent : ∀ u ∈ Tree.walk (fun _ => true) d.trees, v.tree ∈ u.tree.children →
      v.parent? = some u.tree := by
    intro u hu hc
    rw [eq_of_key h hv (child_mem_walk hu hc) rfl]
  obtain ⟨u, hu, label, -, hholds⟩ := (root_or_owner hv).resolve_left hdecl
  have hc : v.tree ∈ u.tree.children := Tree.mem_children.mpr ⟨label, hholds⟩
  obtain ⟨i, hi⟩ := List.mem_iff_getElem?.mp hu
  obtain ⟨j, hj⟩ := List.mem_iff_getElem?.mp hc
  refine ⟨(i, j), ⟨u, hi, hj⟩, ?_⟩
  rintro ⟨i', j'⟩ ⟨u', hi', hj'⟩
  have hu' := List.mem_of_getElem? hi'
  have htree : u'.tree = u.tree := by
    have hu'v := hparent u' hu' (List.mem_of_getElem? hj')
    rw [hparent u hu hc] at hu'v
    exact (Option.some.inj hu'v).symm
  obtain rfl : u' = u := eq_of_key h hu' hu (congrArg Tree.key htree)
  have hwalk : i' = i := by
    obtain ⟨hlt, -⟩ := List.getElem?_eq_some_iff.mp hi'
    exact (List.getElem?_inj hlt (nodup_keys h).of_map).mp (hi'.trans hi.symm)
  have hchildren : j' = j := by
    have hlt := (walk_placed h v hv).nested.start_lt_stop
    exact Tree.index_eq_of_contains (walk_placed h u' hu').nested.disjoint hlt hj' hj
      (Span.contains_refl _) (Span.contains_refl _)
  rw [hwalk, hchildren]

theorem contains_of_mem_visits (h : parse levels text = .ok d) {root : Tree}
    (hroot : root ∈ d.trees) (hv : v ∈ root.visits (fun _ => true) none) :
    root.span.contains v.tree.span = true :=
  Tree.contains_of_mem_subtrees (subtrees_sound h root hroot) v.tree (List.mem_map_of_mem hv)

theorem existsUnique_home (h : parse levels text = .ok d)
    (hv : v ∈ Tree.walk (fun _ => true) d.trees) :
    ∃! i : Nat, ∃ root, d.trees[i]? = some root ∧ root.span.contains v.tree.span = true := by
  obtain ⟨root, hroot, hvisit⟩ := List.mem_flatMap.mp hv
  obtain ⟨i, hi⟩ := List.mem_iff_getElem?.mp hroot
  have hcontains := contains_of_mem_visits h hroot hvisit
  have hlt := (walk_placed h v hv).nested.start_lt_stop
  refine ⟨i, ⟨root, hi, hcontains⟩, ?_⟩
  rintro j ⟨other, hj, hother⟩
  exact Tree.index_eq_of_contains (trees_apart h) hlt hj hi hother hcontains

/-- From owner to owner one comes to the declaration around a tree, and no further. -/
theorem exists_ancestor_root (h : parse levels text = .ok d)
    (hv : v ∈ Tree.walk (fun _ => true) d.trees) {root : Tree} (hroot : root ∈ d.trees)
    (hcontains : root.span.contains v.tree.span = true) :
    ∃ steps, d.ancestor? steps v.tree = some root ∧ d.ancestor? (steps + 1) v.tree = none := by
  obtain ⟨home, hhome, hvisit⟩ := List.mem_flatMap.mp hv
  have heq : home = root := by
    obtain ⟨i, hi⟩ := List.mem_iff_getElem?.mp hhome
    obtain ⟨j, hj⟩ := List.mem_iff_getElem?.mp hroot
    obtain rfl : i = j := (existsUnique_home h hv).unique
      ⟨home, hi, contains_of_mem_visits h hhome hvisit⟩ ⟨root, hj, hcontains⟩
    exact Option.some.inj (hi.symm.trans hj)
  rw [heq] at hvisit
  have howner : ∀ u ∈ root.visits (fun _ => true) none, d.parent? u.tree = u.parent? :=
    fun u hu => parent?_eq h (List.mem_flatMap.mpr ⟨root, hroot, hu⟩)
  obtain ⟨steps, hsteps⟩ := exists_ancestor root none howner v hvisit
  have hend : d.parent? root = none := parent?_eq h (root_mem_walk hroot)
  exact ⟨steps, hsteps, by rw [ancestor?, hsteps, Option.bind_some, hend]⟩

/-- How the trees of a document own each other, and that their owners are known. -/
structure Owned (d : Document) : Prop where
  distinct : ((Tree.walk (fun _ => true) d.trees).map fun v => v.tree.key).Nodup
  declaration : ∀ t ∈ d.trees, d.parent? t = none ∧
    ∀ u ∈ Tree.walk (fun _ => true) d.trees, t ∉ u.tree.children
  /-- What is no declaration stands once among the children of one tree. -/
  owner : ∀ v ∈ Tree.walk (fun _ => true) d.trees, v.tree ∉ d.trees →
    ∃! place : Nat × Nat, ∃ u, (Tree.walk (fun _ => true) d.trees)[place.1]? = some u ∧
      u.tree.children[place.2]? = some v.tree
  parent : ∀ u ∈ Tree.walk (fun _ => true) d.trees, ∀ c ∈ u.tree.children,
    d.parent? c = some u.tree
  stranger : ∀ t, (∀ v ∈ Tree.walk (fun _ => true) d.trees, v.tree.key ≠ t.key) →
    d.parent? t = none
  home : ∀ v ∈ Tree.walk (fun _ => true) d.trees, ∃! i : Nat, ∃ root, d.trees[i]? = some root ∧
    root.span.contains v.tree.span = true
  /-- From owner to owner one comes to the declaration around the tree, and no further. -/
  climbs : ∀ v ∈ Tree.walk (fun _ => true) d.trees, ∀ root ∈ d.trees,
    root.span.contains v.tree.span = true →
    ∃ steps, d.ancestor? steps v.tree = some root ∧ d.ancestor? (steps + 1) v.tree = none

end Document

/-- Whatever the text and the limit, the trees of a document are told apart by kind and span, and
the owners noted for them are the trees that hold them. -/
theorem parents_invert_children {levels : Nat} {text : Text} {d : Document}
    (h : Document.parse levels text = .ok d) : d.Owned := by
  constructor
  · exact Document.nodup_keys h
  · intro t ht
    have hroot := Document.root_mem_walk ht
    refine ⟨Document.parent?_eq h hroot, fun u hu hc => ?_⟩
    cases Document.eq_of_key h hroot (Document.child_mem_walk hu hc) rfl
  · exact fun v hv hdecl => Document.existsUnique_owner h hv hdecl
  · exact fun u hu c hc => Document.parent?_eq h (Document.child_mem_walk hu hc)
  · exact fun t ht => Document.parent?_eq_none ht
  · exact fun v hv => Document.existsUnique_home h hv
  · exact fun v hv root hroot hcontains => Document.exists_ancestor_root h hv hroot hcontains

/-- A list of one hint, the hint and its name stand on the same bytes. -/
theorem parents_invert_children_hint :
    ∃ d, Document.parse 1 (Text.ofString "shader_type spatial;uniform int a:nope;") = .ok d ∧
      (Tree.walk (fun _ => true) d.trees).map
          (fun v => (v.tree.key, (d.parent? v.tree).map Tree.kind)) =
        [((.shaderTypeDeclaration, ⟨0, 20⟩), none),
          ((.shaderType, ⟨12, 19⟩), some .shaderTypeDeclaration),
          ((.uniformDeclaration, ⟨20, 39⟩), none),
          ((.varSpecifier, ⟨28, 33⟩), some .uniformDeclaration),
          ((.builtinType, ⟨28, 31⟩), some .varSpecifier),
          ((.ident, ⟨32, 33⟩), some .varSpecifier),
          ((.hintList, ⟨34, 38⟩), some .uniformDeclaration),
          ((.hint, ⟨34, 38⟩), some .hintList), ((.invalidHint, ⟨34, 38⟩), some .hint)] ∧
      d.Owned := by
  obtain ⟨d, hd, hlist⟩ := Document.exists_parse 1
    (Text.ofString "shader_type spatial;uniform int a:nope;")
    (fun d => (Tree.walk (fun _ => true) d.trees).map
        (fun v => (v.tree.key, (d.parent? v.tree).map Tree.kind)) ==
      [((.shaderTypeDeclaration, ⟨0, 20⟩), none),
        ((.shaderType, ⟨12, 19⟩), some .shaderTypeDeclaration),
        ((.uniformDeclaration, ⟨20, 39⟩), none),
        ((.varSpecifier, ⟨28, 33⟩), some .uniformDeclaration),
        ((.builtinType, ⟨28, 31⟩), some .varSpecifier),
        ((.ident, ⟨32, 33⟩), some .varSpecifier),
        ((.hintList, ⟨34, 38⟩), some .uniformDeclaration),
        ((.hint, ⟨34, 38⟩), some .hintList), ((.invalidHint, ⟨34, 38⟩), some .hint)])
    (by decide +kernel)
  exact ⟨d, hd, eq_of_beq hlist, parents_invert_children hd⟩

end ShaderSyntax
