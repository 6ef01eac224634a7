import ShaderSyntax.Proofs.Coverage
import ShaderSyntax.Tree.Walk

/-!
# Invalid trees

A parser notes its findings on the way, and drops those of a production that fails. What is left are
the invalid trees of the document: the same trees that a walk meets, in the same order. They cover
runs of tokens that follow each other, so each is met once.
-/
namespace ShaderSyntax

/-- The invalid trees among visits, in the order met. -/
def invalids (visits : List Visit) : List Tree :=
  (visits.map Visit.tree).filter Tree.isInvalid

theorem invalids_append (xs ys : List Visit) :
    invalids (xs ++ ys) = invalids xs ++ invalids ys := by
  simp [invalids]

theorem invalids_walk_cons (t : Tree) (roots : List Tree) :
    invalids (Tree.walk (fun _ => true) (t :: roots)) =
      invalids (t.visits (fun _ => true) none) ++ invalids (Tree.walk (fun _ => true) roots) := by
  rw [Tree.walk, List.flatMap_cons, invalids_append]
  rfl

theorem invalids_branch {k : Kind} (hk : k.isInvalid = false) (span : Span Nat)
    (fields : List Field) (parent? : Option Tree) :
    invalids ((Tree.branch k span fields).visits (fun _ => true) parent?) =
      invalids (Field.visits (fun _ => true) (some (.branch k span fields)) fields) := by
  simp [invalids, Tree.visits, Tree.isInvalid, Tree.kind, hk]

mutual

/-- The invalid trees of a placed node are its sites, each placed by what is left at it. -/
theorem Node.invalids_place (locate : Nat → Nat → Span Nat) : ∀ (n : Node) (start after : Nat)
    (parent? : Option Tree), n.Solid →
    invalids ((n.place locate start).visits (fun _ => true) parent?) =
      (n.sites after).map fun site => site.2.place locate (start + n.size + after - site.1)
  | .leaf k l, start, after, parent?, _ => by
    have hstart : start + 1 + after - (after + 1) = start := by omega
    by_cases hk : k.isInvalid = true
    · simp [invalids, Node.place, Tree.visits, Tree.isInvalid, Tree.kind, Node.sites, Node.size,
        hk, hstart]
    · simp [invalids, Node.place, Tree.visits, Tree.isInvalid, Tree.kind, Node.sites, hk]
  | .error s, start, after, parent?, _ => by
    have hstart : start + s.lexemes.length + after - (after + s.lexemes.length) = start := by omega
    simp [invalids, Node.place, Tree.visits, Tree.isInvalid, Tree.kind, Kind.isInvalid, Node.sites,
      Node.size, hstart]
  | .branch k items, start, after, parent?, h => by
    rw [Node.place, invalids_branch h.1, Item.invalids_place locate items start after _ h.2.2]
    rfl

theorem Item.invalids_place (locate : Nat → Nat → Span Nat) : ∀ (items : List Item)
    (start after : Nat) (parent? : Option Tree), Item.Solid items →
    invalids (Field.visits (fun _ => true) parent? (Item.place locate start items)) =
      (Item.sites after items).map fun site =>
        site.2.place locate (start + Item.size items + after - site.1)
  | [], start, after, parent?, _ => rfl
  | .token l :: rest, start, after, parent?, h => by
    have hsum : start + 1 + Item.size rest + after = start + (Item.size rest + 1) + after := by
      omega
    rw [Item.place, Item.invalids_place locate rest (start + 1) after parent? h, hsum]
    rfl
  | .attribute label l :: rest, start, after, parent?, h => by
    have hsum : start + 1 + Item.size rest + after = start + (Item.size rest + 1) + after := by
      omega
    rw [Item.place, Field.visits, Item.invalids_place locate rest (start + 1) after parent? h, hsum]
    rfl
  | .child label n :: rest, start, after, parent?, h => by
    have hfirst : start + n.size + (after + Item.size rest) =
        start + (n.size + Item.size rest) + after := by omega
    have hrest : start + n.size + Item.size rest + after =
        start + (n.size + Item.size rest) + after := by omega
    rw [Item.place, Field.visits, invalids_append,
      Node.invalids_place locate n start (after + Item.size rest) parent? h.1,
      Item.invalids_place locate rest (start + n.size) after parent? h.2, hfirst, hrest,
      Item.sites, List.map_append]
    rfl

end

theorem Node.invalids_placeAll (locate : Nat → Nat → Span Nat) (label : Label) (nodes : List Node)
    (start : Nat) (h : Item.Solid (Item.children label nodes)) :
    invalids (Tree.walk (fun _ => true) (Node.placeAll locate start nodes)) =
      (Item.sites 0 (Item.children label nodes)).map fun site =>
        site.2.place locate (start + Item.size (Item.children label nodes) - site.1) := by
  induction nodes generalizing start with
  | nil => rfl
  | cons n nodes ih =>
    obtain ⟨hn, hns⟩ := h
    have hsites : Item.sites 0 (Item.children label (n :: nodes)) =
        n.sites (0 + Item.size (Item.children label nodes)) ++
          Item.sites 0 (Item.children label nodes) := rfl
    rw [Node.placeAll, invalids_walk_cons,
      Node.invalids_place locate n start (0 + Item.size (Item.children label nodes)) none hn,
      ih (start + n.size) hns, hsites, List.map_append, Item.size_children_cons, Nat.zero_add,
      Nat.add_assoc]

/-- The trees cover parts of the run that follow each other, with gaps or without. -/
def CoverPart (trees : List Tree) (run : List Token) : Prop :=
  ∃ runs, runs.flatten.Sublist run ∧ List.Forall₂ Covers trees runs

namespace CoverPart

variable {xs ys trees : List Tree} {r₁ r₂ run : List Token}

theorem nil (run : List Token) : CoverPart [] run :=
  ⟨[], List.nil_sublist run, .nil⟩

theorem append (hx : CoverPart xs r₁) (hy : CoverPart ys r₂) :
    CoverPart (xs ++ ys) (r₁ ++ r₂) := by
  obtain ⟨first, hs₁, hc₁⟩ := hx
  obtain ⟨second, hs₂, hc₂⟩ := hy
  refine ⟨first ++ second, ?_, List.rel_append hc₁ hc₂⟩
  rw [List.flatten_append]
  exact hs₁.append hs₂

theorem cons (t : Token) (h : CoverPart trees run) : CoverPart trees (t :: run) := by
  obtain ⟨runs, hs, hc⟩ := h
  exact ⟨runs, hs.cons t, hc⟩

/-- A tree that covers a run, if it is invalid. -/
theorem single {t : Tree} (h : Covers t run) (parent? : Option Tree) :
    CoverPart (invalids [⟨parent?, t⟩]) run := by
  by_cases hi : t.isInvalid = true
  · refine ⟨[run], by simp, ?_⟩
    simpa [invalids, hi] using h
  · simpa [invalids, hi] using nil run

end CoverPart

mutual

theorem Node.invalids_cover (text : Text) : ∀ (n : Node) (start : Nat) (parent? : Option Tree)
    (run : List Token), n.Solid → Run text start n.lexemes run →
    CoverPart
      (invalids ((n.place (Source.ofText text).locate start).visits (fun _ => true) parent?)) run
  | .leaf k l, start, parent?, run, hs, h => .single (Node.place_covers hs h) parent?
  | .error s, start, parent?, run, hs, h => .single (Node.place_covers hs h) parent?
  | .branch k items, start, parent?, run, hs, h => by
    rw [Node.place, invalids_branch hs.1]
    exact Item.invalids_cover text items start _ run hs.2.2 h

theorem Item.invalids_cover (text : Text) : ∀ (items : List Item) (start : Nat)
    (parent? : Option Tree) (run : List Token), Item.Solid items →
    Run text start (Item.lexemes items) run →
    CoverPart (invalids (Field.visits (fun _ => true) parent?
      (Item.place (Source.ofText text).locate start items))) run
  | [], start, parent?, run, _, _ => .nil run
  | .token l :: rest, start, parent?, run, hs, h => by
    obtain ⟨t, r, rfl, hr⟩ := Run.tail h
    exact .cons t (Item.invalids_cover text rest (start + 1) parent? r hs hr)
  | .attribute label l :: rest, start, parent?, run, hs, h => by
    obtain ⟨t, r, rfl, hr⟩ := Run.tail h
    exact .cons t (Item.invalids_cover text rest (start + 1) parent? r hs hr)
  | .child label n :: rest, start, parent?, run, hs, h => by
    obtain ⟨r₁, r₂, rfl, h₁, h₂⟩ := Run.split h
    rw [Node.length_lexemes] at h₂
    rw [Item.place, Field.visits, invalids_append]
    exact .append (Node.invalids_cover text n start parent? r₁ hs.1 h₁)
      (Item.invalids_cover text rest (start + n.size) parent? r₂ hs.2 h₂)

end

theorem Node.invalids_coverAll (text : Text) (label : Label) (nodes : List Node) (start : Nat)
    (run : List Token) (hs : Item.Solid (Item.children label nodes))
    (h : Run text start (Item.lexemes (Item.children label nodes)) run) :
    CoverPart (invalids (Tree.walk (fun _ => true)
      (Node.placeAll (Source.ofText text).locate start nodes))) run := by
  induction nodes generalizing start run with
  | nil => exact .nil run
  | cons n nodes ih =>
    rw [Item.lexemes_children_cons] at h
    obtain ⟨r₁, r₂, rfl, h₁, h₂⟩ := h.split
    rw [Node.length_lexemes] at h₂
    rw [Node.placeAll, invalids_walk_cons]
    exact .append (Node.invalids_cover text n start none r₁ hs.1 h₁)
      (ih (start + n.size) r₂ hs.2 h₂)

theorem Ordered.sublist {xs ys : List Token} (h : Ordered ys) (hs : xs.Sublist ys) : Ordered xs :=
  ⟨fun t ht => h.start_lt_stop t (hs.subset ht), h.pairwise.sublist hs⟩

/-- Trees that cover runs in a row do not overlap. -/
theorem covers_pairwise {trees : List Tree} {runs : List (List Token)}
    (h : List.Forall₂ Covers trees runs) (ho : Ordered runs.flatten) :
    trees.Pairwise fun a b => a.span.stop ≤ b.span.start := by
  induction h with
  | nil => exact .nil
  | @cons a run trees runs hc hcs ih =>
    rw [List.flatten_cons] at ho
    refine .cons ?_ (ih (ho.sublist (List.sublist_append_right run runs.flatten)))
    intro b hb
    obtain ⟨i, hi⟩ := List.mem_iff_getElem?.mp hb
    obtain ⟨other, hr, hc'⟩ := covers_get hcs i b hi
    obtain ⟨_, last, -, hl, hs⟩ := hc
    obtain ⟨first, _, hf, -, hs'⟩ := hc'
    have hfirst : first ∈ runs.flatten :=
      List.mem_flatten.mpr ⟨other, List.mem_of_getElem? hr, List.mem_of_head? hf⟩
    rw [hs, hs']
    exact (List.pairwise_append.mp ho.pairwise).2.2 last (List.mem_of_getLast? hl) first hfirst

/-- Of trees that lie apart, one only contains a span. -/
theorem Tree.index_eq_of_contains {trees : List Tree} {span : Span Nat} {i j : Nat} {a b : Tree}
    (hapart : trees.Pairwise fun a b => a.span.stop ≤ b.span.start) (hlt : span.start < span.stop)
    (ha : trees[i]? = some a) (hb : trees[j]? = some b) (hac : a.span.contains span = true)
    (hbc : b.span.contains span = true) : i = j := by
  obtain ⟨hi, rfl⟩ := List.getElem?_eq_some_iff.mp ha
  obtain ⟨hj, rfl⟩ := List.getElem?_eq_some_iff.mp hb
  rw [Span.contains_iff] at hac hbc
  have hpair := List.pairwise_iff_getElem.mp hapart
  rcases Nat.lt_trichotomy i j with hij | hij | hij
  · have := hpair i j hi hj hij
    omega
  · exact hij
  · have := hpair j i hj hi hij
    omega

/-- An error node, or a leaf of a kind for invalid words. -/
def Tree.Fault : Tree → Prop
  | .leaf k _ _ => k.isInvalid = true
  | .error _ _ => True
  | .branch _ _ _ => False

theorem Tree.Fault.isInvalid {t : Tree} (h : t.Fault) : t.isInvalid = true := by
  cases t with
  | leaf k s w => exact h
  | error s m => rfl
  | branch k s fs => exact h.elim

mutual

theorem Node.fault_of_mem_sites (locate : Nat → Nat → Span Nat) (start : Nat) :
    ∀ (n : Node) (after : Nat) (site : Nat × Node), site ∈ n.sites after →
      (site.2.place locate start).Fault
  | .leaf k l, after, site, h => by
    by_cases hk : k.isInvalid = true
    · simp only [Node.sites, hk, if_true, List.mem_singleton] at h
      subst h
      exact hk
    · simp [Node.sites, hk] at h
  | .error s, after, site, h => by
    simp only [Node.sites, List.mem_singleton] at h
    subst h
    exact trivial
  | .branch _ items, after, site, h => Item.fault_of_mem_sites locate start items after site h

theorem Item.fault_of_mem_sites (locate : Nat → Nat → Span Nat) (start : Nat) :
    ∀ (items : List Item) (after : Nat) (site : Nat × Node), site ∈ Item.sites after items →
      (site.2.place locate start).Fault
  | [], _, _, h => absurd h List.not_mem_nil
  | .token _ :: rest, after, site, h => Item.fault_of_mem_sites locate start rest after site h
  | .attribute _ _ :: rest, after, site, h => Item.fault_of_mem_sites locate start rest after site h
  | .child _ n :: rest, after, site, h => by
    rcases List.mem_append.mp h with hn | hr
    · exact Node.fault_of_mem_sites locate start n _ site hn
    · exact Item.fault_of_mem_sites locate start rest after site hr

end

namespace Document

variable {levels : Nat} {text : Text} {d : Document}

/-- The invalid trees of a document are the sites of its declarations, placed. -/
theorem invalidTrees_eq (h : Document.parse levels text = .ok d) (label : Label) :
    d.invalidTrees = (Item.sites 0 (Item.children label (d.decls.map Decl.node))).map fun site =>
      site.2.place (Source.ofText text).locate ((written text).length - site.1) := by
  obtain ⟨hsource, ha⟩ := Document.account h label
  have hf := ha.findings
  rw [List.length_nil] at hf
  rw [invalidTrees, Source.invalidTrees, ← hf, List.map_map, hsource]
  apply List.map_congr_left
  intro f _
  simp only [Source.place, Source.index, Source.size_ofText, Function.comp_apply, Finding.site]

/-- The invalid trees are what a walk through the whole document meets. -/
theorem invalidTrees_walk (h : Document.parse levels text = .ok d) :
    d.invalidTrees = invalids (Tree.walk (fun _ => true) d.trees) := by
  obtain ⟨htrees, hsolid, hrun⟩ := Document.trees_placed h
  rw [invalidTrees_eq h .value, htrees, Node.invalids_placeAll _ .value _ _ hsolid, hrun.length_eq,
    Item.length_lexemes, Nat.zero_add]

theorem invalidTrees_cover (h : Document.parse levels text = .ok d) :
    CoverPart d.invalidTrees (written text) := by
  obtain ⟨htrees, hsolid, hrun⟩ := Document.trees_placed h
  rw [invalidTrees_walk h, htrees]
  exact Node.invalids_coverAll text .value _ 0 _ hsolid hrun

theorem fault_of_mem_invalidTrees (h : Document.parse levels text = .ok d) {t : Tree}
    (ht : t ∈ d.invalidTrees) : t.Fault := by
  rw [invalidTrees_eq h .value] at ht
  obtain ⟨site, hsite, rfl⟩ := List.mem_map.mp ht
  exact Item.fault_of_mem_sites _ _ _ _ site hsite

theorem hasErrors_iff (d : Document) : d.hasErrors = true ↔ d.invalidTrees ≠ [] := by
  simp [hasErrors, invalidTrees, Source.invalidTrees]

end Document

/-- The trees of the list are the invalid ones below the roots, as a walk meets them. -/
structure Enumerates (list roots : List Tree) : Prop where
  walked : list =
    ((Tree.walk (fun _ => true) roots).map Visit.tree).filter Tree.isInvalid
  increasing : list.Pairwise fun a b => a.span.start < b.span.start
  disjoint : list.Pairwise fun a b => a.span.stop ≤ b.span.start
  start_lt_stop : ∀ a ∈ list, a.span.start < a.span.stop

/-- Whatever the text and the limit, the invalid trees of a document are exactly those that a walk
meets, and there are errors only if it meets an error node or an invalid leaf. -/
theorem invalidTrees_enumerate {levels : Nat} {text : Text} {d : Document}
    (h : Document.parse levels text = .ok d) :
    Enumerates d.invalidTrees d.trees ∧
      (d.hasErrors = true ↔ ∃ v ∈ Tree.walk (fun _ => true) d.trees, v.tree.Fault) := by
  have hwalk := Document.invalidTrees_walk h
  obtain ⟨runs, hsub, hc⟩ := Document.invalidTrees_cover h
  have ho := (written_ordered text).sublist hsub
  have hlt := covers_start_lt_stop hc ho
  have hdisjoint := covers_pairwise hc ho
  refine ⟨⟨hwalk, ?_, hdisjoint, hlt⟩, ?_⟩
  · refine hdisjoint.imp_of_mem ?_
    intro a b ha _ hab
    have := hlt a ha
    omega
  · rw [Document.hasErrors_iff]
    constructor
    · intro hne
      obtain ⟨t, ht⟩ := List.exists_mem_of_ne_nil _ hne
      have hfault := Document.fault_of_mem_invalidTrees h ht
      rw [hwalk] at ht
      obtain ⟨v, hv, rfl⟩ := List.mem_map.mp (List.mem_filter.mp ht).1
      exact ⟨v, hv, hfault⟩
    · rintro ⟨v, hv, hfault⟩
      rw [hwalk]
      exact List.ne_nil_of_mem
        (List.mem_filter.mpr ⟨List.mem_map.mpr ⟨v, hv, rfl⟩, hfault.isInvalid⟩)

/-- The word `nope` is kept as an invalid leaf. The invalid type in the unfinished uniform goes with
it, and an error node stands for both. -/
theorem invalidTrees_enumerate_unfinished :
    ∃ d, Document.parse 1 (Text.ofString "shader_type nope;\nuniform if a") = .ok d ∧
      d.invalidTrees.map Tree.kind = [.invalidShaderType, .error] ∧
      Enumerates d.invalidTrees d.trees ∧
      (d.hasErrors = true ↔ ∃ v ∈ Tree.walk (fun _ => true) d.trees, v.tree.Fault) := by
  obtain ⟨d, hd, hkinds⟩ := Document.exists_parse 1
    (Text.ofString "shader_type nope;\nuniform if a")
    (fun d => d.invalidTrees.map Tree.kind == [.invalidShaderType, .error]) (by decide +kernel)
  exact ⟨d, hd, eq_of_beq hkinds, invalidTrees_enumerate hd⟩

end ShaderSyntax
