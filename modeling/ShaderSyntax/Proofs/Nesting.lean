import ShaderSyntax.Proofs.Invalid

/-!
# Nested spans

Every tree of a document stands on a run of tokens, and its children stand on parts of that run that
follow each other. So no span is empty or reaches out of the text, children lie inside their owner,
and they are listed in the order of the source.
-/
namespace ShaderSyntax

mutual

/-- A node and all nodes below it, in source order. -/
def Node.subnodes : Node → List Node
  | .leaf k l => [.leaf k l]
  | .error s => [.error s]
  | .branch k items => .branch k items :: Item.subnodes items

def Item.subnodes : List Item → List Node
  | [] => []
  | .token _ :: rest => Item.subnodes rest
  | .attribute _ _ :: rest => Item.subnodes rest
  | .child _ n :: rest => n.subnodes ++ Item.subnodes rest

end

/-- A fact about nodes tells one about their items, which passes on to the items behind and to the
children. -/
structure Inherits (P : Node → Prop) (Q : Kind → List Item → Prop) : Prop where
  branch : ∀ k items, P (.branch k items) → Q k items
  afterToken : ∀ k l rest, Q k (.token l :: rest) → Q k rest
  afterAttribute : ∀ k label l rest, Q k (.attribute label l :: rest) → Q k rest
  child : ∀ k label n rest, Q k (.child label n :: rest) → P n ∧ Q k rest

section Inherits

variable {P : Node → Prop} {Q : Kind → List Item → Prop}

mutual

/-- Such a fact holds of all nodes below a node that it holds of. -/
theorem Inherits.subnodes (h : Inherits P Q) : ∀ n : Node, P n → ∀ m ∈ n.subnodes, P m
  | .leaf k l, hp, m, hm => by
    rw [List.mem_singleton.mp hm]
    exact hp
  | .error s, hp, m, hm => by
    rw [List.mem_singleton.mp hm]
    exact hp
  | .branch k items, hp, m, hm => by
    rcases List.mem_cons.mp hm with rfl | hm
    · exact hp
    · exact Inherits.below h k items (h.branch k items hp) m hm

theorem Inherits.below (h : Inherits P Q) : ∀ (k : Kind) (items : List Item), Q k items →
    ∀ m ∈ Item.subnodes items, P m
  | _, [], _, m, hm => absurd hm List.not_mem_nil
  | k, .token l :: rest, hq, m, hm => Inherits.below h k rest (h.afterToken k l rest hq) m hm
  | k, .attribute label l :: rest, hq, m, hm =>
    Inherits.below h k rest (h.afterAttribute k label l rest hq) m hm
  | k, .child label n :: rest, hq, m, hm => by
    obtain ⟨hn, hrest⟩ := h.child k label n rest hq
    rcases List.mem_append.mp hm with hm | hm
    · exact Inherits.subnodes h n hn m hm
    · exact Inherits.below h k rest hrest m hm

end

end Inherits

section Placed

variable {text : Text}

/-- The tree is a solid node placed on a run of tokens. -/
def PlacedFrom (text : Text) (nodes : List Node) (t : Tree) : Prop :=
  ∃ n ∈ nodes, ∃ start run, n.Solid ∧ Run text start n.lexemes run ∧
    t = n.place (Source.ofText text).locate start

theorem PlacedFrom.mono {nodes more : List Node} {t : Tree} (h : PlacedFrom text nodes t)
    (hm : ∀ n ∈ nodes, n ∈ more) : PlacedFrom text more t := by
  obtain ⟨n, hn, rest⟩ := h
  exact ⟨n, hm n hn, rest⟩

mutual

/-- A walk through a placed node meets placed nodes only. -/
theorem Node.visits_placed : ∀ (n : Node) (start : Nat) (parent? : Option Tree) (run : List Token),
    n.Solid → Run text start n.lexemes run →
    ∀ v ∈ (n.place (Source.ofText text).locate start).visits (fun _ => true) parent?,
      PlacedFrom text n.subnodes v.tree
  | .leaf k l, start, parent?, run, hs, h, v, hv => by
    rw [List.mem_singleton.mp hv]
    exact ⟨.leaf k l, by simp [Node.subnodes], start, run, hs, h, rfl⟩
  | .error s, start, parent?, run, hs, h, v, hv => by
    rw [List.mem_singleton.mp hv]
    exact ⟨.error s, by simp [Node.subnodes], start, run, hs, h, rfl⟩
  | .branch k items, start, parent?, run, hs, h, v, hv => by
    rcases List.mem_cons.mp hv with rfl | hv
    · exact ⟨.branch k items, by simp [Node.subnodes], start, run, hs, h, rfl⟩
    · apply (Item.visits_placed items start _ run hs.2.2 h v hv).mono
      intro n hn
      simp [Node.subnodes, hn]

theorem Item.visits_placed : ∀ (items : List Item) (start : Nat) (parent? : Option Tree)
    (run : List Token), Item.Solid items → Run text start (Item.lexemes items) run →
    ∀ v ∈ Field.visits (fun _ => true) parent?
        (Item.place (Source.ofText text).locate start items),
      PlacedFrom text (Item.subnodes items) v.tree
  | [], start, parent?, run, _, _, v, hv => absurd hv List.not_mem_nil
  | .token l :: rest, start, parent?, run, hs, h, v, hv => by
    obtain ⟨t, r, -, hr⟩ := Run.tail h
    exact Item.visits_placed rest (start + 1) parent? r hs hr v hv
  | .attribute label l :: rest, start, parent?, run, hs, h, v, hv => by
    obtain ⟨t, r, -, hr⟩ := Run.tail h
    exact Item.visits_placed rest (start + 1) parent? r hs hr v hv
  | .child label n :: rest, start, parent?, run, hs, h, v, hv => by
    obtain ⟨r₁, r₂, -, h₁, h₂⟩ := Run.split h
    rw [Node.length_lexemes] at h₂
    rcases List.mem_append.mp hv with hv | hv
    · apply (Node.visits_placed n start parent? r₁ hs.1 h₁ v hv).mono
      intro m hm
      simp [Item.subnodes, hm]
    · apply (Item.visits_placed rest (start + n.size) parent? r₂ hs.2 h₂ v hv).mono
      intro m hm
      simp [Item.subnodes, hm]

end

/-- A visit of a walk through placed nodes is one of a walk through one of them, which is a root. -/
theorem Node.walk_root (label : Label) (nodes : List Node) (start : Nat) (run : List Token)
    (hs : Item.Solid (Item.children label nodes))
    (h : Run text start (Item.lexemes (Item.children label nodes)) run) :
    ∀ v ∈ Tree.walk (fun _ => true) (Node.placeAll (Source.ofText text).locate start nodes),
      ∃ n ∈ nodes, ∃ start run, n.Solid ∧ Run text start n.lexemes run ∧
        v ∈ (n.place (Source.ofText text).locate start).visits (fun _ => true) none := by
  induction nodes generalizing start run with
  | nil => simp [Tree.walk, Node.placeAll]
  | cons n nodes ih =>
    intro v hv
    rw [Item.lexemes_children_cons] at h
    obtain ⟨r₁, r₂, -, h₁, h₂⟩ := h.split
    rw [Node.length_lexemes] at h₂
    rw [Node.placeAll, Tree.walk, List.flatMap_cons] at hv
    rcases List.mem_append.mp hv with hv | hv
    · exact ⟨n, by simp, start, r₁, hs.1, h₁, hv⟩
    · obtain ⟨m, hm, rest⟩ := ih (start + n.size) r₂ hs.2 h₂ v hv
      exact ⟨m, by simp [hm], rest⟩

end Placed

/-- A visit of a walk through a document is one of a walk through one of its declarations. -/
theorem Document.walk_root {levels : Nat} {text : Text} {d : Document}
    (h : Document.parse levels text = .ok d) :
    ∀ v ∈ Tree.walk (fun _ => true) d.trees, ∃ decl ∈ d.decls, ∃ start run,
      decl.node.Solid ∧ Run text start decl.node.lexemes run ∧
        v ∈ (decl.node.place (Source.ofText text).locate start).visits (fun _ => true) none := by
  obtain ⟨htrees, hsolid, hrun⟩ := Document.trees_placed h
  intro v hv
  rw [htrees] at hv
  obtain ⟨n, hn, rest⟩ := Node.walk_root .value _ 0 _ hsolid hrun v hv
  obtain ⟨decl, hdecl, rfl⟩ := List.mem_map.mp hn
  exact ⟨decl, hdecl, rest⟩

/-- A walk through a document meets the nodes of its declarations, placed on the tokens of its
text. -/
theorem Document.walk_placed {levels : Nat} {text : Text} {d : Document}
    (h : Document.parse levels text = .ok d) :
    ∀ v ∈ Tree.walk (fun _ => true) d.trees,
      PlacedFrom text ((d.decls.map Decl.node).flatMap Node.subnodes) v.tree := by
  intro v hv
  obtain ⟨decl, hdecl, start, run, hs, hrun, hvisit⟩ := Document.walk_root h v hv
  apply (Node.visits_placed decl.node start none run hs hrun v hvisit).mono
  intro m hm
  exact List.mem_flatMap.mpr ⟨decl.node, List.mem_map_of_mem hdecl, hm⟩

section Children

variable {text : Text}

/-- The children among placed items cover parts of the run that follow each other. -/
theorem Item.children_cover : ∀ (items : List Item) (start : Nat) (run : List Token),
    Item.Solid items → Run text start (Item.lexemes items) run →
    CoverPart ((Item.place (Source.ofText text).locate start items).filterMap Field.tree?) run
  | [], start, run, _, _ => .nil run
  | .token l :: rest, start, run, hs, h => by
    obtain ⟨t, r, rfl, hr⟩ := Run.tail h
    exact .cons t (Item.children_cover rest (start + 1) r hs hr)
  | .attribute label l :: rest, start, run, hs, h => by
    obtain ⟨t, r, rfl, hr⟩ := Run.tail h
    exact .cons t (Item.children_cover rest (start + 1) r hs hr)
  | .child label n :: rest, start, run, hs, h => by
    obtain ⟨r₁, r₂, rfl, h₁, h₂⟩ := Run.split h
    rw [Node.length_lexemes] at h₂
    have hn : CoverPart [n.place (Source.ofText text).locate start] r₁ :=
      ⟨[r₁], by simp, .cons (Node.place_covers hs.1 h₁) .nil⟩
    exact hn.append (Item.children_cover rest (start + n.size) r₂ hs.2 h₂)

theorem Node.children_cover {n : Node} {start : Nat} {run : List Token} (hs : n.Solid)
    (h : Run text start n.lexemes run) :
    CoverPart (n.place (Source.ofText text).locate start).children run := by
  cases n with
  | leaf k l => exact .nil run
  | error s => exact .nil run
  | branch k items => exact Item.children_cover items start run hs.2.2 h

end Children

theorem written_stop_le {text : Text} {t : Token} (h : t ∈ written text) :
    t.span.stop ≤ text.length := by
  obtain ⟨last, -, hs⟩ := tokenize_scan text
  obtain ⟨hne, hp⟩ := hs.placed t h
  have hlen := hp.length_le
  have hpos := List.length_pos_iff.mpr hne
  rw [List.length_drop] at hlen
  change t.span.start + t.text.length ≤ text.length
  omega

/-- Where a tree stands in its text, and how its children stand in it. -/
structure Tree.Nested (text : Text) (t : Tree) : Prop where
  start_lt_stop : t.span.start < t.span.stop
  stop_le : t.span.stop ≤ text.length
  starts : ∃ token ∈ written text, token.span.start = t.span.start
  stops : ∃ token ∈ written text, token.span.stop = t.span.stop
  contains : ∀ child ∈ t.children, t.span.contains child.span = true
  disjoint : t.children.Pairwise fun a b => a.span.stop ≤ b.span.start

/-- A tree over a run of tokens is nested if its children cover parts of the run. -/
theorem Tree.nested_of_covers {text : Text} {t : Tree} {before run after : List Token}
    (hw : written text = before ++ (run ++ after)) (h : Covers t run)
    (hc : CoverPart t.children run) : t.Nested text := by
  have ho : Ordered run := by
    have hordered := written_ordered text
    rw [hw] at hordered
    exact hordered.mid
  have hmem : ∀ k ∈ run, k ∈ written text := by
    intro k hk
    simp [hw, hk]
  have hlt := h.start_lt_stop ho
  obtain ⟨first, last, hf, hl, hspan⟩ := h
  have hfirst := List.mem_of_head? hf
  have hlast := List.mem_of_getLast? hl
  obtain ⟨runs, hsub, hcover⟩ := hc
  constructor
  · exact hlt
  · rw [hspan]
    exact written_stop_le (hmem last hlast)
  · exact ⟨first, hmem first hfirst, by rw [hspan]⟩
  · exact ⟨last, hmem last hlast, by rw [hspan]⟩
  · intro child hchild
    obtain ⟨i, hi⟩ := List.mem_iff_getElem?.mp hchild
    obtain ⟨part, hpart, first', last', hf', hl', hspan'⟩ := covers_get hcover i child hi
    have hin : ∀ k ∈ part, k ∈ run := by
      intro k hk
      exact hsub.subset (List.mem_flatten.mpr ⟨part, List.mem_of_getElem? hpart, hk⟩)
    have hstart := ho.start_le hf (hin first' (List.mem_of_head? hf'))
    have hstop := ho.le_stop hl (hin last' (List.mem_of_getLast? hl'))
    rw [hspan, hspan']
    simp [Span.contains, hstart, hstop]
  · exact covers_pairwise hcover (ho.sublist hsub)

theorem PlacedFrom.nested {text : Text} {nodes : List Node} {t : Tree}
    (h : PlacedFrom text nodes t) : t.Nested text := by
  obtain ⟨n, -, start, run, hs, hrun, rfl⟩ := h
  obtain ⟨before, after, hw, -⟩ := hrun.within
  exact Tree.nested_of_covers hw (Node.place_covers hs hrun) (Node.children_cover hs hrun)

/-- Whatever the text and the limit, every tree that a walk through a document meets is nested, and
its text is as long as its span. -/
theorem spans_nest {levels : Nat} {text : Text} {d : Document}
    (h : Document.parse levels text = .ok d) :
    ∀ v ∈ Tree.walk (fun _ => true) d.trees,
      v.tree.Nested text ∧ (d.source.slice v.tree.span).length = v.tree.span.length := by
  intro v hv
  have hn := (Document.walk_placed h v hv).nested
  have hsource := (Document.account h .value).1
  refine ⟨hn, ?_⟩
  have hle := hn.stop_le
  have htext : d.source.text = text := by rw [hsource]; rfl
  rw [Source.slice, htext, List.length_take, List.length_drop]
  change min (v.tree.span.stop - v.tree.span.start) _ = v.tree.span.stop - v.tree.span.start
  omega

/-- Three statements, of which the first is an error node. -/
theorem spans_nest_recovered :
    ∃ d, Document.parse 3 (Text.ofString "void f() { a = ; b[1].c(in 2); ++x; }") = .ok d ∧
      (Tree.walk (fun _ => true) d.trees).length = 17 ∧
      ∀ v ∈ Tree.walk (fun _ => true) d.trees,
        v.tree.Nested (Text.ofString "void f() { a = ; b[1].c(in 2); ++x; }") ∧
          (d.source.slice v.tree.span).length = v.tree.span.length := by
  obtain ⟨d, hd, hlen⟩ :=
    Document.exists_parse 3 (Text.ofString "void f() { a = ; b[1].c(in 2); ++x; }")
      (fun d => (Tree.walk (fun _ => true) d.trees).length == 17) (by decide +kernel)
  exact ⟨d, hd, eq_of_beq hlen, spans_nest hd⟩

end ShaderSyntax
