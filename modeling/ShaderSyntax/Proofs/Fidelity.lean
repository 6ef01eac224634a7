import ShaderSyntax.Proofs.Coverage
import ShaderSyntax.Proofs.Rendering.Syntax
import ShaderSyntax.Tree.Walk

/-!
# Fidelity

The tokens inside the span of a tree are what the tree is written as. So a tree says all there is to
say about the source below it, up to what stands between tokens.
-/
namespace ShaderSyntax

mutual

/-- A tree and all trees below it, in the order of a walk. Each comes with whether it is the update
of a loop. -/
def Tree.spots (update : Bool) : Tree → List (Bool × Tree)
  | .leaf k s t => [(update, .leaf k s t)]
  | .error s m => [(update, .error s m)]
  | .branch k s fields => (update, .branch k s fields) :: Field.spots fields

def Field.spots : List Field → List (Bool × Tree)
  | [] => []
  | .attribute _ _ :: rest => Field.spots rest
  | .child label t :: rest => t.spots (label == .update) ++ Field.spots rest

end

mutual

theorem Tree.spots_visits (update : Bool) (parent? : Option Tree) : ∀ t : Tree,
    (t.spots update).map Prod.snd = (t.visits (fun _ => true) parent?).map Visit.tree
  | .leaf _ _ _ => rfl
  | .error _ _ => rfl
  | .branch k s fields => congrArg _ (Field.spots_visits (some (.branch k s fields)) fields)

theorem Field.spots_visits (parent? : Option Tree) : ∀ fields : List Field,
    (Field.spots fields).map Prod.snd =
      (Field.visits (fun _ => true) parent? fields).map Visit.tree
  | [] => rfl
  | .attribute _ _ :: rest => Field.spots_visits parent? rest
  | .child label t :: rest => by
    simp only [Field.spots, Field.visits, List.map_append,
      Tree.spots_visits (label == .update) parent? t, Field.spots_visits parent? rest]

end

/-- The spots of roots are the trees that a walk from them meets. -/
theorem Tree.spots_walk (roots : List Tree) :
    (roots.flatMap (Tree.spots false)).map Prod.snd =
      (Tree.walk (fun _ => true) roots).map Visit.tree := by
  induction roots with
  | nil => rfl
  | cons t roots ih =>
    simp only [Tree.walk, List.flatMap_cons, List.map_append] at ih ⊢
    rw [Tree.spots_visits false none t, ih]

/-- The tokens inside the span of a tree are what it is written as, and a leaf is the text that its
span covers. -/
structure Faithful (source : Source) (tokens : List Token) (update : Bool) (t : Tree) : Prop where
  emitted : (tokensIn tokens t.span).map Token.text = t.emit tokens update
  slice : ∀ w, t.leafText? = some w → source.slice t.span = w

section Placed

variable {text : Text}

/-- The tokens inside the span of a placed node are the run it is placed on. -/
theorem Node.tokensIn_place {start : Nat} {n : Node} {run : List Token} (hs : n.Solid)
    (h : Run text start n.lexemes run) :
    tokensIn (written text) (n.place (Source.ofText text).locate start).span = run := by
  obtain ⟨first, last, -, -, hspan, hin⟩ := Source.exists_locate h hs.lexemes_ne_nil
  rw [Node.span_place, ← Node.length_lexemes, hspan, hin]

mutual

/-- A placed node is written as its lexemes. -/
theorem Node.emit_place : ∀ (n : Node) (start : Nat) (update : Bool) (run : List Token), n.Solid →
    n.Written update → Run text start n.lexemes run →
    (n.place (Source.ofText text).locate start).emit (written text) update = n.texts
  | .leaf k l, start, update, run, _, _, _ => rfl
  | .error s, start, update, run, hs, _, h => by
    have hin := Node.tokensIn_place hs h
    rw [Node.place, Tree.span] at hin
    rw [Node.place, Tree.emit, hin, h.texts]
    rfl
  | .branch k items, start, update, run, hs, hw, h => by
    have hin := Node.tokensIn_place hs h
    rw [Node.place, Tree.span] at hin
    have hlen : run.length = Item.size items := by
      rw [h.length_eq, Node.lexemes, Item.length_lexemes]
    rw [Node.place, Tree.emit, hin, hlen, Item.emit_place items start run hs.2.2 hw.2 h, hw.1]
    rfl

theorem Item.emit_place : ∀ (items : List Item) (start : Nat) (run : List Token),
    Item.Solid items → Item.Written items → Run text start (Item.lexemes items) run →
    Field.emit (written text) (Item.place (Source.ofText text).locate start items) =
      Item.parts items
  | [], start, run, _, _, _ => rfl
  | .token l :: rest, start, run, hs, hw, h => by
    obtain ⟨t, r, -, hr⟩ := Run.tail h
    exact Item.emit_place rest (start + 1) r hs hw hr
  | .attribute label l :: rest, start, run, hs, hw, h => by
    obtain ⟨t, r, -, hr⟩ := Run.tail h
    exact congrArg _ (Item.emit_place rest (start + 1) r hs hw hr)
  | .child label n :: rest, start, run, hs, hw, h => by
    obtain ⟨r₁, r₂, -, h₁, h₂⟩ := Run.split h
    rw [Node.length_lexemes] at h₂
    rw [Item.place, Field.emit, Node.emit_place n start (label == .update) r₁ hs.1 hw.1 h₁,
      Item.emit_place rest (start + n.size) r₂ hs.2 hw.2 h₂]
    rfl

end

/-- The span of one token covers its text. -/
theorem slice_token {t : Token} (ht : t ∈ written text) :
    (Source.ofText text).slice t.span = t.text := by
  obtain ⟨last, -, hs⟩ := tokenize_scan text
  exact Source.slice_of_isPrefix (hs.placed t ht).2

theorem Node.place_faithful {start : Nat} {n : Node} {update : Bool} {run : List Token}
    (hs : n.Solid) (hw : n.Written update) (h : Run text start n.lexemes run) :
    Faithful (Source.ofText text) (written text) update
      (n.place (Source.ofText text).locate start) := by
  constructor
  · rw [Node.tokensIn_place hs h, Node.emit_place n start update run hs hw h, h.texts]
    rfl
  · intro w hleaf
    cases n with
    | leaf k l =>
      cases hleaf
      obtain ⟨t, rfl⟩ := List.length_eq_one_iff.mp h.length_eq
      have hspan := Source.locate_run h rfl rfl
      obtain ⟨before, after, hwritten, -⟩ := h.within
      have ht : t ∈ written text := by simp [hwritten]
      have htext : [t.text] = [l.text] := h.texts
      rw [Node.place, Tree.span]
      simp only [Node.lexemes, List.length_singleton] at hspan
      rw [hspan]
      exact (slice_token ht).trans (List.cons.inj htext).1
    | error s => cases hleaf
    | branch k items => cases hleaf

mutual

theorem Node.spots_faithful : ∀ (n : Node) (start : Nat) (update : Bool) (run : List Token),
    n.Solid → n.Written update → Run text start n.lexemes run →
    ∀ spot ∈ (n.place (Source.ofText text).locate start).spots update,
      Faithful (Source.ofText text) (written text) spot.1 spot.2
  | .leaf k l, start, update, run, hs, hw, h, spot, hm => by
    rw [List.mem_singleton.mp hm]
    exact Node.place_faithful hs hw h
  | .error s, start, update, run, hs, hw, h, spot, hm => by
    rw [List.mem_singleton.mp hm]
    exact Node.place_faithful hs hw h
  | .branch k items, start, update, run, hs, hw, h, spot, hm => by
    rcases List.mem_cons.mp hm with rfl | hm
    · exact Node.place_faithful hs hw h
    · exact Item.spots_faithful items start run hs.2.2 hw.2 h spot hm

theorem Item.spots_faithful : ∀ (items : List Item) (start : Nat) (run : List Token),
    Item.Solid items → Item.Written items → Run text start (Item.lexemes items) run →
    ∀ spot ∈ Field.spots (Item.place (Source.ofText text).locate start items),
      Faithful (Source.ofText text) (written text) spot.1 spot.2
  | [], start, run, _, _, _, spot, hm => absurd hm List.not_mem_nil
  | .token l :: rest, start, run, hs, hw, h, spot, hm => by
    obtain ⟨t, r, -, hr⟩ := Run.tail h
    exact Item.spots_faithful rest (start + 1) r hs hw hr spot hm
  | .attribute label l :: rest, start, run, hs, hw, h, spot, hm => by
    obtain ⟨t, r, -, hr⟩ := Run.tail h
    exact Item.spots_faithful rest (start + 1) r hs hw hr spot hm
  | .child label n :: rest, start, run, hs, hw, h, spot, hm => by
    obtain ⟨r₁, r₂, -, h₁, h₂⟩ := Run.split h
    rw [Node.length_lexemes] at h₂
    rcases List.mem_append.mp hm with hm | hm
    · exact Node.spots_faithful n start (label == .update) r₁ hs.1 hw.1 h₁ spot hm
    · exact Item.spots_faithful rest (start + n.size) r₂ hs.2 hw.2 h₂ spot hm

end

theorem Node.spots_faithfulAll (label : Label) (nodes : List Node) (start : Nat) (run : List Token)
    (hs : Item.Solid (Item.children label nodes)) (hw : ∀ n ∈ nodes, n.Written false)
    (h : Run text start (Item.lexemes (Item.children label nodes)) run) :
    ∀ spot ∈ (Node.placeAll (Source.ofText text).locate start nodes).flatMap (Tree.spots false),
      Faithful (Source.ofText text) (written text) spot.1 spot.2 := by
  induction nodes generalizing start run with
  | nil => simp [Node.placeAll]
  | cons n nodes ih =>
    intro spot hm
    rw [Item.lexemes_children_cons] at h
    obtain ⟨r₁, r₂, -, h₁, h₂⟩ := h.split
    rw [Node.length_lexemes] at h₂
    rw [Node.placeAll, List.flatMap_cons] at hm
    rcases List.mem_append.mp hm with hm | hm
    · exact Node.spots_faithful n start false r₁ hs.1 (hw n (by simp)) h₁ spot hm
    · exact ih (start + n.size) r₂ hs.2 (fun m hmem => hw m (by simp [hmem])) h₂ spot hm

end Placed

theorem Decl.written_nodes (decls : List Decl) : ∀ n ∈ decls.map Decl.node, n.Written false := by
  intro n hn
  obtain ⟨decl, -, rfl⟩ := List.mem_map.mp hn
  exact decl.written_node

/-- Whatever the text and the limit, every tree in a document, valid or not, is written as the
tokens inside its span. -/
theorem tokens_of_every_tree {levels : Nat} {text : Text} {d : Document}
    (h : Document.parse levels text = .ok d) :
    (d.trees.flatMap (Tree.spots false)).map Prod.snd =
        (Tree.walk (fun _ => true) d.trees).map Visit.tree ∧
      ∀ spot ∈ d.trees.flatMap (Tree.spots false),
        Faithful d.source (written text) spot.1 spot.2 := by
  refine ⟨Tree.spots_walk d.trees, ?_⟩
  obtain ⟨hsource, ha⟩ := Document.account h .value
  have hrun := Source.run_lexemes text
  rw [ha.lexemes, List.append_nil] at hrun
  rw [Document.trees, hsource, Source.placeAll, Source.index, Nat.sub_self]
  exact Node.spots_faithfulAll .value _ 0 _ ha.solid (Decl.written_nodes d.decls) hrun

/-- The parentheses of the hint have no field, and are told from its span. -/
theorem tokens_of_every_tree_bare_hint :
    ∃ d, Document.parse 1 (Text.ofString "uniform int a:nope();") = .ok d ∧
      d.trees.length = 1 ∧
      ((d.trees.flatMap (Tree.spots false)).map Prod.snd =
          (Tree.walk (fun _ => true) d.trees).map Visit.tree ∧
        ∀ spot ∈ d.trees.flatMap (Tree.spots false),
          Faithful d.source (written (Text.ofString "uniform int a:nope();")) spot.1 spot.2) := by
  obtain ⟨d, hd, hlen⟩ := Document.exists_parse 1 (Text.ofString "uniform int a:nope();")
    (fun d => d.trees.length == 1) (by decide +kernel)
  exact ⟨d, hd, eq_of_beq hlen, tokens_of_every_tree hd⟩

end ShaderSyntax
