import ShaderSyntax.Proofs.Completeness.Declaration
import ShaderSyntax.Proofs.Fidelity
import ShaderSyntax.Proofs.Invalid
import ShaderSyntax.Proofs.Spacing

/-!
# Round trip

Declarations that are written out, with single spaces between their texts, are parsed again. The
reader finds the lexemes, the grammar finds the declarations, and the trees of the document are
written as the texts that the source was made of.
-/
namespace ShaderSyntax

namespace Decl

/-- What declarations are written as, text by text. -/
def texts (decls : List Decl) : List Text :=
  decls.flatMap fun d => d.node.texts

/-- The source that the texts make with single spaces between them. -/
def spaced (decls : List Decl) : Text :=
  List.intercalate [Byte.space] (texts decls)

/-- Every word, number and string is spelled as one. -/
def wellSpelled (d : Decl) : Bool :=
  d.node.lexemes.all Lexeme.wellSpelled

theorem texts_eq (decls : List Decl) :
    texts decls = (decls.flatMap fun d => d.node.lexemes).map Lexeme.text := by
  simp only [texts, Node.texts, List.map_flatMap]

theorem lexemes_spaced {decls : List Decl} (h : ∀ d ∈ decls, d.wellSpelled = true) :
    (Source.ofText (spaced decls)).lexemes = decls.flatMap fun d => d.node.lexemes := by
  rw [spaced, texts_eq]
  apply Source.lexemes_ofText_spaced
  intro l hl
  obtain ⟨d, hd, hmem⟩ := List.mem_flatMap.mp hl
  exact List.all_eq_true.mp (h d hd) l hmem

end Decl

theorem Node.emit_placeAll {text : Text} {label : Label} {nodes : List Node} {start : Nat}
    {run : List Token} (hs : Item.Solid (Item.children label nodes))
    (hw : ∀ n ∈ nodes, n.Written false)
    (h : Run text start (Item.lexemes (Item.children label nodes)) run) :
    (Node.placeAll (Source.ofText text).locate start nodes).flatMap
        (Tree.emit (written text) false) = nodes.flatMap Node.texts := by
  induction nodes generalizing start run with
  | nil => rfl
  | cons n nodes ih =>
    rw [Item.lexemes_children_cons] at h
    obtain ⟨r₁, r₂, -, h₁, h₂⟩ := h.split
    rw [Node.length_lexemes] at h₂
    obtain ⟨hn, hnodes⟩ := List.forall_mem_cons.mp hw
    rw [Node.placeAll, List.flatMap_cons, List.flatMap_cons,
      Node.emit_place n start false r₁ hs.1 hn h₁, ih hs.2 hnodes h₂]

namespace Document

variable {levels : Nat} {text : Text} {d : Document}

/-- The trees of a document are written as its declarations are. -/
theorem emit_trees (h : Document.parse levels text = .ok d) :
    d.trees.flatMap (Tree.emit (written text) false) = Decl.texts d.decls := by
  obtain ⟨htrees, hsolid, hrun⟩ := Document.trees_placed h
  rw [htrees, Node.emit_placeAll hsolid (Decl.written_nodes d.decls) hrun, List.flatMap_map]
  rfl

/-- A document without findings has no invalid tree anywhere. -/
theorem walk_valid (h : Document.parse levels text = .ok d) (hf : d.findings = []) :
    ∀ v ∈ Tree.walk (fun _ => true) d.trees, v.tree.isInvalid = false := by
  have hnone : d.invalidTrees = [] := by simp [invalidTrees, Source.invalidTrees, hf]
  rw [invalidTrees_walk h] at hnone
  intro v hv
  have hall := List.filter_eq_nil_iff.mp hnone v.tree (List.mem_map.mpr ⟨v, hv, rfl⟩)
  exact Bool.eq_false_iff.mpr hall

end Document

/-- The document holds the declarations and nothing else, and has nothing wrong in it. -/
structure Restores (decls : List Decl) (d : Document) : Prop where
  restored : d.decls = decls
  diagnostics : d.diagnostics = []
  hasErrors : d.hasErrors = false
  valid : ∀ v ∈ Tree.walk (fun _ => true) d.trees, v.tree.isInvalid = false
  emitted : d.trees.flatMap (Tree.emit (written (Decl.spaced decls)) false) = Decl.texts decls

/-- Canonical and well spelled declarations are what parsing makes of the texts they are written as,
with whatever limit they fit in. -/
theorem parse_spaced {levels : Nat} {decls : List Decl}
    (hc : ∀ d ∈ decls, d.canonical = true) (hs : ∀ d ∈ decls, d.wellSpelled = true)
    (hd : ∀ d ∈ decls, d.depth ≤ levels) :
    ∃ d, Document.parse levels (Decl.spaced decls) = .ok d ∧ Restores decls d := by
  have hparse : Document.parse levels (Decl.spaced decls) =
      .ok ⟨.ofText (Decl.spaced decls), decls, []⟩ := by
    rw [Document.parse, Document.ofSource, Decl.lexemes_spaced hs,
      Grammar.declarations_done hc hd]
  exact ⟨_, hparse, rfl, rfl, rfl, Document.walk_valid hparse rfl, Document.emit_trees hparse⟩

/-- A function whose `else` stands after two conditions, with a block around the inner one. -/
def elseAfterBlock : List Decl :=
  let a := Name.valid .plain (Text.ofString "a")
  let f := Name.valid .plain (Text.ofString "f")
  let zero := Expr.number (.int (Text.ofString "0"))
  [.function (.builtin (Text.ofString "void")) f []
    [.ifElse (.name a) (.block [.ifThen (.name f) (.returnValue none)])
      (.perform (.assign (.subscript (.name a) zero) .add (.unary .neg zero)))]]

theorem parse_spaced_elseAfterBlock :
    Decl.spaced elseAfterBlock =
        Text.ofString "void f ( ) { if ( a ) { if ( f ) return ; } else a [ 0 ] += - 0 ; }" ∧
      ∃ d, Document.parse 4 (Decl.spaced elseAfterBlock) = .ok d ∧ Restores elseAfterBlock d := by
  refine ⟨by decide +kernel, ?_⟩
  exact parse_spaced (by decide +kernel) (by decide +kernel) (by decide +kernel)

end ShaderSyntax
