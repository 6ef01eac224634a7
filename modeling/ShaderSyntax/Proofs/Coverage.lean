import Mathlib.Data.List.Forall2
import Mathlib.Data.List.Nodup
import ShaderSyntax.Proofs.Placing
import ShaderSyntax.Proofs.Reading.Declaration

/-!
# Coverage

The declarations of a document divide its tokens among themselves: each covers a run of at least one
token, and the runs make up the whole stream in order. So every token lies in exactly one of them.
-/
namespace ShaderSyntax

/-- The tree reaches from the start of the first token of the run to the end of the last. -/
def Covers (tree : Tree) (run : List Token) : Prop :=
  ∃ first last, run.head? = some first ∧ run.getLast? = some last ∧
    tree.span = ⟨first.span.start, last.span.stop⟩

theorem Covers.ne_nil {tree : Tree} {run : List Token} (h : Covers tree run) : run ≠ [] := by
  obtain ⟨first, -, hf, -⟩ := h
  rintro rfl
  cases hf

namespace Item

theorem lexemes_children_cons (label : Label) (n : Node) (nodes : List Node) :
    lexemes (children label (n :: nodes)) = n.lexemes ++ lexemes (children label nodes) := rfl

theorem size_children_cons (label : Label) (n : Node) (nodes : List Node) :
    size (children label (n :: nodes)) = n.size + size (children label nodes) := rfl

end Item

theorem Node.Solid.lexemes_ne_nil {n : Node} (h : n.Solid) : n.lexemes ≠ [] := by
  intro hn
  have hpos := h.size_pos
  rw [← Node.length_lexemes, hn] at hpos
  exact Nat.lt_irrefl 0 hpos

/-- A solid node that is placed on a run covers it. -/
theorem Node.place_covers {text : Text} {start : Nat} {n : Node} {run : List Token}
    (hs : n.Solid) (h : Run text start n.lexemes run) :
    Covers (n.place (Source.ofText text).locate start) run := by
  obtain ⟨first, last, hf, hl, hspan, -⟩ := Source.exists_locate h hs.lexemes_ne_nil
  refine ⟨first, last, hf, hl, ?_⟩
  rw [Node.span_place, ← Node.length_lexemes]
  exact hspan

/-- Nodes placed one after the other cover consecutive runs. -/
theorem Node.placeAll_covers {text : Text} {start : Nat} {label : Label} {nodes : List Node}
    {run : List Token} (hs : Item.Solid (Item.children label nodes))
    (h : Run text start (Item.lexemes (Item.children label nodes)) run) :
    ∃ runs, runs.flatten = run ∧
      List.Forall₂ Covers (Node.placeAll (Source.ofText text).locate start nodes) runs := by
  induction nodes generalizing start run with
  | nil =>
    have hr : run = [] := List.length_eq_zero_iff.mp h.length_eq
    exact ⟨[], hr.symm, .nil⟩
  | cons n nodes ih =>
    rw [Item.lexemes_children_cons] at h
    obtain ⟨hn, hns⟩ := hs
    obtain ⟨r₁, r₂, rfl, h₁, h₂⟩ := h.split
    rw [Node.length_lexemes] at h₂
    obtain ⟨runs, rfl, hc⟩ := ih hns h₂
    exact ⟨r₁ :: runs, rfl, .cons (Node.place_covers hn h₁) hc⟩

theorem Document.trees_eq_placeAll {text : Text} {d : Document} (h : d.source = .ofText text) :
    d.trees = Node.placeAll (Source.ofText text).locate 0 (d.decls.map Decl.node) := by
  rw [trees, h, Source.placeAll, Source.index, Nat.sub_self]

/-- The declarations of a document are placed one after the other, on all tokens of its text. -/
theorem Document.trees_placed {levels : Nat} {text : Text} {d : Document}
    (h : Document.parse levels text = .ok d) :
    d.trees = Node.placeAll (Source.ofText text).locate 0 (d.decls.map Decl.node) ∧
      Item.Solid (Item.children .value (d.decls.map Decl.node)) ∧
      Run text 0 (Item.lexemes (Item.children .value (d.decls.map Decl.node))) (written text) := by
  obtain ⟨hsource, ha⟩ := Document.account h .value
  have hrun := Source.run_lexemes text
  rw [ha.lexemes, List.append_nil] at hrun
  exact ⟨trees_eq_placeAll hsource, ha.solid, hrun⟩

/-- The declarations of a document cover the tokens of its text in consecutive runs. -/
theorem Document.trees_cover {levels : Nat} {text : Text} {d : Document}
    (h : Document.parse levels text = .ok d) :
    ∃ runs, runs.flatten = written text ∧ List.Forall₂ Covers d.trees runs := by
  obtain ⟨htrees, hsolid, hrun⟩ := Document.trees_placed h
  rw [htrees]
  exact Node.placeAll_covers hsolid hrun

/-- A token lies in a tree that covers a run exactly if it is one of the run. -/
theorem Covers.contains_iff {tree : Tree} {before run after : List Token} {t : Token}
    (h : Covers tree run) (ho : Ordered (before ++ (run ++ after)))
    (ht : t ∈ before ++ (run ++ after)) : tree.span.contains t.span = true ↔ t ∈ run := by
  obtain ⟨first, last, hf, hl, hs⟩ := h
  have hin : t ∈ tokensIn (before ++ (run ++ after)) tree.span ↔ t ∈ run := by
    rw [hs, ho.tokensIn_run hf hl]
  rw [← hin, tokensIn, List.mem_filter]
  exact ⟨fun hc => ⟨ht, hc⟩, fun hc => hc.2⟩

theorem Covers.start_lt_stop {tree : Tree} {run : List Token} (h : Covers tree run)
    (ho : Ordered run) : tree.span.start < tree.span.stop := by
  obtain ⟨first, last, hf, hl, hs⟩ := h
  have hm := List.mem_of_head? hf
  have := ho.start_lt_stop first hm
  have := ho.le_stop hl hm
  rw [hs]
  change first.span.start < last.span.stop
  omega

/-- The trees divide the tokens among themselves. -/
structure Divides (trees : List Tree) (tokens : List Token) : Prop where
  /-- The tokens are runs in a row, one for each tree. -/
  runs : ∃ runs, runs.flatten = tokens ∧ List.Forall₂ Covers trees runs
  first : trees.head?.map (fun a => a.span.start) = tokens.head?.map fun t => t.span.start
  /-- Where one tree stops, the next starts with the next token. -/
  next : ∀ (i : Nat) a b, trees[i]? = some a → trees[i + 1]? = some b →
    ∃ (j : Nat) (t u : Token), tokens[j]? = some t ∧ tokens[j + 1]? = some u ∧
      a.span.stop = t.span.stop ∧ b.span.start = u.span.start
  last : trees.getLast?.map (fun a => a.span.stop) = tokens.getLast?.map fun t => t.span.stop
  empty : trees = [] ↔ tokens = []
  unique : ∀ t ∈ tokens, ∃! i : Nat, ∃ a, trees[i]? = some a ∧ a.span.contains t.span = true
  start_lt_stop : ∀ a ∈ trees, a.span.start < a.span.stop

section Runs

variable {trees : List Tree} {runs : List (List Token)}

theorem covers_first (h : List.Forall₂ Covers trees runs) :
    trees.head?.map (fun a => a.span.start) = runs.flatten.head?.map fun t => t.span.start := by
  cases h with
  | nil => rfl
  | @cons a run trees runs hc _ =>
    obtain ⟨first, last, hf, -, hs⟩ := hc
    simp [List.head?_append, hf, hs]

theorem covers_last (h : List.Forall₂ Covers trees runs) :
    trees.getLast?.map (fun a => a.span.stop) = runs.flatten.getLast?.map fun t => t.span.stop := by
  induction h with
  | nil => rfl
  | @cons a run trees runs hc hcs ih =>
    obtain ⟨first, last, -, hl, hs⟩ := hc
    cases hcs with
    | nil => simp [hl, hs]
    | @cons b run' trees runs hc' _ =>
      obtain ⟨first', last', -, hl', -⟩ := id hc'
      have hsome : (run' :: runs).flatten.getLast?.isSome := by
        rw [List.flatten_cons, List.getLast?_append, hl']
        cases runs.flatten.getLast? <;> rfl
      have hlast : (run :: run' :: runs).flatten.getLast? = (run' :: runs).flatten.getLast? := by
        obtain ⟨t, ht⟩ := Option.isSome_iff_exists.mp hsome
        rw [List.flatten_cons, List.getLast?_append, ht]
        rfl
      rw [List.getLast?_cons_cons, ih, hlast]

theorem covers_empty (h : List.Forall₂ Covers trees runs) : trees = [] ↔ runs.flatten = [] := by
  cases h with
  | nil => simp
  | cons hc _ => simp [hc.ne_nil]

theorem covers_next (h : List.Forall₂ Covers trees runs) (i : Nat) (a b : Tree)
    (ha : trees[i]? = some a) (hb : trees[i + 1]? = some b) :
    ∃ j t u, runs.flatten[j]? = some t ∧ runs.flatten[j + 1]? = some u ∧
      a.span.stop = t.span.stop ∧ b.span.start = u.span.start := by
  induction h generalizing i with
  | nil => simp at ha
  | @cons c run trees runs hc hcs ih =>
    cases i with
    | zero =>
      -- The last token of the first run stands right before the first token of the second.
      cases hcs with
      | nil => simp at hb
      | @cons c' run' trees runs hc' _ =>
        simp only [List.getElem?_cons_zero, Option.some.injEq, Nat.zero_add,
          List.getElem?_cons_succ] at ha hb
        subst ha hb
        obtain ⟨first, last, -, hl, hs⟩ := hc
        obtain ⟨first', last', hf', -, hs'⟩ := hc'
        obtain ⟨init, rfl⟩ := List.getLast?_eq_some_iff.mp hl
        obtain ⟨more, rfl⟩ := List.head?_eq_some_iff.mp hf'
        exact ⟨init.length, last, first', by simp, by simp, by rw [hs], by rw [hs']⟩
    | succ i =>
      simp only [List.getElem?_cons_succ] at ha hb
      obtain ⟨j, t, u, ht, hu, hs⟩ := ih i ha hb
      refine ⟨run.length + j, t, u, ?_, ?_, hs⟩
      · rw [List.flatten_cons, List.getElem?_append_right (by omega), Nat.add_sub_cancel_left, ht]
      · rw [List.flatten_cons, List.getElem?_append_right (by omega), Nat.add_assoc,
          Nat.add_sub_cancel_left, hu]

theorem covers_get (h : List.Forall₂ Covers trees runs) (i : Nat) (a : Tree)
    (ha : trees[i]? = some a) : ∃ run, runs[i]? = some run ∧ Covers a run := by
  induction h generalizing i with
  | nil => simp at ha
  | @cons c run trees runs hc hcs ih =>
    cases i with
    | zero =>
      simp only [List.getElem?_cons_zero, Option.some.injEq] at ha
      subst ha
      exact ⟨run, rfl, hc⟩
    | succ i => exact ih i ha

theorem flatten_split {i : Nat} {run : List Token} (h : runs[i]? = some run) :
    runs.flatten = (runs.take i).flatten ++ (run ++ (runs.drop (i + 1)).flatten) := by
  obtain ⟨hi, rfl⟩ := List.getElem?_eq_some_iff.mp h
  conv => lhs; rw [← List.take_append_drop i runs, List.drop_eq_getElem_cons hi]
  rw [List.flatten_append, List.flatten_cons]

/-- Where nothing comes twice in lists in a row, an element stands in one of them only. -/
theorem existsUnique_of_mem_flatten {α : Type} {lists : List (List α)} (h : lists.flatten.Nodup)
    {a : α} (ha : a ∈ lists.flatten) : ∃! i : Nat, ∃ l, lists[i]? = some l ∧ a ∈ l := by
  obtain ⟨l, hl, hal⟩ := List.mem_flatten.mp ha
  obtain ⟨i, hi, rfl⟩ := List.getElem_of_mem hl
  refine ⟨i, ⟨lists[i], List.getElem?_eq_getElem hi, hal⟩, ?_⟩
  rintro k ⟨other, hk?, hak⟩
  obtain ⟨hk, rfl⟩ := List.getElem?_eq_some_iff.mp hk?
  have hdisjoint := List.pairwise_iff_getElem.mp (List.nodup_flatten.mp h).2
  rcases Nat.lt_trichotomy k i with hlt | heq | hgt
  · exact (hdisjoint k i hk hi hlt hak hal).elim
  · exact heq
  · exact (hdisjoint i k hi hk hgt hal hak).elim

/-- A token of the stream lies in the tree that covers its run, and in no other. -/
theorem covers_unique (h : List.Forall₂ Covers trees runs) (ho : Ordered runs.flatten) (t : Token)
    (ht : t ∈ runs.flatten) :
    ∃! i : Nat, ∃ a, trees[i]? = some a ∧ a.span.contains t.span = true := by
  have hiff : ∀ (i : Nat) (a : Tree) (run : List Token), Covers a run → runs[i]? = some run →
      (a.span.contains t.span = true ↔ t ∈ run) := by
    intro i a run hc hr
    have hsplit := flatten_split hr
    rw [hsplit] at ho ht
    exact hc.contains_iff ho ht
  obtain ⟨i, ⟨run, hrun, htr⟩, hunique⟩ := existsUnique_of_mem_flatten ho.nodup ht
  obtain ⟨hi, -⟩ := List.getElem?_eq_some_iff.mp hrun
  have hlen := h.length_eq
  have htree : trees[i]? = some trees[i] := List.getElem?_eq_getElem (by omega)
  obtain ⟨run', hrun', hc⟩ := covers_get h i trees[i] htree
  rw [hrun] at hrun'
  cases hrun'
  refine ⟨i, ⟨trees[i], htree, (hiff i _ run hc hrun).mpr htr⟩, ?_⟩
  rintro k ⟨a, ha, hcon⟩
  obtain ⟨other, hother, hc'⟩ := covers_get h k a ha
  exact hunique k ⟨other, hother, (hiff k a other hc' hother).mp hcon⟩

theorem covers_start_lt_stop (h : List.Forall₂ Covers trees runs) (ho : Ordered runs.flatten)
    (a : Tree) (ha : a ∈ trees) : a.span.start < a.span.stop := by
  obtain ⟨i, hi⟩ := List.mem_iff_getElem?.mp ha
  obtain ⟨run, hr, hc⟩ := covers_get h i a hi
  rw [flatten_split hr] at ho
  exact hc.start_lt_stop ho.mid

end Runs

/-- Whatever the text and the limit, the declarations of a document divide the tokens of its text
among themselves. -/
theorem declarations_divide_tokens {levels : Nat} {text : Text} {d : Document}
    (h : Document.parse levels text = .ok d) : Divides d.trees (written text) := by
  obtain ⟨runs, hr, hc⟩ := Document.trees_cover h
  have ho := written_ordered text
  rw [← hr] at ho ⊢
  exact ⟨⟨runs, rfl, hc⟩, covers_first hc, covers_next hc, covers_last hc, covers_empty hc,
    covers_unique hc ho, covers_start_lt_stop hc ho⟩

/-- A check on the document of a text, so that it can be evaluated. -/
theorem Document.exists_parse (levels : Nat) (text : Text) (p : Document → Bool)
    (h : (Document.parse levels text).toOption.any p = true) :
    ∃ d, Document.parse levels text = .ok d ∧ p d = true := by
  cases hd : Document.parse levels text with
  | error e => simp [hd, Except.toOption] at h
  | ok d => exact ⟨d, rfl, by simpa [hd, Except.toOption] using h⟩

/-- A variable outside any function is an error node, and still one of two runs. -/
theorem declarations_divide_tokens_stray_variable :
    ∃ d, Document.parse 1 (Text.ofString "int a;\nshader_type spatial;") = .ok d ∧
      d.trees.length = 2 ∧
      Divides d.trees (written (Text.ofString "int a;\nshader_type spatial;")) := by
  obtain ⟨d, hd, hlen⟩ := Document.exists_parse 1 (Text.ofString "int a;\nshader_type spatial;")
    (fun d => d.trees.length == 2) (by decide +kernel)
  exact ⟨d, hd, eq_of_beq hlen, declarations_divide_tokens hd⟩

end ShaderSyntax
