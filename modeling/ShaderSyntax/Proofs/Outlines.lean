import ShaderSyntax.Proofs.Cleaning
import ShaderSyntax.Proofs.Leaves
import ShaderSyntax.Proofs.Respacing
import ShaderSyntax.Proofs.Tidy
import ShaderSyntax.Tree.Outline

/-!
# Indented dumps and one-line dumps

The indented dump of a file is its one-line dump with line breaks for some of the spaces. A line
starts at each declaration and at each field of a tree that is broken up, and is indented by the
trees around it that are broken up, the file among them. Only a string can bring a line feed of its
own.
-/
namespace ShaderSyntax

/-- The text with a space for every line feed and the spaces behind it. With `skipping` the text is
what follows a line feed. -/
def Text.joinLines (skipping : Bool) : Text → Text
  | [] => []
  | b :: rest =>
    if b = Byte.lineFeed then Byte.space :: joinLines true rest
    else if skipping ∧ b = Byte.space then joinLines true rest
    else b :: joinLines false rest

namespace Tree

/-- The tree has each of its fields on a line. -/
def isBrokenUp (t : Tree) : Bool :=
  !t.isShort

/-- How every dump of a tree starts. -/
def opening (t : Tree) : Text :=
  Byte.openParen :: t.kind.name

end Tree

/-- A place where a line may start. -/
structure LineStart where
  /-- The trees that the line would stand in, the nearest first. -/
  around : List Tree
  /-- What the line would start with. -/
  opening : Text

namespace LineStart

/-- A line does start there: the nearest tree is broken up, or there is none but the file. -/
def isTaken (s : LineStart) : Bool :=
  s.around.head?.all Tree.isBrokenUp

/-- The number of broken-up trees around a line, with the file. -/
def depth (s : LineStart) : Nat :=
  s.around.countP Tree.isBrokenUp + 1

end LineStart

mutual

/-- The fields below a tree, each in the trees around it. -/
def Tree.lineStarts (around : List Tree) : Tree → List LineStart
  | .leaf _ _ _ => []
  | .error _ _ => []
  | .branch k s fields => Field.lineStarts (.branch k s fields :: around) fields

def Field.lineStarts (around : List Tree) : List Field → List LineStart
  | [] => []
  | .attribute label t :: rest => ⟨around, label.lead ++ t⟩ :: Field.lineStarts around rest
  | .child label t :: rest =>
    ⟨around, label.lead ++ t.opening⟩ :: (t.lineStarts around ++ Field.lineStarts around rest)

end

/-- The declarations of a file and the fields below them. -/
def Tree.fileLineStarts (decls : List Tree) : List LineStart :=
  decls.flatMap fun d => ⟨[], d.opening⟩ :: d.lineStarts []

/-- The line is indented for its place, two spaces for each tree, and starts as it should. -/
structure LineStart.Starts (s : LineStart) (line : Text) : Prop where
  indented : line.takeWhile (· == Byte.space) = Text.spaces (2 * s.depth)
  opened : s.opening <+: line.dropWhile (· == Byte.space)

section Lines

variable {t u : Text} {s : LineStart} {more : List LineStart} {level : Nat}

/-- Nothing in it breaks a line, and it does not start with a space. -/
def Text.IsOpening (t : Text) : Prop :=
  Byte.lineFeed ∉ t ∧ ∃ b rest, t = b :: rest ∧ b ≠ Byte.space

theorem Text.joinLines_append (h : Byte.lineFeed ∉ t) :
    joinLines false (t ++ u) = t ++ joinLines false u := by
  induction t with
  | nil => rfl
  | cons b t ih =>
    simp only [List.mem_cons, not_or] at h
    simp [joinLines, Ne.symm h.1, ih h.2]

theorem Text.joinLines_spaces (n : Nat) (h : u.head? ≠ some Byte.space) :
    joinLines true (spaces n ++ u) = joinLines false u := by
  induction n with
  | zero =>
    cases u with
    | nil => rfl
    | cons b u =>
      have hb : b ≠ Byte.space := by simpa using h
      simp [spaces, joinLines, hb]
  | succ n ih =>
    have hspace : Byte.space ≠ Byte.lineFeed := by decide
    rw [spaces, List.replicate_succ, List.cons_append, joinLines, if_neg hspace,
      if_pos ⟨rfl, rfl⟩]
    exact ih

/-- A line break is read as a space. -/
theorem Text.joinLines_lineBreak (ht : t.IsOpening) :
    joinLines false (lineBreak level ++ (t ++ u)) = Byte.space :: joinLines false (t ++ u) := by
  obtain ⟨-, b, rest, rfl, hb⟩ := ht
  rw [lineBreak, List.cons_append, joinLines, if_pos rfl, joinLines_spaces _ (by simpa using hb)]

/-- Pieces without line feeds, and between them a break for each of the line starts. -/
inductive Laid : List LineStart → Text → Prop
  | nil {t : Text} (flat : Byte.lineFeed ∉ t) : Laid [] t
  | cons {t u : Text} {s : LineStart} {more : List LineStart} (flat : Byte.lineFeed ∉ t)
      (opening : s.opening.IsOpening) (rest : Laid more u) :
      Laid (s :: more) (t ++ (lineBreak s.depth ++ (s.opening ++ u)))

theorem Laid.append (h : Laid more u) (ht : Byte.lineFeed ∉ t) : Laid more (t ++ u) := by
  cases h with
  | nil flat => exact .nil (by simp [ht, flat])
  | cons flat opening rest =>
    rw [← List.append_assoc]
    exact .cons (by simp [ht, flat]) opening rest

theorem Laid.lineBreak (h : Laid more u) (hs : s.opening.IsOpening) :
    Laid (s :: more) (lineBreak s.depth ++ (s.opening ++ u)) :=
  .cons (t := []) List.not_mem_nil hs h

theorem LineStart.starts_line (hs : s.opening.IsOpening) (rest : Text) :
    s.Starts (Text.spaces (2 * s.depth) ++ (s.opening ++ rest)) := by
  obtain ⟨-, b, more, ho, hb⟩ := hs
  have hspaces : ∀ c ∈ Text.spaces (2 * s.depth), (c == Byte.space) = true := by
    simp [Text.spaces]
  constructor
  · rw [List.takeWhile_append_of_pos hspaces, ho]
    simp [hb]
  · rw [List.dropWhile_append_of_pos hspaces, ho]
    simp [hb]

/-- The lines of a text that is laid out, after its first, start at the line starts. -/
theorem Laid.split (h : Laid more t) : ∃ first lines,
    Text.split Byte.lineFeed t = first :: lines ∧ List.Forall₂ LineStart.Starts more lines := by
  -- What stands before the first line feed goes on as the text does.
  suffices hline : ∀ head, Byte.lineFeed ∉ head → ∃ first lines,
      Text.split Byte.lineFeed (head ++ t) = (head ++ first) :: lines ∧
        List.Forall₂ LineStart.Starts more lines from hline [] List.not_mem_nil
  induction h with
  | nil flat =>
    intro head hhead
    exact ⟨_, [], Text.split_of_not_mem (by simp [hhead, flat]), .nil⟩
  | @cons t u s more flat opening rest ih =>
    intro head hhead
    obtain ⟨first, lines, hsplit, hlines⟩ :=
      ih (Text.spaces (2 * s.depth) ++ s.opening) (by
        simp [Text.spaces, opening.1, show Byte.lineFeed ≠ Byte.space by decide])
    refine ⟨t, _, ?_, .cons (s.starts_line opening first) hlines⟩
    rw [← List.append_assoc, ShaderSyntax.lineBreak, List.cons_append,
      Text.split_append_cons (by simp [hhead, flat]), ← List.append_assoc, hsplit,
      List.append_assoc]

end Lines

mutual

/-- No leaf and no attribute holds a line feed. -/
def Tree.Flat : Tree → Prop
  | .leaf _ _ t => Byte.lineFeed ∉ t
  | .error _ _ => True
  | .branch _ _ fields => Field.Flat fields

def Field.Flat : List Field → Prop
  | [] => True
  | .attribute _ t :: rest => Byte.lineFeed ∉ t ∧ Field.Flat rest
  | .child _ t :: rest => t.Flat ∧ Field.Flat rest

end

section Dumps

theorem Kind.lineFeed_not_mem_name (k : Kind) : Byte.lineFeed ∉ k.name := by
  have hall : ∀ k ∈ all, Byte.lineFeed ∉ k.name := by decide +kernel
  exact hall k (mem_all k)

theorem Label.isOpening_lead (l : Label) : l.lead.IsOpening := by
  have hall : ∀ l ∈ all, Byte.lineFeed ∉ l.lead ∧ ∀ b ∈ l.lead.head?, b ≠ Byte.space := by
    decide +kernel
  obtain ⟨hflat, hhead⟩ := hall l (mem_all l)
  have hne : l.lead ≠ [] := by simp [lead, show Text.ofString ": " ≠ [] by decide]
  obtain ⟨b, rest, hl⟩ := List.exists_cons_of_ne_nil hne
  exact ⟨hflat, b, rest, hl, hhead b (by simp [hl])⟩

theorem Text.IsOpening.append {t u : Text} (h : t.IsOpening) (hu : Byte.lineFeed ∉ u) :
    (t ++ u).IsOpening := by
  obtain ⟨hflat, b, rest, rfl, hb⟩ := h
  exact ⟨by simpa [hu] using hflat, b, rest ++ u, rfl, hb⟩

theorem Tree.isOpening_opening (t : Tree) : t.opening.IsOpening :=
  ⟨by simp [opening, t.kind.lineFeed_not_mem_name, show Byte.lineFeed ≠ Byte.openParen by decide],
    _, _, rfl, by decide⟩

theorem lineFeed_not_mem_parens {inner : Text} (h : Byte.lineFeed ∉ inner) :
    Byte.lineFeed ∉ parens inner := by
  simp [parens_eq, h, show Byte.lineFeed ≠ Byte.openParen by decide,
    show Byte.lineFeed ≠ Byte.closeParen by decide]

mutual

/-- A flat tree is dumped in one line. -/
theorem Tree.Flat.sexpr : ∀ t : Tree, t.Flat → Byte.lineFeed ∉ t.sexpr
  | .leaf k s t, h => by
    have hspace : Byte.lineFeed ∉ Text.ofString " " := by decide
    have hflat : Byte.lineFeed ∉ t := h
    exact lineFeed_not_mem_parens (by simp [k.lineFeed_not_mem_name, hspace, hflat])
  | .error _ _, _ => lineFeed_not_mem_parens Kind.error.lineFeed_not_mem_name
  | .branch k s fields, h =>
    lineFeed_not_mem_parens (by simp [k.lineFeed_not_mem_name, Field.Flat.sexprs fields h])

theorem Field.Flat.sexprs : ∀ fields : List Field, Field.Flat fields →
    Byte.lineFeed ∉ Field.sexprs fields
  | [], _ => List.not_mem_nil
  | .attribute label t :: rest, h => by
    have hspace : Byte.lineFeed ∉ Text.ofString " " := by decide
    simp [Field.sexprs, hspace, label.isOpening_lead.1, h.1, Field.Flat.sexprs rest h.2]
  | .child label t :: rest, h => by
    have hspace : Byte.lineFeed ∉ Text.ofString " " := by decide
    simp [Field.sexprs, hspace, label.isOpening_lead.1, Tree.Flat.sexpr t h.1,
      Field.Flat.sexprs rest h.2]

end

mutual

/-- The indented dump of a flat tree, its lines joined, is the one-line dump. -/
theorem Tree.joinLines_outline : ∀ (t : Tree) (level : Nat) (u : Text), t.Flat →
    Text.joinLines false (t.outline level ++ u) = t.sexpr ++ Text.joinLines false u
  | .leaf k s t, level, u, h => Text.joinLines_append (Tree.Flat.sexpr _ h)
  | .error s m, level, u, h => Text.joinLines_append (Tree.Flat.sexpr _ h)
  | .branch k s fields, level, u, h => by
    rw [Tree.outline]
    split
    · exact Text.joinLines_append (Tree.Flat.sexpr _ h)
    · have hopening := (Tree.branch k s fields).isOpening_opening.1
      have hclose : Byte.lineFeed ∉ [Byte.closeParen] := by decide
      have hparens : ∀ inner u : Text, parens (k.name ++ inner) ++ u =
          (Tree.branch k s fields).opening ++ (inner ++ ([Byte.closeParen] ++ u)) := by
        simp [parens_eq, Tree.opening, Tree.kind]
      rw [hparens, Text.joinLines_append hopening, Field.joinLines_outlines fields level _ h,
        Text.joinLines_append hclose, Tree.sexpr, hparens]

theorem Field.joinLines_outlines : ∀ (fields : List Field) (level : Nat) (u : Text),
    Field.Flat fields → Text.joinLines false (Field.outlines level fields ++ u) =
      Field.sexprs fields ++ Text.joinLines false u
  | [], level, u, _ => rfl
  | .attribute label t :: rest, level, u, h => by
    simp only [Field.outlines, Field.sexprs, List.append_assoc, ofString_space]
    rw [Text.joinLines_lineBreak label.isOpening_lead,
      Text.joinLines_append label.isOpening_lead.1, Text.joinLines_append h.1,
      Field.joinLines_outlines rest level u h.2]
    rfl
  | .child label t :: rest, level, u, h => by
    simp only [Field.outlines, Field.sexprs, List.append_assoc, ofString_space]
    rw [Text.joinLines_lineBreak label.isOpening_lead,
      Text.joinLines_append label.isOpening_lead.1, Tree.joinLines_outline t (level + 1) _ h.1,
      Field.joinLines_outlines rest level u h.2]
    rfl

end

section Short

theorem Tree.isShort_of_children {t : Tree} (h : t.children = []) : t.isShort = true := by
  simp [isShort, h]

theorem Field.around_of_tree?_eq_none {fields : List Field} (h : ∀ f ∈ fields, f.tree? = none)
    (around : List Tree) : ∀ s ∈ Field.lineStarts around fields, s.around = around := by
  induction fields with
  | nil => exact List.forall_mem_nil _
  | cons f fields ih =>
    obtain ⟨hf, hfields⟩ := List.forall_mem_cons.mp h
    rcases f with ⟨label, t⟩ | ⟨label, t⟩
    · exact List.forall_mem_cons.mpr ⟨rfl, ih hfields⟩
    · cases hf

theorem Tree.around_of_children {t : Tree} (h : t.children = []) (around : List Tree) :
    ∀ s ∈ t.lineStarts around, s.around = t :: around := by
  cases t with
  | leaf k s t => exact List.forall_mem_nil _
  | error s m => exact List.forall_mem_nil _
  | branch k s fields => exact Field.around_of_tree?_eq_none (List.filterMap_eq_nil_iff.mp h) _

/-- Where no tree has trees two levels below it, the nearest tree around a line is the owner, or has
no trees below it. -/
theorem Field.around_of_children {fields : List Field}
    (h : ∀ label c, Field.child label c ∈ fields → c.children = []) (around : List Tree) :
    ∀ s ∈ Field.lineStarts around fields,
      s.around = around ∨ ∃ c : Tree, s.around = c :: around ∧ c.children = [] := by
  induction fields with
  | nil => exact List.forall_mem_nil _
  | cons f fields ih =>
    have hfields := ih fun label c hc => h label c (List.mem_cons_of_mem _ hc)
    rcases f with ⟨label, t⟩ | ⟨label, t⟩
    · exact List.forall_mem_cons.mpr ⟨.inl rfl, hfields⟩
    · have ht := h label t List.mem_cons_self
      refine List.forall_mem_cons.mpr ⟨.inl rfl, fun s hs => ?_⟩
      rcases List.mem_append.mp hs with hs | hs
      · exact .inr ⟨t, t.around_of_children ht around s hs, ht⟩
      · exact hfields s hs

/-- No line starts inside a tree that is not broken up: a tree in it has no trees below it, and is
not broken up either. -/
theorem Tree.lineStarts_of_isShort {t : Tree} (h : t.isShort = true) (around : List Tree) :
    (t.lineStarts around).filter LineStart.isTaken = [] := by
  have hbroken : ∀ c : Tree, c.isShort = true → c.isBrokenUp = false := fun c hc => by
    rw [isBrokenUp, hc]
    rfl
  rw [List.filter_eq_nil_iff]
  cases t with
  | leaf k s t => exact List.forall_mem_nil _
  | error s m => exact List.forall_mem_nil _
  | branch k span fields =>
    have hchildren : ∀ label c, Field.child label c ∈ fields → c.children = [] := by
      intro label c hc
      have hmem : c ∈ (Tree.branch k span fields).children :=
        List.mem_filterMap.mpr ⟨_, hc, rfl⟩
      simp only [isShort, Bool.or_eq_true, Bool.and_eq_true] at h
      rcases h with h | ⟨-, h⟩
      · rw [List.isEmpty_iff] at h
        rw [show fields = [] from h] at hc
        cases hc
      · exact List.isEmpty_iff.mp (List.all_eq_true.mp h c hmem)
    intro s hs
    rcases Field.around_of_children hchildren _ s hs with hs | ⟨c, hs, hc⟩
    · simp [LineStart.isTaken, hs, hbroken _ h]
    · simp [LineStart.isTaken, hs, hbroken c (isShort_of_children hc)]

end Short

/-- What stays on one line starts no other. -/
theorem Tree.laid_sexpr {t : Tree} (ht : t.Flat) {more : List LineStart} {u : Text}
    (hu : Laid more u) : ∃ v, t.sexpr ++ u = t.opening ++ v ∧ Laid more v := by
  refine ⟨t.tail ++ u, ?_, hu.append fun hm => ?_⟩
  · rw [sexpr_eq, opening, List.cons_append, List.append_assoc, List.cons_append]
  · have hflat := Tree.Flat.sexpr t ht
    rw [sexpr_eq] at hflat
    exact hflat (List.mem_cons_of_mem _ (List.mem_append_right _ hm))

mutual

/-- The indented dump of a flat tree has a line for each field of a tree that is broken up. -/
theorem Tree.laid_outline : ∀ (t : Tree) (around : List Tree) (more : List LineStart) (u : Text),
    t.Flat → Laid more u → ∃ v,
      t.outline (around.countP Tree.isBrokenUp + 2) ++ u = t.opening ++ v ∧
        Laid ((t.lineStarts around).filter LineStart.isTaken ++ more) v
  | .leaf k s t, around, more, u, h, hu => Tree.laid_sexpr (t := .leaf k s t) h hu
  | .error s m, around, more, u, h, hu => Tree.laid_sexpr (t := .error s m) h hu
  | .branch k s fields, around, more, u, h, hu => by
    cases hshort : (Tree.branch k s fields).isShort with
    | true =>
      rw [Tree.outline, if_pos hshort, Tree.lineStarts_of_isShort hshort]
      exact Tree.laid_sexpr h hu
    | false =>
      have hbroken : (Tree.branch k s fields).isBrokenUp = true := by
        rw [Tree.isBrokenUp, hshort]
        rfl
      have hclose : Laid more ([Byte.closeParen] ++ u) := hu.append (by decide)
      have hlaid := Field.laid_outlines fields (.branch k s fields :: around) _ _ h hbroken hclose
      rw [List.countP_cons_of_pos hbroken] at hlaid
      refine ⟨_, ?_, hlaid⟩
      simp [Tree.outline, hshort, parens_eq, Tree.opening, Tree.kind]

theorem Field.laid_outlines : ∀ (fields : List Field) (around : List Tree)
    (more : List LineStart) (u : Text), Field.Flat fields →
    around.head?.all Tree.isBrokenUp = true → Laid more u →
      Laid ((Field.lineStarts around fields).filter LineStart.isTaken ++ more)
        (Field.outlines (around.countP Tree.isBrokenUp + 1) fields ++ u)
  | [], _, _, _, _, _, hu => hu
  | .attribute label t :: rest, around, more, u, h, ha, hu => by
    have hrest := Field.laid_outlines rest around more u h.2 ha hu
    have hline := hrest.lineBreak (s := ⟨around, label.lead ++ t⟩)
      (label.isOpening_lead.append h.1)
    have htaken : LineStart.isTaken ⟨around, label.lead ++ t⟩ = true := ha
    rw [Field.lineStarts, List.filter_cons_of_pos htaken]
    simpa [Field.outlines, LineStart.depth] using hline
  | .child label t :: rest, around, more, u, h, ha, hu => by
    have hrest := Field.laid_outlines rest around more u h.2 ha hu
    obtain ⟨v, hv, hlaid⟩ := Tree.laid_outline t around _ _ h.1 hrest
    have hline := hlaid.lineBreak (s := ⟨around, label.lead ++ t.opening⟩)
      (label.isOpening_lead.append t.isOpening_opening.1)
    have htaken : LineStart.isTaken ⟨around, label.lead ++ t.opening⟩ = true := ha
    rw [Field.lineStarts, List.filter_cons_of_pos htaken, Field.outlines]
    simp only [List.append_assoc, hv]
    simpa [LineStart.depth] using hline

end

/-- The declarations of a file, each on a line. -/
def Tree.outlineAll (decls : List Tree) : Text :=
  decls.flatMap fun d => lineBreak 1 ++ d.outline 2

theorem Tree.laid_outlineAll {decls : List Tree} (h : ∀ d ∈ decls, d.Flat) {u : Text}
    (hu : Byte.lineFeed ∉ u) :
    Laid ((fileLineStarts decls).filter LineStart.isTaken) (outlineAll decls ++ u) := by
  induction decls with
  | nil => exact .nil hu
  | cons d decls ih =>
    obtain ⟨hd, hdecls⟩ := List.forall_mem_cons.mp h
    obtain ⟨v, hv, hlaid⟩ := d.laid_outline [] _ _ hd (ih hdecls)
    have hline := hlaid.lineBreak (s := ⟨[], d.opening⟩) d.isOpening_opening
    have htaken : LineStart.isTaken ⟨[], d.opening⟩ = true := rfl
    rw [fileLineStarts, List.flatMap_cons, List.cons_append, List.filter_cons_of_pos htaken,
      List.filter_append, outlineAll, List.flatMap_cons, List.append_assoc, List.append_assoc]
    exact hv ▸ hline

theorem Tree.joinLines_outlineAll {decls : List Tree} (h : ∀ d ∈ decls, d.Flat) (u : Text) :
    Text.joinLines false (outlineAll decls ++ u) =
      (decls.flatMap fun d => Text.ofString " " ++ d.sexpr) ++ Text.joinLines false u := by
  induction decls with
  | nil => rfl
  | cons d decls ih =>
    obtain ⟨hd, hdecls⟩ := List.forall_mem_cons.mp h
    obtain ⟨v, hv, -⟩ := d.laid_outline [] [] [] hd (.nil List.not_mem_nil)
    have hopened : d.outline 2 = d.opening ++ v := by simpa using hv
    have hbreak : ∀ w, Text.joinLines false (lineBreak 1 ++ (d.outline 2 ++ w)) =
        Byte.space :: Text.joinLines false (d.outline 2 ++ w) := by
      intro w
      rw [hopened, List.append_assoc]
      exact Text.joinLines_lineBreak d.isOpening_opening
    have hrest := ih hdecls
    simp only [outlineAll, List.flatMap_cons, List.append_assoc, ofString_space] at hrest ⊢
    rw [hbreak, d.joinLines_outline 2 _ hd, hrest]
    rfl

theorem lineFeed_not_mem_fileKind : Byte.lineFeed ∉ Byte.openParen :: fileKind := by
  decide

/-- The indented dump of flat trees, but for the line feed at its end. -/
theorem Tree.printFile_of_flat {decls : List Tree} (h : ∀ d ∈ decls, d.Flat) :
    ∃ body, printFile decls = body ++ [Byte.lineFeed] ∧
      Text.joinLines false body = fileSexpr decls ∧
      ∃ first lines, Text.split Byte.lineFeed body = first :: lines ∧
        List.Forall₂ LineStart.Starts ((fileLineStarts decls).filter LineStart.isTaken) lines := by
  have hclose : Byte.lineFeed ∉ [Byte.closeParen] := by decide
  have hparens : ∀ inner, parens (fileKind ++ inner) =
      (Byte.openParen :: fileKind) ++ (inner ++ [Byte.closeParen]) := by
    simp [parens_eq]
  refine ⟨parens (fileKind ++ outlineAll decls), rfl, ?_, ?_⟩
  · rw [hparens, Text.joinLines_append lineFeed_not_mem_fileKind, joinLines_outlineAll h,
      ← List.append_nil [Byte.closeParen], Text.joinLines_append hclose, fileSexpr, hparens]
    rfl
  · rw [hparens]
    exact ((laid_outlineAll h hclose).append lineFeed_not_mem_fileKind).split

end Dumps

section Documents

/-- The leaf and the attributes of the tree itself hold no line feed. -/
def Tree.OwnFlat (t : Tree) : Prop :=
  (∀ w, t.leafText? = some w → Byte.lineFeed ∉ w) ∧
    ∀ label w, Field.attribute label w ∈ t.fields → Byte.lineFeed ∉ w

mutual

theorem Tree.flat_of_visits : ∀ (t : Tree) (parent? : Option Tree),
    (∀ v ∈ t.visits (fun _ => true) parent?, v.tree.OwnFlat) → t.Flat
  | .leaf _ _ t, _, h => (h _ (List.mem_singleton_self _)).1 t rfl
  | .error _ _, _, _ => trivial
  | .branch _ _ fields, _, h =>
    Field.flat_of_visits fields _ (fun v hv => h v (List.mem_cons_of_mem _ hv))
      (h _ List.mem_cons_self).2

theorem Field.flat_of_visits : ∀ (fields : List Field) (parent? : Option Tree),
    (∀ v ∈ Field.visits (fun _ => true) parent? fields, v.tree.OwnFlat) →
    (∀ label w, Field.attribute label w ∈ fields → Byte.lineFeed ∉ w) → Field.Flat fields
  | [], _, _, _ => trivial
  | .attribute _ w :: rest, parent?, h, hw =>
    ⟨hw _ w List.mem_cons_self, Field.flat_of_visits rest parent? h fun label' w' hm =>
      hw label' w' (List.mem_cons_of_mem _ hm)⟩
  | .child _ t :: rest, parent?, h, hw =>
    ⟨Tree.flat_of_visits t parent? fun v hv => h v (List.mem_append_left _ hv),
      Field.flat_of_visits rest parent? (fun v hv => h v (List.mem_append_right _ hv))
        fun label' w' hm => hw label' w' (List.mem_cons_of_mem _ hm)⟩

end

theorem Field.Legible.plain {fields : List Field} (h : Field.Legible fields) {label : Label}
    {w : Text} (hw : Field.attribute label w ∈ fields) : w.Plain := by
  induction fields with
  | nil => cases hw
  | cons f fields ih =>
    rcases f with ⟨label', w'⟩ | ⟨label', t⟩
    · rcases List.mem_cons.mp hw with heq | hw
      · cases heq
        exact h.1
      · exact ih h.2 hw
    · exact ih h.2 (by simpa using hw)

/-- The text of an attribute is that of a lexeme of its node. -/
theorem Item.exists_lexeme_of_attribute {locate : Nat → Nat → Span Nat} {items : List Item}
    {start : Nat} {label : Label} {w : Text}
    (h : Field.attribute label w ∈ Item.place locate start items) :
    ∃ l ∈ Item.lexemes items, w = l.text := by
  induction items generalizing start with
  | nil => cases h
  | cons x items ih =>
    rcases x with l | ⟨label', l⟩ | ⟨label', n⟩
    · obtain ⟨m, hm, hw⟩ := ih h
      exact ⟨m, List.mem_cons_of_mem _ hm, hw⟩
    · rcases List.mem_cons.mp h with heq | h
      · cases heq
        exact ⟨l, List.mem_cons_self, rfl⟩
      · obtain ⟨m, hm, hw⟩ := ih h
        exact ⟨m, List.mem_cons_of_mem _ hm, hw⟩
    · obtain ⟨m, hm, hw⟩ := ih (by simpa [Item.place] using h)
      exact ⟨m, List.mem_append_right _ hm, hw⟩

theorem Run.mem_lexemes {text : Text} {start : Nat} {ls : List Lexeme} {run : List Token}
    (h : Run text start ls run) : ∀ l ∈ ls, l ∈ (Source.ofText text).lexemes := by
  intro l hl
  obtain ⟨before, after, hwritten, -⟩ := h.within
  rw [← h.lexemes_run] at hl
  rw [← (Source.run_lexemes text).lexemes_run, hwritten]
  simp only [ShaderSyntax.lexemes, List.filterMap_append] at hl ⊢
  exact List.mem_append_right _ (List.mem_append_left _ hl)

/-- Of the lexemes of a source only strings hold line feeds. -/
theorem Source.isQuoted_of_lineFeed {text : Text} {l : Lexeme}
    (hl : l ∈ (ofText text).lexemes) (h : Byte.lineFeed ∈ l.text) :
    l.kind = .string ∧ IsQuoted l.text := by
  obtain ⟨rest, hbare, hfirst⟩ := readable_lexemes text l hl
  exact Lexeme.isQuoted_of_isBlankByte hbare hfirst h rfl

theorem Role.kind?_string {role : Role} {next : Option Lexeme} {raw : Text} {k : Kind}
    (h : role.kind? next (.string raw) = some k) : k = .string := by
  cases role <;> cases h
  rfl

namespace Document

variable {levels : Nat} {text : Text} {d : Document}

/-- Where no string holds a line feed, no leaf and no attribute does: the others are words, numbers
and marks. -/
theorem ownFlat_of_mem_walk (h : parse levels text = .ok d)
    (hstring : ∀ v ∈ Tree.walk (fun _ => true) d.trees, v.tree.kind = .string →
      ∀ w ∈ v.tree.leafText?, Byte.lineFeed ∉ w) :
    ∀ v ∈ Tree.walk (fun _ => true) d.trees, v.tree.OwnFlat := by
  intro v hv
  refine ⟨fun w hw hmem => ?_, fun label w hw hmem => ?_⟩
  · obtain ⟨u, hu, label, -, hholds⟩ := exists_owner_of_leaf h hv (by simp [hw])
    cases htree : v.tree with
    | leaf k span word =>
      obtain rfl : word = w := by simpa [htree, Tree.leafText?] using hw
      rw [htree] at hholds
      obtain ⟨i, l, hl, -, rfl, hkind⟩ := walk_inRoles h u hu label k span word hholds
      rw [Source.lexeme?_token] at hl
      obtain ⟨hstr, -⟩ := Source.isQuoted_of_lineFeed (List.mem_of_getElem? hl) hmem
      have hk : k = .string := by
        cases l with
        | string raw => exact Role.kind?_string hkind
        | word w =>
          simp only [Lexeme.kind] at hstr
          split at hstr <;> cases hstr
        | _ => cases hstr
      exact hstring v hv (by rw [htree]; exact hk) _ hw hmem
    | error s m => simp [htree, Tree.leafText?] at hw
    | branch k s fields => simp [htree, Tree.leafText?] at hw
  · have hlegible := Tree.legible_of_mem_walk (legible_trees h) v hv
    obtain ⟨n, -, start, run, -, hrun, htree⟩ := walk_placed h v hv
    rw [htree] at hw hlegible
    cases n with
    | leaf k l => cases hw
    | error s => cases hw
    | branch k items =>
      have hplain := Field.Legible.plain hlegible.2 hw
      obtain ⟨l, hl, rfl⟩ := Item.exists_lexeme_of_attribute hw
      obtain ⟨-, inner, he, -⟩ := Source.isQuoted_of_lineFeed (hrun.mem_lexemes l hl) hmem
      have hquote := hplain Byte.quote (by simp [he])
      cases hquote

end Document

/-- The two dumps of a file agree. Where no string in the trees holds a line feed, the indented dump
without its last line feed has the one-line dump for its joined lines, and its lines after the first
are the declarations and the fields of the broken-up trees, each indented for its place. -/
theorem printFile_joins {levels : Nat} {text : Text} {d : Document}
    (h : Document.parse levels text = .ok d)
    (hstring : ∀ v ∈ Tree.walk (fun _ => true) d.trees, v.tree.kind = .string →
      ∀ w ∈ v.tree.leafText?, Byte.lineFeed ∉ w) :
    ∃ body, Tree.printFile d.trees = body ++ [Byte.lineFeed] ∧
      Text.joinLines false body = Tree.fileSexpr d.trees ∧
      ∃ first lines, Text.split Byte.lineFeed body = first :: lines ∧
        List.Forall₂ LineStart.Starts
          ((Tree.fileLineStarts d.trees).filter LineStart.isTaken) lines := by
  refine Tree.printFile_of_flat fun t ht => Tree.flat_of_visits t none fun v hv => ?_
  exact Document.ownFlat_of_mem_walk h hstring v (List.mem_flatMap.mpr ⟨t, ht, hv⟩)

/-- A string that breaks no line, and a function whose parameter, body, statement and value are
broken up. -/
theorem printFile_joins_function :
    let text := Text.ofString "#include \"a b\"\nvoid f(int n) \x7b\n  return n * 2;\n\x7d\n"
    ∃ d, Document.parse 9 text = .ok d ∧
      ((Tree.fileLineStarts d.trees).filter LineStart.isTaken).map LineStart.depth =
        [1, 1, 2, 2, 2, 3, 3, 2, 3, 4, 5, 5, 5] ∧
      ∃ body, Tree.printFile d.trees = body ++ [Byte.lineFeed] ∧
        Text.joinLines false body = Tree.fileSexpr d.trees ∧
        ∃ first lines, Text.split Byte.lineFeed body = first :: lines ∧
          List.Forall₂ LineStart.Starts
            ((Tree.fileLineStarts d.trees).filter LineStart.isTaken) lines := by
  intro text
  obtain ⟨d, hd, hcheck⟩ := Document.exists_parse 9 text
    (fun d => decide (∀ v ∈ Tree.walk (fun _ => true) d.trees, v.tree.kind = .string →
      ∀ w ∈ v.tree.leafText?, Byte.lineFeed ∉ w) &&
      ((Tree.fileLineStarts d.trees).filter LineStart.isTaken).map LineStart.depth ==
        [1, 1, 2, 2, 2, 3, 3, 2, 3, 4, 5, 5, 5]) (by decide +kernel)
  obtain ⟨hstring, hdepths⟩ := Bool.and_eq_true_iff.mp hcheck
  exact ⟨d, hd, eq_of_beq hdepths, printFile_joins hd (of_decide_eq_true hstring)⟩

end Documents

end ShaderSyntax
