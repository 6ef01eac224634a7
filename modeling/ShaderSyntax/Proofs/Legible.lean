import ShaderSyntax.Proofs.Delimiters
import ShaderSyntax.Tree.SExpr
import ShaderSyntax.Tree.Walk

/-!
# Legible trees

A tree can be read off its one-line dump, up to the places and the messages of errors, where its words
are plain and its strings are closed. The dump tells where each part of it ends, so two trees that are
dumped alike before any two texts are alike, and so are the texts.
-/
namespace ShaderSyntax

mutual

/-- The tree without its places and without the messages of its errors. -/
def Tree.bare : Tree → Tree
  | .leaf k _ t => .leaf k ⟨0, 0⟩ t
  | .error _ _ => .error ⟨0, 0⟩ []
  | .branch k _ fields => .branch k ⟨0, 0⟩ (Field.bares fields)

def Field.bares : List Field → List Field
  | [] => []
  | .attribute label t :: rest => .attribute label t :: Field.bares rest
  | .child label t :: rest => .child label t.bare :: Field.bares rest

end

mutual

/-- Places and messages are not dumped. -/
theorem Tree.sexpr_bare : ∀ t : Tree, t.bare.sexpr = t.sexpr
  | .leaf _ _ _ => rfl
  | .error _ _ => rfl
  | .branch k s fields => by rw [Tree.bare, Tree.sexpr, Tree.sexpr, Field.sexprs_bares fields]

theorem Field.sexprs_bares : ∀ fields : List Field,
    Field.sexprs (Field.bares fields) = Field.sexprs fields
  | [] => rfl
  | .attribute label t :: rest => by
    rw [Field.bares, Field.sexprs, Field.sexprs, Field.sexprs_bares rest]
  | .child label t :: rest => by
    rw [Field.bares, Field.sexprs, Field.sexprs, Tree.sexpr_bare t, Field.sexprs_bares rest]

end

theorem Tree.fileSexpr_bares (ts : List Tree) : fileSexpr (ts.map bare) = fileSexpr ts := by
  simp [fileSexpr, List.flatMap_map, sexpr_bare]

mutual

/-- Leaves are legible, attributes are plain, and no tree with fields is an error. -/
def Tree.Legible : Tree → Prop
  | .leaf _ _ t => t.Legible
  | .error _ _ => True
  | .branch k _ fields => k ≠ .error ∧ Field.Legible fields

def Field.Legible : List Field → Prop
  | [] => True
  | .attribute _ t :: rest => t.Plain ∧ Field.Legible rest
  | .child _ t :: rest => t.Legible ∧ Field.Legible rest

end

mutual

/-- What a walk through a legible tree meets is legible. -/
theorem Tree.Legible.visits (enter : Tree → Bool) : ∀ (t : Tree) (parent? : Option Tree),
    t.Legible → ∀ v ∈ t.visits enter parent?, v.tree.Legible
  | .leaf k s x, parent?, h, v, hv => by
    rw [List.mem_singleton.mp hv]
    exact h
  | .error s m, parent?, h, v, hv => by
    rw [List.mem_singleton.mp hv]
    exact h
  | .branch k s fields, parent?, h, v, hv => by
    rcases List.mem_cons.mp hv with rfl | hv
    · exact h
    · split at hv
      · exact Field.Legible.visits enter fields _ h.2 v hv
      · cases hv

theorem Field.Legible.visits (enter : Tree → Bool) : ∀ (fields : List Field)
    (parent? : Option Tree), Field.Legible fields →
    ∀ v ∈ Field.visits enter parent? fields, v.tree.Legible
  | [], _, _, v, hv => absurd hv List.not_mem_nil
  | .attribute label t :: rest, parent?, h, v, hv =>
    Field.Legible.visits enter rest parent? h.2 v hv
  | .child label t :: rest, parent?, h, v, hv => by
    rcases List.mem_append.mp hv with hv | hv
    · exact Tree.Legible.visits enter t parent? h.1 v hv
    · exact Field.Legible.visits enter rest parent? h.2 v hv

end

theorem Tree.legible_of_mem_walk {enter : Tree → Bool} {roots : List Tree}
    (h : ∀ t ∈ roots, t.Legible) : ∀ v ∈ walk enter roots, v.tree.Legible := by
  intro v hv
  obtain ⟨t, ht, hv⟩ := List.mem_flatMap.mp hv
  exact Tree.Legible.visits enter t none (h t ht) v hv

section Reading

open Byte (isDelimiter openParen closeParen colon space)

/-- What stands in a dump after the kind. -/
def Tree.tail : Tree → Text
  | .leaf _ _ t => space :: (t ++ [closeParen])
  | .error _ _ => [closeParen]
  | .branch _ _ fields => Field.sexprs fields ++ [closeParen]

/-- What stands in a dump after the label. -/
def Field.value : Field → Text
  | .attribute _ t => t
  | .child _ t => t.sexpr

theorem ofString_space : Text.ofString " " = [space] := by
  decide

theorem parens_eq (inner : Text) : parens inner = openParen :: (inner ++ [closeParen]) := by
  have hopen : Text.ofString "(" = [openParen] := by decide
  have hclose : Text.ofString ")" = [closeParen] := by decide
  simp [parens, hopen, hclose]

theorem Tree.sexpr_eq (t : Tree) : t.sexpr = openParen :: (t.kind.name ++ t.tail) := by
  cases t <;> simp [sexpr, parens_eq, ofString_space, tail, kind]

theorem Field.sexprs_cons (f : Field) (rest : List Field) :
    Field.sexprs (f :: rest) =
      space :: (f.label.name ++ colon :: space :: (f.value ++ Field.sexprs rest)) := by
  have hcolon : Text.ofString ": " = [colon, space] := by decide
  cases f <;> simp [sexprs, Label.lead, Field.value, Field.label, ofString_space, hcolon]

/-- Behind the fields stands a space or a parenthesis. -/
theorem Field.meets_sexprs (fields : List Field) (r : Text) :
    Text.Meets isDelimiter (Field.sexprs fields ++ closeParen :: r) := by
  cases fields with
  | nil => exact Text.meets_cons (by decide) r
  | cons f rest =>
    rw [sexprs_cons]
    exact Text.meets_cons (by decide) _

theorem Tree.meets_tail (t : Tree) (r : Text) : Text.Meets isDelimiter (t.tail ++ r) := by
  cases t with
  | leaf k s x => exact Text.meets_cons (by decide) _
  | error s m => exact Text.meets_cons (by decide) _
  | branch k s fields =>
    rw [tail, List.append_assoc]
    exact Field.meets_sexprs fields r

variable {r s : Text}

/-- The kind ends where a delimiter stands. -/
theorem Tree.kind_eq_of_sexpr {t u : Tree} (h : t.sexpr ++ r = u.sexpr ++ s) :
    t.kind = u.kind ∧ t.tail ++ r = u.tail ++ s := by
  rw [sexpr_eq, sexpr_eq] at h
  simp only [List.cons_append, List.append_assoc, List.cons.injEq, true_and] at h
  obtain ⟨hname, htail⟩ :=
    t.kind.plain_name.append_inj u.kind.plain_name (t.meets_tail r) (u.meets_tail s) h
  exact ⟨Kind.name_inj hname, htail⟩

/-- The label ends where the colon stands. -/
theorem Field.label_eq_of_sexprs {f g : Field} {fs gs : List Field}
    (h : Field.sexprs (f :: fs) ++ closeParen :: r = Field.sexprs (g :: gs) ++ closeParen :: s) :
    f.label = g.label ∧
      f.value ++ (Field.sexprs fs ++ closeParen :: r) =
        g.value ++ (Field.sexprs gs ++ closeParen :: s) := by
  rw [sexprs_cons, sexprs_cons] at h
  simp only [List.cons_append, List.append_assoc, List.cons.injEq, true_and] at h
  obtain ⟨hname, hrest⟩ := f.label.plain_name.append_inj g.label.plain_name
    (Text.meets_cons (by decide) _) (Text.meets_cons (by decide) _) h
  exact ⟨Label.name_inj hname, by simpa using hrest⟩

/-- A leaf is not dumped as a tree with fields: its text is not before a colon. -/
theorem Text.Legible.ne_sexprs {x : Text} (hx : x.Legible) (fields : List Field) :
    space :: (x ++ closeParen :: r) ≠ Field.sexprs fields ++ closeParen :: s := by
  cases fields with
  | nil =>
    intro h
    cases h
  | cons f rest =>
    rw [Field.sexprs_cons]
    intro h
    simp only [List.cons_append, List.append_assoc, List.cons.injEq, true_and] at h
    exact hx.ne_labelled f.label.plain_name h

/-- A tree is not dumped as a plain text: it starts with a parenthesis. -/
theorem Text.Plain.ne_sexpr {x : Text} (hx : x.Plain) (hr : Text.Meets isDelimiter r)
    (hne : r.head? ≠ some openParen) (t : Tree) : x ++ r ≠ t.sexpr ++ s := by
  intro h
  rw [Tree.sexpr_eq] at h
  have hnil : Text.Plain [] := by decide
  obtain ⟨-, h⟩ := hx.append_inj hnil hr (Text.meets_cons (by decide) _) h
  rw [h] at hne
  exact hne rfl

theorem Field.head?_sexprs (fields : List Field) (r : Text) :
    (Field.sexprs fields ++ closeParen :: r).head? ≠ some openParen := by
  cases fields with
  | nil => simp [sexprs, show closeParen ≠ openParen by decide]
  | cons f rest => simp [sexprs_cons, show space ≠ openParen by decide]

mutual

/-- A tree is told by its dump, and so is what follows the dump. -/
theorem Tree.bare_eq_of_sexpr : ∀ (t u : Tree) (r s : Text), t.Legible → u.Legible →
    t.sexpr ++ r = u.sexpr ++ s → t.bare = u.bare ∧ r = s
  | .leaf k _ x, .leaf l _ y, r, s, ht, hu, h => by
    obtain ⟨hk, htail⟩ : k = l ∧ _ := Tree.kind_eq_of_sexpr h
    have htext : x ++ closeParen :: r = y ++ closeParen :: s := by simpa [Tree.tail] using htail
    obtain ⟨hxy, hrest⟩ := Text.Legible.append_inj ht hu htext
    exact ⟨by rw [Tree.bare, Tree.bare, hk, hxy], hrest⟩
  | .leaf _ _ _, .error _ _, r, s, _, _, h => by
    have h := (Tree.kind_eq_of_sexpr h).2
    cases h
  | .leaf _ _ x, .branch _ _ fields, r, s, ht, _, h => by
    have h := (Tree.kind_eq_of_sexpr h).2
    exact absurd (by simpa [Tree.tail] using h) (Text.Legible.ne_sexprs ht fields)
  | .error _ _, .leaf _ _ _, r, s, _, _, h => by
    have h := (Tree.kind_eq_of_sexpr h).2
    cases h
  | .error _ _, .error _ _, r, s, _, _, h => by
    have h := (Tree.kind_eq_of_sexpr h).2
    exact ⟨rfl, by simpa [Tree.tail] using h⟩
  | .error _ _, .branch k _ fields, r, s, _, hu, h => by
    have hk := (Tree.kind_eq_of_sexpr h).1
    exact absurd hk.symm hu.1
  | .branch _ _ fields, .leaf _ _ x, r, s, _, hu, h => by
    have h := (Tree.kind_eq_of_sexpr h).2
    exact absurd (by simpa [Tree.tail] using h.symm) (Text.Legible.ne_sexprs hu fields)
  | .branch k _ fields, .error _ _, r, s, ht, _, h => by
    have hk := (Tree.kind_eq_of_sexpr h).1
    exact absurd hk ht.1
  | .branch k _ fs, .branch l _ gs, r, s, ht, hu, h => by
    obtain ⟨hk, htail⟩ : k = l ∧ _ := Tree.kind_eq_of_sexpr h
    have hsexprs : Field.sexprs fs ++ closeParen :: r = Field.sexprs gs ++ closeParen :: s := by
      simpa [Tree.tail] using htail
    obtain ⟨hfields, hrest⟩ := Field.bares_eq_of_sexprs fs gs r s ht.2 hu.2 hsexprs
    exact ⟨by rw [Tree.bare, Tree.bare, hk, hfields], hrest⟩

theorem Field.bares_eq_of_sexprs : ∀ (fs gs : List Field) (r s : Text), Field.Legible fs →
    Field.Legible gs → Field.sexprs fs ++ closeParen :: r = Field.sexprs gs ++ closeParen :: s →
    Field.bares fs = Field.bares gs ∧ r = s
  | [], [], r, s, _, _, h => ⟨rfl, List.tail_eq_of_cons_eq h⟩
  | [], g :: gs, r, s, _, _, h => by
    rw [Field.sexprs_cons] at h
    cases h
  | f :: fs, [], r, s, _, _, h => by
    rw [Field.sexprs_cons] at h
    cases h
  | .attribute label x :: fs, .attribute label' y :: gs, r, s, hf, hg, h => by
    obtain ⟨hl, hvalue⟩ : label = label' ∧ _ := Field.label_eq_of_sexprs h
    obtain ⟨hxy, hmore⟩ :=
      hf.1.append_inj hg.1 (Field.meets_sexprs fs r) (Field.meets_sexprs gs s) hvalue
    obtain ⟨hfields, hrest⟩ := Field.bares_eq_of_sexprs fs gs r s hf.2 hg.2 hmore
    exact ⟨by rw [Field.bares, Field.bares, hl, hxy, hfields], hrest⟩
  | .attribute label x :: fs, .child label' u :: gs, r, s, hf, _, h => by
    have h := (Field.label_eq_of_sexprs h).2
    exact absurd h (Text.Plain.ne_sexpr hf.1 (Field.meets_sexprs fs r) (Field.head?_sexprs fs r) u)
  | .child label t :: fs, .attribute label' y :: gs, r, s, _, hg, h => by
    have h := (Field.label_eq_of_sexprs h).2
    exact absurd h.symm (Text.Plain.ne_sexpr hg.1 (Field.meets_sexprs gs s) (Field.head?_sexprs gs s) t)
  | .child label t :: fs, .child label' u :: gs, r, s, hf, hg, h => by
    obtain ⟨hl, hvalue⟩ : label = label' ∧ _ := Field.label_eq_of_sexprs h
    obtain ⟨htree, hmore⟩ := Tree.bare_eq_of_sexpr t u _ _ hf.1 hg.1 hvalue
    obtain ⟨hfields, hrest⟩ := Field.bares_eq_of_sexprs fs gs r s hf.2 hg.2 hmore
    exact ⟨by rw [Field.bares, Field.bares, hl, htree, hfields], hrest⟩

end

/-- The dump of a whole file tells the trees and their number. -/
theorem Tree.bares_eq_of_fileSexpr {ts us : List Tree} (ht : ∀ t ∈ ts, t.Legible)
    (hu : ∀ u ∈ us, u.Legible) (h : fileSexpr ts = fileSexpr us) : ts.map bare = us.map bare := by
  replace h : ts.flatMap (fun t => space :: t.sexpr) ++ [closeParen] =
      us.flatMap (fun u => space :: u.sexpr) ++ [closeParen] := by
    simpa [fileSexpr, parens_eq, ofString_space] using h
  induction ts generalizing us with
  | nil =>
    cases us with
    | nil => rfl
    | cons u us => cases h
  | cons t ts ih =>
    cases us with
    | nil => cases h
    | cons u us =>
      simp only [List.flatMap_cons, List.cons_append, List.append_assoc, List.cons.injEq,
        true_and] at h
      obtain ⟨htree, hrest⟩ := bare_eq_of_sexpr t u _ _ (ht t (by simp)) (hu u (by simp)) h
      have hmore := ih (fun x hx => ht x (by simp [hx])) (fun x hx => hu x (by simp [hx])) hrest
      rw [List.map_cons, List.map_cons, htree, hmore]

end Reading

end ShaderSyntax
