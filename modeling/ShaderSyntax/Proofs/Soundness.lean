import ShaderSyntax.Proofs.Every
import ShaderSyntax.Proofs.Judging.Declaration
import ShaderSyntax.Proofs.Reading.Declaration
import ShaderSyntax.Proofs.Shape.Declaration

/-!
# Clean syntax is canonical

What the grammar yields is in shape, judged and within the limit, whatever is wrong with it. If
nothing is wrong with it, that makes it canonical: a parse without findings gives only declarations
that the grammar gives back from their own lexemes.
-/
namespace ShaderSyntax

/-- No invalid word and no error node. -/
def Condition.clean : Condition :=
  ⟨fun k _ => k.isInvalid = false, False, fun _ => True⟩

@[simp] theorem Condition.lexeme_clean (l : Lexeme) : Condition.clean.lexeme l := trivial

abbrev Node.Clean (n : Node) : Prop :=
  n.Every .clean

abbrev Item.Clean (items : List Item) : Prop :=
  Item.Every .clean items

mutual

/-- A node without sites is clean. -/
theorem Node.clean_of_sites : ∀ (n : Node) (after : Nat), n.sites after = [] → n.Clean
  | .leaf k l, after, h => by
    cases hk : k.isInvalid with
    | false => exact hk
    | true => simp [Node.sites, hk] at h
  | .error s, after, h => by simp [Node.sites] at h
  | .branch k items, after, h => Item.clean_of_sites items after h

theorem Item.clean_of_sites : ∀ (items : List Item) (after : Nat), Item.sites after items = [] →
    Item.Clean items
  | [], _, _ => trivial
  | .token _ :: rest, after, h => ⟨trivial, Item.clean_of_sites rest after h⟩
  | .attribute _ _ :: rest, after, h => ⟨trivial, Item.clean_of_sites rest after h⟩
  | .child _ n :: rest, after, h => by
    obtain ⟨hn, hr⟩ := List.append_eq_nil_iff.mp h
    exact ⟨Node.clean_of_sites n _ hn, Item.clean_of_sites rest after hr⟩

end

section Words

theorem Name.canonical_of_clean {n : Name} (hj : n.Judged) (hc : n.node.Clean) :
    n.canonical = true := by
  cases n with
  | valid cls w =>
    have hn : Name.valid cls w = ofWord w := hj
    unfold ofWord at hn
    split at hn
    · next hw =>
      injection hn with hcls
      simp [canonical, hcls, hw]
    · cases hn
  | invalid cls w => cases hc

theorem Term.canonical_of_clean {t : Term} {cls : WordClass} {good bad : Kind}
    (hbad : bad.isInvalid = true) (hj : t.Judged cls) (hc : (t.node good bad).Clean) :
    t.canonical cls = true := by
  cases t with
  | known w =>
    have ht : Term.known w = ofWord cls w := hj
    unfold ofWord at ht
    split at ht
    · next hw => simp [canonical, hw]
    · cases ht
  | unknown w => exact absurd (hbad.symm.trans hc) (by decide)

theorem TypeRef.canonical_of_clean {t : TypeRef} (hj : t.Judged) (hc : t.node.Clean) :
    t.canonical = true := by
  induction t with
  | builtin w =>
    have ht : TypeRef.builtin w = ofWord w := hj
    unfold ofWord at ht
    split at ht
    · next hr => simp [canonical, hr]
    · cases ht
    · cases ht
  | named w =>
    have ht : TypeRef.named w = ofWord w := hj
    unfold ofWord at ht
    split at ht
    · cases ht
    · next hr => simp [canonical, hr]
    · cases ht
  | invalid cls w => cases hc
  | array base size ih => exact ih hj hc.1

theorem Specifier.canonical_of_clean {s : Specifier} (hj : s.Judged) (hc : Item.Clean s.items) :
    s.canonical = true := by
  simp only [Specifier.canonical, Bool.and_eq_true]
  exact ⟨TypeRef.canonical_of_clean hj.type hc.1, Name.canonical_of_clean hj.name hc.2.1⟩

end Words

namespace Expr

variable {e : Expr}

/-- Without errors, what binds tightly enough is what the grammar writes there. -/
theorem isSuffixed_of_clean (h : e.node.kind.looseness = 0) (hc : e.node.Clean) :
    e.isSuffixed = true := by
  cases e with
  | error s => rw [node] at hc; exact hc.elim
  | typeName | qualified | unary | binary | conditional => rw [node] at h; cases h
  | _ => rfl

theorem isOperand_of_clean (h : e.node.kind.looseness ≤ 1) (hc : e.node.Clean) :
    e.isOperand = true := by
  cases e with
  | error s => rw [node] at hc; exact hc.elim
  | typeName | qualified | binary | conditional => simp [node, Node.kind, Kind.looseness] at h
  | _ => rfl

theorem isChain_of_clean (h : e.node.kind.looseness ≤ 2) (hc : e.node.Clean) :
    e.isChain = true := by
  cases e with
  | error s => rw [node] at hc; exact hc.elim
  | typeName | qualified | conditional => simp [node, Node.kind, Kind.looseness] at h
  | _ => rfl

theorem isFull_of_clean (h : e.node.kind.looseness ≤ 3) (hc : e.node.Clean) :
    e.isFull = true := by
  cases e with
  | error s => rw [node] at hc; exact hc.elim
  | typeName | qualified => simp [node, Node.kind, Kind.looseness] at h
  | _ => rfl

theorem isCallee_of_clean (h : Kind.admits .callExpr .function e.node.kind = true)
    (hc : e.node.Clean) : e.isCallee = true := by
  cases e with
  | typeName w => rfl
  | error s => rw [node] at hc; exact hc.elim
  | qualified | unary | binary | conditional => rw [node] at h; cases h
  | _ => rfl

theorem isArgument_of_clean (h : Kind.admits .callExpr .argument e.node.kind = true)
    (hc : e.node.Clean) : e.isArgument = true := by
  cases e with
  | error s => rw [node] at hc; exact hc.elim
  | typeName w => rw [node] at h; cases h
  | _ => rfl

mutual

theorem canonical_of_clean : ∀ (e : Expr) (called : Bool), e.node.Shaped → e.node.Clean →
    e.Judged called → e.canonical = true
  | name n, called, _, hc, hj => by
    rw [node] at hc
    rw [Judged] at hj
    rw [canonical]
    exact Name.canonical_of_clean hj.1 hc
  | number n, _, _, _, _ => by rw [canonical]
  | bool b, _, _, _, _ => by rw [canonical]
  | typeName w, called, _, _, hj => by
    rw [Judged] at hj
    simp [canonical, hj.2]
  | error s, _, _, hc, _ => by
    rw [node] at hc
    exact hc.elim
  | paren e, _, hs, hc, hj => by
    rw [node] at hs hc
    rw [Judged] at hj
    obtain ⟨hk, hs⟩ : Kind.admits .parenExpr .value e.node.kind = true ∧ e.node.Shaped := by
      simpa using hs.2
    have hc : e.node.Clean := by simpa using hc
    simp only [canonical, Bool.and_eq_true]
    exact ⟨isFull_of_clean (by simpa [Kind.admits] using hk) hc, canonical_of_clean e false hs hc hj⟩
  | array es, _, hs, hc, hj => by
    rw [node] at hs hc
    rw [Judged] at hj
    have hne : es ≠ [] := by
      rintro rfl
      obtain ⟨n, hn⟩ := hs.1.filled .value (by simp [Kind.required])
      simp [nodes, Item.separated, Item.mark] at hn
    have hs : ∀ e ∈ es, Kind.admits .arrayLiteralExpr .value e.node.kind = true ∧
        e.node.Shaped := by simpa [nodes_eq_map] using hs.2
    have hc : ∀ e ∈ es, e.node.Clean := by
      simpa [nodes_eq_map] using hc
    simp only [canonical, Bool.and_eq_true, Bool.not_eq_true', List.all_eq_true]
    refine ⟨⟨by simpa using hne, ?_⟩, canonicals_of_clean es (fun e he => (hs e he).2) hc hj⟩
    intro e he
    exact isFull_of_clean (by simpa [Kind.admits] using (hs e he).1) (hc e he)
  | call f es, _, hs, hc, hj => by
    rw [node] at hs hc
    rw [Judged] at hj
    obtain ⟨⟨hkf, hsf⟩, hs⟩ : (Kind.admits .callExpr .function f.node.kind = true ∧
        f.node.Shaped) ∧ ∀ e ∈ es, Kind.admits .callExpr .argument e.node.kind = true ∧
        e.node.Shaped := by simpa [nodes_eq_map] using hs.2
    obtain ⟨hcf, hc⟩ : f.node.Clean ∧ ∀ e ∈ es, e.node.Clean := by
      simpa [nodes_eq_map] using hc
    simp only [canonical, Bool.and_eq_true, List.all_eq_true]
    refine ⟨⟨⟨isCallee_of_clean hkf hcf, canonical_of_clean f true hsf hcf hj.1⟩, ?_⟩,
      canonicals_of_clean es (fun e he => (hs e he).2) hc hj.2⟩
    exact fun e he => isArgument_of_clean (hs e he).1 (hc e he)
  | qualified q e, _, hs, hc, hj => by
    rw [node] at hs hc
    rw [Judged] at hj
    obtain ⟨-, hk, hs⟩ := by simpa using hs.2
    obtain ⟨-, hc⟩ : _ ∧ e.node.Clean := by simpa using hc
    simp only [canonical, Bool.and_eq_true, beq_iff_eq]
    exact ⟨⟨hj.1, isFull_of_clean (by simpa [Kind.admits] using hk) hc⟩,
      canonical_of_clean e false hs hc hj.2⟩
  | subscript e i, _, hs, hc, hj => by
    rw [node] at hs hc
    rw [Judged] at hj
    obtain ⟨⟨hke, hse⟩, hki, hsi⟩ := by simpa using hs.2
    obtain ⟨hce, hci⟩ : e.node.Clean ∧ i.node.Clean := by
      simpa using hc
    simp only [canonical, Bool.and_eq_true]
    exact ⟨⟨⟨isSuffixed_of_clean (by simpa [Kind.admits] using hke) hce,
      canonical_of_clean e false hse hce hj.1⟩,
      isFull_of_clean (by simpa [Kind.admits] using hki) hci⟩,
      canonical_of_clean i false hsi hci hj.2⟩
  | member e n, _, hs, hc, hj => by
    rw [node] at hs hc
    rw [Judged] at hj
    obtain ⟨⟨hke, hse⟩, -⟩ := by simpa using hs.2
    obtain ⟨hce, hcn⟩ : e.node.Clean ∧ n.node.Clean := by
      simpa using hc
    simp only [canonical, Bool.and_eq_true]
    exact ⟨⟨isSuffixed_of_clean (by simpa [Kind.admits] using hke) hce,
      canonical_of_clean e false hse hce hj.1⟩, Name.canonical_of_clean hj.2 hcn⟩
  | unary op e, _, hs, hc, hj => by
    rw [node] at hs hc
    rw [Judged] at hj
    obtain ⟨hk, hs⟩ := by simpa using hs.2
    have hc : e.node.Clean := by simpa using hc
    simp only [canonical, Bool.and_eq_true]
    exact ⟨isOperand_of_clean (by simpa [Kind.admits] using hk) hc,
      canonical_of_clean e false hs hc hj⟩
  | binary op l r, _, hs, hc, hj => by
    rw [node] at hs hc
    rw [Judged] at hj
    obtain ⟨⟨hkl, hsl⟩, hkr, hsr⟩ := by simpa using hs.2
    obtain ⟨hcl, hcr⟩ : l.node.Clean ∧ r.node.Clean := by
      simpa using hc
    simp only [canonical, Bool.and_eq_true]
    exact ⟨⟨⟨isChain_of_clean (by simpa [Kind.admits] using hkl) hcl,
      canonical_of_clean l false hsl hcl hj.1⟩,
      isOperand_of_clean (by simpa [Kind.admits] using hkr) hcr⟩,
      canonical_of_clean r false hsr hcr hj.2⟩
  | conditional c t e, _, hs, hc, hj => by
    rw [node] at hs hc
    rw [Judged] at hj
    obtain ⟨⟨hkc, hsc⟩, ⟨hkt, hst⟩, hke, hse⟩ := by simpa using hs.2
    obtain ⟨hcc, hct, hce⟩ : c.node.Clean ∧ t.node.Clean ∧ e.node.Clean := by
      simpa using hc
    simp only [canonical, Bool.and_eq_true]
    exact ⟨⟨⟨⟨⟨isChain_of_clean (by simpa [Kind.admits] using hkc) hcc,
      canonical_of_clean c false hsc hcc hj.1⟩,
      isFull_of_clean (by simpa [Kind.admits] using hkt) hct⟩,
      canonical_of_clean t false hst hct hj.2.1⟩,
      isFull_of_clean (by simpa [Kind.admits] using hke) hce⟩,
      canonical_of_clean e false hse hce hj.2.2⟩

theorem canonicals_of_clean : ∀ es : List Expr, (∀ e ∈ es, e.node.Shaped) →
    (∀ e ∈ es, e.node.Clean) → Judgeds es → canonicals es = true
  | [], _, _, _ => by rw [canonicals]
  | e :: es, hs, hc, hj => by
    rw [Judgeds] at hj
    simp only [canonicals, Bool.and_eq_true]
    exact ⟨canonical_of_clean e false (hs e (by simp)) (hc e (by simp)) hj.1,
      canonicals_of_clean es (fun x hx => hs x (by simp [hx])) (fun x hx => hc x (by simp [hx]))
        hj.2⟩

end

/-- What a place for expressions admits is a whole one. -/
theorem whole_of_clean {k : Kind} {label : Label}
    (hk : ∀ child : Kind, k.admits label child = decide (child.looseness ≤ 3))
    (h : k.admits label e.node.kind = true ∧ e.node.Shaped) (hc : e.node.Clean)
    (hj : e.Judged false) : e.whole = true := by
  simp only [whole, Bool.and_eq_true]
  exact ⟨isFull_of_clean (by simpa [hk] using h.1) hc, canonical_of_clean e false h.2 hc hj⟩

theorem whole_of_paren {c : Expr} (hs : c.parenNode.Shaped) (hc : c.parenNode.Clean)
    (hj : c.Judged false) : c.whole = true := by
  rw [parenNode_eq] at hs hc
  have hk : Kind.admits .parenExpr .value c.node.kind = true ∧ c.node.Shaped := by simpa using hs.2
  exact whole_of_clean (fun _ => rfl) hk (by simpa using hc) hj

end Expr

namespace Variable

variable {v : Variable}

theorem canonical_of_clean {k : Kind}
    (hk : ∀ child : Kind, k.admits .value child = decide (child.looseness ≤ 3))
    (hs : Item.Shaped k v.items) (hc : Item.Clean v.items) (hj : v.Judged) :
    v.canonical = true := by
  obtain ⟨-, hs⟩ : _ ∧ ∀ e ∈ v.value, k.admits .value e.node.kind = true ∧ e.node.Shaped := by
    simpa [items] using hs
  obtain ⟨hspec, hc⟩ : Item.Clean v.specifier.items ∧ ∀ e ∈ v.value, e.node.Clean := by
    simpa [items, Specifier.node] using hc
  simp only [canonical, Bool.and_eq_true, Option.all_eq_true]
  exact ⟨Specifier.canonical_of_clean hj.specifier hspec,
    fun e he => Expr.whole_of_clean hk (hs e he) (hc e he) (hj.value e he)⟩

/-- Constants have one form in functions and outside. -/
theorem canonical_of_constant {k : Kind} {p : Option Text}
    (hk : ∀ child : Kind, k.admits .value child = decide (child.looseness ≤ 3))
    (hs : (v.constantNode k p).Shaped) (hc : (v.constantNode k p).Clean) (hj : v.Judged) :
    v.canonical = true := by
  simp only [constantNode, Node.every_branch, List.cons_append, Item.every_keyword,
    Item.every_append] at hc
  have hs := hs.2
  simp only [List.cons_append, Item.shaped_keyword, Item.shaped_append] at hs
  exact canonical_of_clean hk hs.2 hc.2.2 hj

end Variable

namespace Action

variable {a : Action}

theorem isAssignable_of_isTarget {e : Expr} (h : e.node.kind.isTarget = true) :
    e.isAssignable = true := by
  cases e with
  | name | subscript | member => rfl
  | number n => cases n <;> (rw [Expr.node] at h; cases h)
  | _ => rw [Expr.node] at h; cases h

theorem canonical_of_clean (hs : Item.Shaped a.kind a.items) (hc : Item.Clean a.items)
    (hj : a.Judged) : a.canonical = true := by
  cases a with
  | evaluate e => exact Expr.whole_of_clean (fun _ => rfl) hs.1 hc.1 hj
  | assign t op v =>
    obtain ⟨⟨hk, ht⟩, hv, -⟩ := hs
    obtain ⟨hct, -, hcv, -⟩ := hc
    simp only [canonical, Bool.and_eq_true]
    exact ⟨⟨isAssignable_of_isTarget hk, Expr.canonical_of_clean t false ht hct hj.1⟩,
      Expr.whole_of_clean (fun _ => rfl) hv hcv hj.2⟩
  | adjustAfter t op =>
    simp only [canonical, Bool.and_eq_true]
    exact ⟨isAssignable_of_isTarget hs.1.1, Expr.canonical_of_clean t false hs.1.2 hc.1 hj⟩
  | adjustBefore op t =>
    simp only [canonical, Bool.and_eq_true]
    exact ⟨isAssignable_of_isTarget hs.1.1, Expr.canonical_of_clean t false hs.1.2 hc.2.1 hj⟩

theorem canonical_of_statement (hs : a.statementNode.Shaped) (hc : a.statementNode.Clean)
    (hj : a.Judged) : a.canonical = true :=
  canonical_of_clean ((Item.shaped_append _ _).mp hs.2).1 ((Item.every_append _ _).mp hc).1 hj

theorem canonical_of_update
    (hs : Kind.admits .forStatement .update a.updateNode.kind = true ∧ a.updateNode.Shaped)
    (hc : a.updateNode.Clean) (hj : a.Judged) : a.canonical = true := by
  cases a with
  | evaluate e => exact Expr.whole_of_clean (fun _ => rfl) hs hc hj
  | assign t op v => exact canonical_of_clean hs.2.2 hc hj
  | adjustAfter t op => exact canonical_of_clean hs.2.2 hc hj
  | adjustBefore op t => exact canonical_of_clean hs.2.2 hc hj

end Action

theorem Expr.all_whole_of_clean {v : Option Expr} {k : Kind} {label : Label}
    (hk : ∀ child : Kind, k.admits label child = decide (child.looseness ≤ 3))
    (hs : ∀ e ∈ v, k.admits label e.node.kind = true ∧ e.node.Shaped)
    (hc : ∀ e ∈ v, e.node.Clean) (hj : ∀ e ∈ v, e.Judged false) : v.all Expr.whole = true := by
  rw [Option.all_eq_true]
  exact fun e he => Expr.whole_of_clean hk (hs e he) (hc e he) (hj e he)

mutual

theorem Stmt.canonical_of_clean : ∀ s : Stmt, s.node.Shaped → s.node.Clean → s.Judged →
    s.canonical = true
  | .block body, hs, hc, hj => by
    rw [Stmt.node] at hs hc
    rw [Stmt.Judged] at hj
    have hs : ∀ s ∈ body, Kind.admits .block .statement s.node.kind = true ∧ s.node.Shaped := by
      simpa [blockNode, Stmt.nodes_eq_map] using hs.2
    have hc : ∀ s ∈ body, s.node.Clean := by
      simpa [blockNode, Stmt.nodes_eq_map] using hc
    rw [Stmt.canonical]
    exact Stmt.canonicals_of_clean body (fun s h => (hs s h).2) hc hj
  | .declare v, hs, hc, hj => by
    rw [Stmt.node] at hs hc
    rw [Stmt.Judged] at hj
    rw [Stmt.canonical]
    exact Variable.canonical_of_clean (fun _ => rfl) hs.2 hc hj
  | .constant p v, hs, hc, hj => by
    rw [Stmt.node] at hs hc
    rw [Stmt.Judged] at hj
    simp only [Stmt.canonical, Bool.and_eq_true]
    exact ⟨hj.1, Variable.canonical_of_constant (fun _ => rfl) hs hc hj.2⟩
  | .perform a, hs, hc, hj => by
    rw [Stmt.node] at hs hc
    rw [Stmt.Judged] at hj
    simp only [Stmt.canonical, Bool.and_eq_true, Bool.not_eq_true']
    exact ⟨Action.canonical_of_statement hs hc hj.1, hj.2⟩
  | .ifThen c t, hs, hc, hj => by
    rw [Stmt.node] at hs hc
    rw [Stmt.Judged] at hj
    obtain ⟨⟨-, hsc⟩, -, hst⟩ := by simpa using hs.2
    obtain ⟨hcc, hct⟩ : c.parenNode.Clean ∧ t.node.Clean := by
      simpa using hc
    simp only [Stmt.canonical, Bool.and_eq_true]
    exact ⟨Expr.whole_of_paren hsc hcc hj.1, Stmt.canonical_of_clean t hst hct hj.2⟩
  | .ifElse c t e, hs, hc, hj => by
    rw [Stmt.node] at hs hc
    rw [Stmt.Judged] at hj
    obtain ⟨⟨-, hsc⟩, ⟨-, hst⟩, -, hse⟩ := by simpa using hs.2
    obtain ⟨hcc, hct, hce⟩ : c.parenNode.Clean ∧ t.node.Clean ∧ e.node.Clean := by
      simpa using hc
    simp only [Stmt.canonical, Bool.and_eq_true, Bool.not_eq_true']
    exact ⟨⟨⟨Expr.whole_of_paren hsc hcc hj.1, Stmt.canonical_of_clean t hst hct hj.2.1⟩,
      hj.2.2.1⟩, Stmt.canonical_of_clean e hse hce hj.2.2.2⟩
  | .whileLoop c b, hs, hc, hj => by
    rw [Stmt.node] at hs hc
    rw [Stmt.Judged] at hj
    obtain ⟨⟨-, hsc⟩, -, hsb⟩ := by simpa using hs.2
    obtain ⟨hcc, hcb⟩ : c.parenNode.Clean ∧ b.node.Clean := by
      simpa using hc
    simp only [Stmt.canonical, Bool.and_eq_true]
    exact ⟨Expr.whole_of_paren hsc hcc hj.1, Stmt.canonical_of_clean b hsb hcb hj.2⟩
  | .forLoop v c u b, hs, hc, hj => by
    rw [Stmt.node] at hs hc
    rw [Stmt.Judged] at hj
    obtain ⟨⟨-, hsv⟩, ⟨-, hsc⟩, hsu, -, hsb⟩ := by simpa using hs.2
    obtain ⟨hcv, hcc, hcu, hcb⟩ : v.node.Clean ∧ (Action.evaluate c).statementNode.Clean ∧
        u.updateNode.Clean ∧ b.node.Clean := by simpa using hc
    simp only [Stmt.canonical, Bool.and_eq_true]
    exact ⟨⟨⟨Variable.canonical_of_clean (fun _ => rfl) hsv.2 hcv hj.1,
      Action.canonical_of_statement hsc hcc hj.2.1⟩, Action.canonical_of_update hsu hcu hj.2.2.1⟩,
      Stmt.canonical_of_clean b hsb hcb hj.2.2.2⟩
  | .switchOn e cs, hs, hc, hj => by
    rw [Stmt.node] at hs hc
    rw [Stmt.Judged] at hj
    obtain ⟨hse, hs⟩ : (Kind.admits .switchStatement .condition e.node.kind = true ∧
        e.node.Shaped) ∧ ∀ c ∈ cs, Kind.admits .switchStatement .clause c.node.kind = true ∧
        c.node.Shaped := by simpa [Clause.nodes_eq_map] using hs.2
    obtain ⟨hce, hc⟩ : e.node.Clean ∧ ∀ c ∈ cs, c.node.Clean := by
      simpa [Clause.nodes_eq_map] using hc
    simp only [Stmt.canonical, Bool.and_eq_true]
    exact ⟨Expr.whole_of_clean (fun _ => rfl) hse hce hj.1,
      Clause.canonicals_of_clean cs (fun c h => (hs c h).2) hc hj.2⟩
  | .returnValue v, hs, hc, hj => by
    rw [Stmt.node] at hs hc
    rw [Stmt.Judged] at hj
    have hs : ∀ e ∈ v, Kind.admits .returnStatement .value e.node.kind = true ∧
        e.node.Shaped := by simpa using hs.2
    have hc : ∀ e ∈ v, e.node.Clean := by simpa using hc
    rw [Stmt.canonical]
    exact Expr.all_whole_of_clean (fun _ => rfl) hs hc hj
  | .breakOut, _, _, _ => by rw [Stmt.canonical]
  | .continueLoop, _, _, _ => by rw [Stmt.canonical]
  | .error s, _, hc, _ => by
    rw [Stmt.node] at hc
    exact hc.elim

theorem Stmt.canonicals_of_clean : ∀ ss : List Stmt, (∀ s ∈ ss, s.node.Shaped) →
    (∀ s ∈ ss, s.node.Clean) → Stmt.Judgeds ss → Stmt.canonicals ss = true
  | [], _, _, _ => by rw [Stmt.canonicals]
  | s :: ss, hs, hc, hj => by
    rw [Stmt.Judgeds] at hj
    simp only [Stmt.canonicals, Bool.and_eq_true]
    exact ⟨Stmt.canonical_of_clean s (hs s (by simp)) (hc s (by simp)) hj.1,
      Stmt.canonicals_of_clean ss (fun x hx => hs x (by simp [hx]))
        (fun x hx => hc x (by simp [hx])) hj.2⟩

theorem Clause.canonical_of_clean : ∀ c : Clause, c.node.Shaped → c.node.Clean → c.Judged →
    c.canonical = true
  | .onValue e body, hs, hc, hj => by
    rw [Clause.node] at hs hc
    rw [Clause.Judged] at hj
    obtain ⟨hse, hs⟩ : (Kind.admits .switchCase .argument e.node.kind = true ∧ e.node.Shaped) ∧
        ∀ s ∈ body, Kind.admits .switchCase .statement s.node.kind = true ∧ s.node.Shaped := by
      simpa [Stmt.nodes_eq_map] using hs.2
    obtain ⟨hce, hc⟩ : e.node.Clean ∧ ∀ s ∈ body, s.node.Clean := by
      simpa [Stmt.nodes_eq_map] using hc
    simp only [Clause.canonical, Bool.and_eq_true]
    exact ⟨Expr.whole_of_clean (fun _ => rfl) hse hce hj.1,
      Stmt.canonicals_of_clean body (fun s h => (hs s h).2) hc hj.2⟩
  | .otherwise body, hs, hc, hj => by
    rw [Clause.node] at hs hc
    rw [Clause.Judged] at hj
    have hs : ∀ s ∈ body, Kind.admits .switchCase .statement s.node.kind = true ∧
        s.node.Shaped := by simpa [Stmt.nodes_eq_map] using hs.2
    have hc : ∀ s ∈ body, s.node.Clean := by
      simpa [Stmt.nodes_eq_map] using hc
    rw [Clause.canonical]
    exact Stmt.canonicals_of_clean body (fun s h => (hs s h).2) hc hj
  | .error s, _, hc, _ => by
    rw [Clause.node] at hc
    exact hc.elim

theorem Clause.canonicals_of_clean : ∀ cs : List Clause, (∀ c ∈ cs, c.node.Shaped) →
    (∀ c ∈ cs, c.node.Clean) → Clause.Judgeds cs → Clause.canonicals cs = true
  | [], _, _, _ => by rw [Clause.canonicals]
  | c :: cs, hs, hc, hj => by
    rw [Clause.Judgeds] at hj
    simp only [Clause.canonicals, Bool.and_eq_true]
    exact ⟨Clause.canonical_of_clean c (hs c (by simp)) (hc c (by simp)) hj.1,
      Clause.canonicals_of_clean cs (fun x hx => hs x (by simp [hx]))
        (fun x hx => hc x (by simp [hx])) hj.2⟩

end

theorem Hint.canonical_of_clean {h : Hint} (hc : h.node.Clean) (hj : h.Judged) :
    h.canonical = true :=
  Term.canonical_of_clean rfl hj hc.1

theorem Member.canonical_of_clean {m : Member} (hc : m.node.Clean) (hj : m.Judged) :
    m.canonical = true := by
  cases m with
  | field s => exact Specifier.canonical_of_clean hj ((Item.every_append _ _).mp hc).1
  | error s => exact hc.elim

theorem Parameter.canonical_of_clean {p : Parameter} (hc : p.node.Clean) (hj : p.Judged) :
    p.canonical = true := by
  simp only [Parameter.canonical, Bool.and_eq_true]
  exact ⟨hj.qualifier,
    Specifier.canonical_of_clean hj.specifier ((Item.every_append _ _).mp hc).2⟩

theorem Decl.canonical_of_clean {d : Decl} (hs : d.node.Shaped) (hc : d.node.Clean)
    (hj : d.Judged) : d.canonical = true := by
  cases d with
  | shaderType t => exact Term.canonical_of_clean rfl hj hc.2.1
  | renderMode ts =>
    have hc : ∀ t ∈ ts, (t.node .renderMode .invalidRenderMode).Clean := by
      simpa [node] using hc
    rw [canonical, List.all_eq_true]
    exact fun t ht => Term.canonical_of_clean rfl (hj t ht) (hc t ht)
  | constant p v =>
    simp only [canonical, Bool.and_eq_true]
    exact ⟨hj.1, Variable.canonical_of_constant (fun _ => rfl) hs hc hj.2⟩
  | varying i p s =>
    obtain ⟨-, -, hc⟩ : (∀ n ∈ i.map (qualifierNode .interpolationQualifier), n.Clean) ∧
        (∀ n ∈ p.map (qualifierNode .precisionQualifier), n.Clean) ∧ Item.Clean s.items := by
      simpa [node, Specifier.node] using hc
    simp only [canonical, Bool.and_eq_true]
    exact ⟨⟨hj.1, hj.2.1⟩, Specifier.canonical_of_clean hj.2.2 hc⟩
  | groupUniforms g s =>
    obtain ⟨hg, hs⟩ : (∀ n ∈ g, n.node.Clean) ∧ ∀ n ∈ s, n.node.Clean := by
      simpa [node] using hc
    simp only [canonical, Bool.and_eq_true, Option.all_eq_true]
    exact ⟨fun n hn => Name.canonical_of_clean (hj.1 n hn) (hg n hn),
      fun n hn => Name.canonical_of_clean (hj.2 n hn) (hs n hn)⟩
  | uniform scope p s hints v =>
    obtain ⟨hjp, hjs, hjh, hjv⟩ := hj
    simp only [node, Node.every_branch, List.cons_append, List.append_assoc, Item.every_keyword,
      Item.every_append, Item.every_child, Item.every_marked?, Condition.lexeme_clean,
      Specifier.node] at hc
    obtain ⟨-, -, -, hcs, hch, hcv, -⟩ := hc
    have hs := hs.2
    simp only [List.cons_append, List.append_assoc, Item.shaped_keyword, Item.shaped_append,
      Item.shaped_child, Item.shaped_marked?] at hs
    have hhints : ∀ h ∈ hints, h.node.Clean := by
      cases hints with
      | nil => simp
      | cons h hints => simpa [Hint.listNode?] using hch
    simp only [canonical, Bool.and_eq_true, List.all_eq_true]
    refine ⟨⟨⟨hjp, Specifier.canonical_of_clean hjs hcs⟩, ?_⟩, ?_⟩
    · exact fun h hh => Hint.canonical_of_clean (hhints h hh) (hjh h hh)
    · exact Expr.all_whole_of_clean (fun _ => rfl) (by simpa using hs.2.2.2.2.1)
        (by simpa using hcv) hjv
  | struct n ms =>
    have hne : ms ≠ [] := by
      rintro rfl
      obtain ⟨m, hm⟩ := hs.1.filled .member (by simp [Kind.required])
      simp [Item.children, Item.mark, Item.keyword] at hm
    obtain ⟨hcn, hc⟩ : n.node.Clean ∧ ∀ m ∈ ms, m.node.Clean := by
      simpa [node] using hc
    simp only [canonical, Bool.and_eq_true, Bool.not_eq_true', List.all_eq_true]
    refine ⟨⟨Name.canonical_of_clean hj.1 hcn, by simpa using hne⟩, ?_⟩
    exact fun m hm => Member.canonical_of_clean (hc m hm) (hj.2 m hm)
  | function t n ps body =>
    obtain ⟨hjt, hjn, hjp, hjb⟩ := hj
    obtain ⟨hct, hcn, hcp, hcb⟩ : t.node.Clean ∧ n.node.Clean ∧ (∀ p ∈ ps, p.node.Clean) ∧
        (Stmt.block body).node.Clean := by simpa [node] using hc
    have hs := hs.2
    simp only [List.cons_append, Item.shaped_child, Item.shaped_mark, Item.shaped_append] at hs
    have hblock : (Stmt.block body).canonical = true :=
      Stmt.canonical_of_clean (.block body) hs.2.2.2.1.2 hcb (by rw [Stmt.Judged]; exact hjb)
    rw [Stmt.canonical] at hblock
    simp only [canonical, Bool.and_eq_true, List.all_eq_true]
    exact ⟨⟨⟨TypeRef.canonical_of_clean hjt hct, Name.canonical_of_clean hjn hcn⟩,
      fun p hp => Parameter.canonical_of_clean (hcp p hp) (hjp p hp)⟩, hblock⟩
  | includes path => rfl
  | error s => exact hc.elim

/-- Declarations parsed without a finding are canonical and within the limit. -/
theorem Grammar.declarations_canonical {levels : Nat} {ts : List Lexeme} {ds : List Decl}
    (h : declarations levels ts = .done ds [] []) :
    ∀ d ∈ ds, d.canonical = true ∧ d.depth ≤ levels := by
  have hclean : Item.Clean (Item.children .value (ds.map Decl.node)) :=
    Item.clean_of_sites _ 0 (declarations_account h .value).findings.symm
  intro d hd
  have hshaped := declarations_yields levels ts ds [] [] h d hd
  have hwithin := declarations_judged levels ts ds [] [] h d hd
  have hc : d.node.Clean := (Item.every_children _).mp hclean _ (List.mem_map_of_mem hd)
  exact ⟨Decl.canonical_of_clean hshaped hc hwithin.judged, hwithin.depth⟩

end ShaderSyntax
