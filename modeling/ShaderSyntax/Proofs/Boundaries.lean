import ShaderSyntax.Grammar.Statement
import ShaderSyntax.Proofs.Shape
import ShaderSyntax.Proofs.Yielding

/-!
# Boundaries of errors

A production that is recovered gives up its lexemes through a boundary: the end of a statement, or a
lexeme at which its surroundings go on. An error in an expression is one lexeme, and none that its
surroundings wait for. The label of an error tells which of them it is, and the items behind it tell
what follows it. So the condition on a node is about its place in the items of its owner.
-/
namespace ShaderSyntax

open ShaderSyntax.Parser ShaderSyntax.Outcome

section Places

/-- The labels of what is recovered by itself. -/
def Label.isRecovered : Label → Bool
  | .statement | .member | .clause => true
  | _ => false

/-- What stands behind the last statement or member of a node. The brace that closes the statements
of a clause is that of the switch. -/
def Kind.closing? : Kind → Option (List Item)
  | .block => some [.mark .closeBrace]
  | .structDeclaration => some [.mark .closeBrace, .mark .semicolon]
  | .switchCase => some []
  | _ => none

/-- The last lexeme ends a statement. -/
def Skipped.EndsStatement (s : Skipped) : Prop :=
  ∃ l ∈ s.lexemes.getLast?, Recovery.endsStatement l = true

/-- One lexeme, and not a mark that ends what surrounds an expression. -/
def Skipped.IsStray (s : Skipped) : Prop :=
  ∃ l, s.lexemes = [l] ∧ ∀ p, l = .punct p → Grammar.endsExpression p = false

/-- Where an error is held under the label and before the rest of its owner's items, it ends at a
boundary. -/
def Skipped.Bounded (owner : Kind) (rest : List Item) (s : Skipped) : Label → Prop
  | .statement | .member => s.EndsStatement ∨ owner.closing? = some rest
  | .clause =>
    rest = [.mark .closeBrace] ∨ ∃ l ∈ (Item.lexemes rest).head?, Recovery.startsClause l = true
  | _ => s.IsStray

/-- The last item is an error that ends as no statement does. -/
def Item.EndsOpen (items : List Item) : Prop :=
  ∃ label s, items.getLast? = some (.child label (.error s)) ∧ ¬s.EndsStatement

/-- The node itself may be held under the label and before the rest of its owner's items. -/
def Node.Stands (owner : Kind) (label : Label) (rest : List Item) : Node → Prop
  | .leaf k _ => k ≠ .error
  | .error s => s.Bounded owner rest label
  | .branch k items => k ≠ .error ∧ (k = .switchCase → Item.EndsOpen items →
      owner = .switchStatement ∧ rest = [.mark .closeBrace])

mutual

/-- Below the node everything may stand where it is held. -/
def Node.Fenced : Node → Prop
  | .leaf _ _ => True
  | .error _ => True
  | .branch k items => Item.Fenced k items

def Item.Fenced (k : Kind) : List Item → Prop
  | [] => True
  | .token _ :: rest => Item.Fenced k rest
  | .attribute _ _ :: rest => Item.Fenced k rest
  | .child label n :: rest => (n.Stands k label rest ∧ n.Fenced) ∧ Item.Fenced k rest

end

/-- The node may be held under the label by every owner and before every rest. -/
def Node.Held (label : Label) (n : Node) : Prop :=
  n.Fenced ∧ ∀ owner rest, n.Stands owner label rest

/-- The node may be held under every label. -/
def Node.Firm (n : Node) : Prop :=
  ∀ label, n.Held label

/-- The node may be held under every label but those of what is recovered. -/
def Node.Mild (n : Node) : Prop :=
  ∀ label : Label, label.isRecovered = false → n.Held label

/-- What the items hold may be held so whatever the owner is and whatever stands behind. -/
def Item.Mild (items : List Item) : Prop :=
  ∀ label n, .child label n ∈ items → n.Held label

end Places

namespace Node

theorem Firm.mild {n : Node} (h : n.Firm) : n.Mild :=
  fun label _ => h label

theorem firm_leaf {k : Kind} (hk : k ≠ .error) (l : Lexeme) : (leaf k l).Firm :=
  fun _ => ⟨trivial, fun _ _ => hk⟩

theorem firm_branch {k : Kind} {items : List Item} (hk : k ∉ [Kind.error, .switchCase])
    (h : Item.Fenced k items) : (branch k items).Firm := by
  have hne : k ≠ .error ∧ k ≠ .switchCase := by simpa using hk
  exact fun _ => ⟨h, fun _ _ => ⟨hne.1, fun hc => absurd hc hne.2⟩⟩

/-- An error that may be held anywhere may also be held as a statement before others. -/
theorem Firm.endsStatement {s : Skipped} (h : (error s).Firm) : s.EndsStatement := by
  rcases (h .statement).2 .error [] with he | he
  · exact he
  · cases he

theorem mild_error {s : Skipped} (h : s.IsStray) : (error s).Mild := by
  intro label hl
  refine ⟨trivial, fun owner rest => ?_⟩
  cases label <;> first | exact h | cases hl

end Node

namespace Item

variable {k : Kind} {label : Label}

@[simp] theorem mild_nil : Item.Mild [] ↔ True := by
  simp [Item.Mild]

@[simp] theorem mild_mark (p : Punct) (rest : List Item) :
    Item.Mild (.mark p :: rest) ↔ Item.Mild rest := by
  simp [Item.Mild, mark]

@[simp] theorem mild_keyword (w : Keyword) (rest : List Item) :
    Item.Mild (.keyword w :: rest) ↔ Item.Mild rest := by
  simp [Item.Mild, keyword]

@[simp] theorem mild_token (l : Lexeme) (rest : List Item) :
    Item.Mild (.token l :: rest) ↔ Item.Mild rest := by
  simp [Item.Mild]

@[simp] theorem mild_attribute (l : Lexeme) (rest : List Item) :
    Item.Mild (.attribute label l :: rest) ↔ Item.Mild rest := by
  simp [Item.Mild]

@[simp] theorem mild_child (n : Node) (rest : List Item) :
    Item.Mild (.child label n :: rest) ↔ n.Held label ∧ Item.Mild rest := by
  constructor
  · exact fun h => ⟨h label n (by simp), fun label' m hm => h label' m (by simp [hm])⟩
  · rintro ⟨hn, hrest⟩ label' m hm
    rcases List.mem_cons.mp hm with he | hm
    · cases he
      exact hn
    · exact hrest label' m hm

theorem itemwise_mild :
    Itemwise Item.Mild (fun _ => True) (fun _ => True) fun label n => n.Held label := by
  constructor <;> simp

@[simp] theorem mild_append (xs ys : List Item) :
    Item.Mild (xs ++ ys) ↔ Item.Mild xs ∧ Item.Mild ys :=
  itemwise_mild.append xs ys

@[simp] theorem mild_separated (nodes : List Node) :
    Item.Mild (separated label nodes) ↔ ∀ n ∈ nodes, n.Held label :=
  itemwise_mild.separated trivial nodes

@[simp] theorem mild_child? (n : Option Node) :
    Item.Mild (child? label n) ↔ ∀ m ∈ n, m.Held label :=
  itemwise_mild.child? n

@[simp] theorem mild_marked? (p : Punct) (n : Option Node) :
    Item.Mild (marked? p label n) ↔ ∀ m ∈ n, m.Held label :=
  itemwise_mild.marked? trivial n

/-- Behind mild items everything stands as it would without them. -/
theorem Mild.fenced_append {xs ys : List Item} (hx : Item.Mild xs) (hy : Item.Fenced k ys) :
    Item.Fenced k (xs ++ ys) := by
  induction xs with
  | nil => exact hy
  | cons x xs ih =>
    rcases x with l | ⟨label, l⟩ | ⟨label, n⟩
    · exact ih ((mild_token l xs).mp hx)
    · exact ih ((mild_attribute l xs).mp hx)
    · obtain ⟨hn, hxs⟩ := (mild_child n xs).mp hx
      exact ⟨⟨hn.2 _ _, hn.1⟩, ih hxs⟩

theorem Mild.fenced {items : List Item} (h : Item.Mild items) : Item.Fenced k items := by
  have hnil : Item.Fenced k [] := trivial
  simpa using h.fenced_append hnil

/-- Children in a row stand each before those behind it. -/
theorem fenced_children {α : Type} {node : α → Node} {as : List α} {closing : List Item}
    (hc : Item.Fenced k closing) (h : ∀ before a after, as = before ++ a :: after →
      (node a).Stands k label (children label (after.map node) ++ closing) ∧ (node a).Fenced) :
    Item.Fenced k (children label (as.map node) ++ closing) := by
  induction as with
  | nil => exact hc
  | cons a as ih =>
    refine ⟨h [] a as rfl, ih ?_⟩
    rintro before b after rfl
    exact h (a :: before) b after rfl

/-- A node of mild items alone. -/
theorem Mild.firm {items : List Item} (h : Item.Mild items) (hk : k ∉ [Kind.error, .switchCase]) :
    (Node.branch k items).Firm :=
  Node.firm_branch hk h.fenced

end Item

namespace Parser

variable {α : Type} {item : Parser α} {node : α → Node} {stop : Lexeme → Bool}

/-- A row of items ends where it started, or its first item does not stop it. -/
theorem manyUntil_cases
    (hreads : ∀ ts, ts ≠ [] → (item ts).Reads ts fun a items => (node a).Spells items)
    {ts rest : List Lexeme} {as : List α} {found : List Finding}
    (h : manyUntil stop item ts = .done as rest found) :
    (as = [] ∧ rest = ts ∧ ∀ l ∈ ts.head?, stop l = true) ∨
      ∃ l more a mid first bs last, ts = l :: more ∧ stop l = false ∧
        item ts = .done a mid first ∧ as = a :: bs ∧
        manyUntil stop item mid = .done bs rest last := by
  cases ts with
  | nil =>
    cases h
    exact .inl ⟨rfl, rfl, by simp⟩
  | cons l more =>
    cases hl : stop l with
    | true =>
      simp only [manyUntil, inRounds, List.length_cons, manyWithin, hl, if_true] at h
      cases h
      exact .inl ⟨rfl, rfl, by simpa using hl⟩
    | false =>
      obtain ⟨a, mid, first, bs, last, hi, rfl, hm⟩ := manyUntil_cons_done hreads hl h
      exact .inr ⟨l, more, a, mid, first, bs, last, rfl, hl, hi, rfl, hm⟩

/-- The lexeme after a run is the first of the items behind, or there are only closing items. -/
def Follows (stop : Lexeme → Bool) (closing : List Item) (mid : List Lexeme) (rest : List Item) :
    Prop :=
  rest = closing ∨ ∃ l ∈ mid.head?, stop l = false ∧ (Item.lexemes rest).head? = some l

/-- Items in a row: what every item leaves is what it is followed by. -/
theorem yields_manyUntil_each {S : α → List Item → Prop} (label : Label) {closing : List Item}
    (hreads : ∀ ts, ts ≠ [] → (item ts).Reads ts fun a items => (node a).Spells items)
    (h : item.Yields fun a mid => ∀ rest, Follows stop closing mid rest → S a rest) :
    (manyUntil stop item).Yields fun as _ => ∀ before a after, as = before ++ a :: after →
      S a (Item.children label (after.map node) ++ closing) := by
  intro ts as rest found hd
  induction as generalizing ts found with
  | nil => simp
  | cons b bs ih =>
    rcases manyUntil_cases hreads hd with ⟨hnil, -, -⟩ | hstep
    · cases hnil
    · obtain ⟨l, more, a, mid, first, bs', last, -, -, hi, heq, hm⟩ := hstep
      cases heq
      intro before c after heq
      rcases List.cons_eq_append_iff.mp heq with ⟨rfl, hb⟩ | ⟨before, rfl, hbs⟩
      · cases hb
        refine h ts b mid first hi _ ?_
        -- The item is the last, or the next one starts with what this one left.
        rcases manyUntil_cases hreads hm with ⟨rfl, -, -⟩ | hnext
        · exact .inl rfl
        · obtain ⟨l', more', a', mid', first', bs', last', rfl, hl', hi', rfl, -⟩ := hnext
          obtain ⟨items, hspells, haccount⟩ := (hreads _ (by simp)).done a' mid' first' hi'
          have hpos := (hspells.solid haccount.solid).size_pos
          have hlex := haccount.lexemes
          rw [← hspells.lexemes] at hlex
          refine .inr ⟨l', rfl, hl', ?_⟩
          cases hn : (node a').lexemes with
          | nil => simp [← Node.length_lexemes, hn] at hpos
          | cons l'' ls =>
            rw [hn] at hlex
            cases hlex
            simp [Item.children, Item.lexemes, hn]
      · exact ih mid last hm before c after hbs

/-- What the last item left is what the row left. -/
theorem yields_manyUntil_last {Q : α → List Lexeme → Prop}
    (hreads : ∀ ts, ts ≠ [] → (item ts).Reads ts fun a items => (node a).Spells items)
    (h : item.Yields Q) :
    (manyUntil stop item).Yields fun as rest => ∀ a ∈ as.getLast?, Q a rest := by
  intro ts as rest found hd
  induction as generalizing ts found with
  | nil => simp
  | cons b bs ih =>
    rcases manyUntil_cases hreads hd with ⟨hnil, -, -⟩ | hstep
    · cases hnil
    · obtain ⟨l, more, a, mid, first, bs', last, -, -, hi, heq, hm⟩ := hstep
      cases heq
      cases bs with
      | cons c bs => simpa using ih mid last hm
      | nil =>
        rcases manyUntil_cases hreads hm with ⟨-, rfl, -⟩ | hnext
        · simpa using h ts b rest first hi
        · obtain ⟨_, _, _, _, _, _, _, -, -, -, hnil, -⟩ := hnext
          cases hnil

end Parser

namespace Recovery

/-- From the lexemes that were taken, resuming gives up more, through a boundary. -/
def Reaches (resume : List Lexeme → List Lexeme → List Lexeme)
    (B : List Lexeme → List Lexeme → Prop) : Prop :=
  ∀ taken rest, ∃ more, rest = more ++ resume taken rest ∧ B (taken ++ more) (resume taken rest)

/-- Lexemes through the end of a statement, or before a lexeme of the other kind or the end. -/
def Through (next : Lexeme → Bool) (skipped after : List Lexeme) : Prop :=
  (∃ l ∈ skipped.getLast?, endsStatement l = true) ∨ ∀ l ∈ after.head?, next l = true

section Through

variable {next : Lexeme → Bool} {ts after : List Lexeme} {l : Lexeme}

theorem Through.append (h : Through next ts after) (taken : List Lexeme) :
    Through next (taken ++ ts) after := by
  rcases h with ⟨l, hl, he⟩ | h
  · refine .inl ⟨l, ?_, he⟩
    rw [Option.mem_def] at hl ⊢
    rw [List.getLast?_append, hl]
    rfl
  · exact .inr h

theorem through_single (h : endsStatement l = true) : Through next [l] after :=
  .inl ⟨l, rfl, h⟩

theorem endsStatement_of_isPunct {p : Punct} (hp : p = .semicolon ∨ p = .closeBrace)
    (h : isPunct p l = true) : endsStatement l = true := by
  rcases hp with rfl | rfl <;> simp [endsStatement, h]

/-- Giving up one lexeme more. -/
theorem exists_skip_cons {skip : Nat → List Lexeme → List Lexeme} {depth : Nat}
    (h : ∃ more, ts = more ++ skip depth ts ∧ Through next more (skip depth ts)) :
    ∃ more, l :: ts = more ++ skip depth ts ∧ Through next more (skip depth ts) := by
  obtain ⟨more, hts, ht⟩ := h
  exact ⟨l :: more, by rw [List.cons_append, ← hts], ht.append [l]⟩

theorem through_afterStatement (depth : Nat) (ts : List Lexeme) :
    ∃ more, ts = more ++ afterStatement depth ts ∧
      Through (isPunct .closeBrace) more (afterStatement depth ts) := by
  fun_induction afterStatement depth ts with
  | case1 => exact ⟨[], rfl, .inr (by simp)⟩
  | case2 l rest hl => exact ⟨[l], rfl, through_single (endsStatement_of_isPunct (.inl rfl) hl)⟩
  | case3 _ _ _ _ _ ih => exact exists_skip_cons ih
  | case4 _ _ _ _ _ ih => exact exists_skip_cons ih
  | case5 l rest _ _ hl => exact ⟨[], rfl, .inr (by simpa using hl)⟩
  | case6 l rest _ _ hl => exact ⟨[l], rfl, through_single (endsStatement_of_isPunct (.inr rfl) hl)⟩
  | case7 _ _ _ _ _ _ _ _ ih => exact exists_skip_cons ih
  | case8 _ _ _ _ _ _ ih => exact exists_skip_cons ih

theorem through_afterDeclaration (depth : Nat) (ts : List Lexeme) :
    ∃ more, ts = more ++ afterDeclaration depth ts ∧
      Through startsDeclaration more (afterDeclaration depth ts) := by
  fun_induction afterDeclaration depth ts with
  | case1 => exact ⟨[], rfl, .inr (by simp)⟩
  | case2 l rest hl => exact ⟨[l], rfl, through_single (endsStatement_of_isPunct (.inl rfl) hl)⟩
  | case3 _ _ _ _ _ ih => exact exists_skip_cons ih
  | case4 _ _ _ _ _ ih => exact exists_skip_cons ih
  | case5 => exact ⟨[_], rfl, .inr (by simp)⟩
  | case6 _ _ _ _ _ _ _ _ hl =>
    exact ⟨[_, _], rfl, (through_single (endsStatement_of_isPunct (.inl rfl) hl)).append [_]⟩
  | case7 _ _ _ _ hl => exact ⟨[_], rfl, through_single (endsStatement_of_isPunct (.inr rfl) hl)⟩
  | case8 _ _ _ _ _ _ _ ih => exact exists_skip_cons ih
  | case9 _ _ _ _ _ _ hl => exact ⟨[], rfl, .inr (by simpa using hl.2)⟩
  | case10 _ _ _ _ _ _ _ ih => exact exists_skip_cons ih

theorem head?_afterClause (depth : Nat) (ts : List Lexeme) :
    ∀ l ∈ (afterClause depth ts).head?, endsClause l = true := by
  fun_induction afterClause depth ts with
  | case1 => simp
  | case2 _ _ _ _ ih => exact ih
  | case3 l rest _ hl => simpa [endsClause] using .inl hl
  | case4 _ _ _ _ _ _ ih => exact ih
  | case5 _ _ _ _ _ hl => simpa [endsClause] using .inr hl.2
  | case6 _ _ _ _ _ _ ih => exact ih

end Through

theorem reaches_resume {ends : Lexeme → Bool} {skip : Nat → List Lexeme → List Lexeme}
    {B : List Lexeme → List Lexeme → Prop} (hends : ∀ l rest, ends l = true → B [l] rest)
    (hskip : ∀ taken depth ts, ∃ more, ts = more ++ skip depth ts ∧
      B (taken ++ more) (skip depth ts)) :
    Reaches (resume ends skip) B := by
  intro taken rest
  match taken, rest with
  | [], [] => exact hskip [] _ _
  | l :: taken, rest => exact hskip (l :: taken) _ rest
  | [], l :: rest =>
    have hr : resume ends skip [] (l :: rest) =
        if ends l then rest else skip (openBraces 0 [l]) rest := rfl
    rw [hr]
    split
    · next he => exact ⟨[l], rfl, hends l rest he⟩
    · obtain ⟨more, hrest, hb⟩ := hskip [l] (openBraces 0 [l]) rest
      exact ⟨l :: more, by rw [List.cons_append, ← hrest], hb⟩

theorem reaches_statement : Reaches resumeStatement (Through (isPunct .closeBrace)) := by
  refine reaches_resume (fun l rest he => through_single he) ?_
  intro taken depth ts
  obtain ⟨more, hts, ht⟩ := through_afterStatement depth ts
  exact ⟨more, hts, ht.append taken⟩

theorem reaches_declaration : Reaches resumeDeclaration (Through startsDeclaration) := by
  refine reaches_resume (fun l rest he => through_single he) ?_
  intro taken depth ts
  obtain ⟨more, hts, ht⟩ := through_afterDeclaration depth ts
  exact ⟨more, hts, ht.append taken⟩

theorem reaches_clause :
    Reaches resumeClause fun _ after => ∀ l ∈ after.head?, endsClause l = true := by
  refine reaches_resume (fun l rest he => by cases he) ?_
  intro taken depth ts
  obtain ⟨more, hts⟩ := afterClause_suffix depth ts
  exact ⟨more, hts.symm, head?_afterClause depth ts⟩

end Recovery

/-- What a recovered production yields: its own value, or an error up to a boundary. -/
theorem Parser.yields_recovering_reaches {α : Type} {p : Parser α} {Q : α → List Lexeme → Prop}
    {resume : List Lexeme → List Lexeme → List Lexeme} {error : Skipped → α}
    {B : List Lexeme → List Lexeme → Prop} (h : p.Yields Q) (hs : ∀ ts, (p ts).rest <:+ ts)
    (hr : Recovery.Reaches resume B) (herr : ∀ s after, B s.lexemes after → Q (error s) after) :
    (recovering resume error p).Yields Q := by
  intro ts
  have hp := h ts
  have hsuffix := hs ts
  unfold Parser.recovering
  cases ho : p ts with
  | done a rest found =>
    rw [ho] at hp
    exact hp
  | tooDeep rest found => exact yields_tooDeep
  | failed problem rest found =>
    rw [ho] at hsuffix
    obtain ⟨taken, rfl⟩ := hsuffix
    obtain ⟨more, hmore, hb⟩ := hr taken rest
    refine yields_done (herr _ _ ?_)
    simp only [Outcome.rest, take_of_rest] at hmore hb ⊢
    generalize resume taken rest = after at hmore hb ⊢
    subst hmore
    rw [← List.append_assoc, take_of_rest]
    exact hb

/-- A node that a statement or a member yields before the lexemes that it leaves: firm, or an error
up to a boundary. -/
def Node.Recovered (n : Node) (after : List Lexeme) : Prop :=
  n.Firm ∨ ∃ s, n = .error s ∧ Recovery.Through (Recovery.isPunct .closeBrace) s.lexemes after

namespace Node.Recovered

variable {n : Node} {after : List Lexeme}

theorem fenced (h : n.Recovered after) : n.Fenced := by
  rcases h with h | ⟨s, rfl, -⟩
  · exact (h .value).1
  · trivial

/-- An error that does not end as a statement is followed by a closing brace or nothing. -/
theorem head_of_error {s : Skipped} (h : (Node.error s).Recovered after) (hs : ¬s.EndsStatement) :
    ∀ l ∈ after.head?, l = .punct .closeBrace := by
  have hthrough : Recovery.Through (Recovery.isPunct .closeBrace) s.lexemes after := by
    rcases h with h | ⟨s', hs', ht⟩
    · exact absurd h.endsStatement hs
    · cases hs'
      exact ht
  rcases hthrough with he | hnext
  · exact absurd he hs
  · simpa [Recovery.isPunct] using hnext

/-- A closing brace stops the row, so only closing items follow. -/
theorem eq_closing {stop : Lexeme → Bool} (hstop : stop (.punct .closeBrace) = true)
    {closing rest : List Item} (hf : Parser.Follows stop closing after rest)
    (h : ∀ l ∈ after.head?, l = .punct .closeBrace) : rest = closing := by
  rcases hf with he | ⟨l, hl, hs, -⟩
  · exact he
  · rw [h l hl, hstop] at hs
    cases hs

theorem stands (h : n.Recovered after) {stop : Lexeme → Bool}
    (hstop : stop (.punct .closeBrace) = true) {owner : Kind} {label : Label}
    (hlabel : label = .statement ∨ label = .member) {closing rest : List Item}
    (hc : owner.closing? = some closing) (hf : Parser.Follows stop closing after rest) :
    n.Stands owner label rest := by
  by_cases he : ∃ s, n = .error s ∧ ¬s.EndsStatement
  · obtain ⟨s, rfl, hs⟩ := he
    have hrest := eq_closing hstop hf (h.head_of_error hs)
    rw [hrest]
    rcases hlabel with rfl | rfl <;> exact .inr hc
  · rcases h with h | ⟨s, rfl, -⟩
    · exact (h label).2 owner rest
    · have hs : s.EndsStatement := by simpa using he
      rcases hlabel with rfl | rfl <;> exact .inl hs

end Node.Recovered

/-- Statements or members in a row, with what closes them. -/
theorem Parser.yields_manyUntil_fenced {α : Type} {item : Parser α} {node : α → Node}
    {stop : Lexeme → Bool} (owner : Kind) (label : Label) {closing : List Item}
    (hreads : ∀ ts, ts ≠ [] → (item ts).Reads ts fun a items => (node a).Spells items)
    (hstop : stop (.punct .closeBrace) = true) (hlabel : label = .statement ∨ label = .member)
    (hc : owner.closing? = some closing) (hf : Item.Fenced owner closing)
    (h : item.Yields fun a after => (node a).Recovered after) :
    (manyUntil stop item).Yields fun as _ =>
      Item.Fenced owner (Item.children label (as.map node) ++ closing) := by
  have heach : item.Yields fun a after => ∀ rest, Follows stop closing after rest →
      (node a).Stands owner label rest ∧ (node a).Fenced :=
    h.mono fun a after ha rest hrest => ⟨ha.stands hstop hlabel hc hrest, ha.fenced⟩
  exact (yields_manyUntil_each label hreads heach).mono fun as _ has => Item.fenced_children hf has

end ShaderSyntax
