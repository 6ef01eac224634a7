import ShaderSyntax.Ast.Stmt
import ShaderSyntax.Grammar.Recovery
import ShaderSyntax.Proofs.Itemwise

/-!
# What a parser reads

A parser that ends well has taken some lexemes from the front and made some findings. Both are told
by items: the lexemes are theirs, in order, and the findings are their invalid nodes, in order. This
file states that contract, `Parser.Reads`, and proves one rule for each way of building a parser.
The grammar then needs no argument about lexeme lists or findings at all: a production is read off
as the items of its value.
-/
namespace ShaderSyntax

/-- Where the node of a finding stands, and the node. -/
def Finding.site (f : Finding) : Nat × Node :=
  (f.nodeLeft, f.node)

mutual

/-- The invalid leaves and the error nodes of a node that `after` lexemes follow, in source order.
Each comes with the number of lexemes left at its first one. -/
def Node.sites (after : Nat) : Node → List (Nat × Node)
  | .leaf k l => if k.isInvalid then [(after + 1, .leaf k l)] else []
  | .error s => [(after + s.lexemes.length, .error s)]
  | .branch _ items => Item.sites after items

/-- The invalid leaves and the error nodes of a list of items that `after` lexemes follow. -/
def Item.sites (after : Nat) : List Item → List (Nat × Node)
  | [] => []
  | .token _ :: rest => Item.sites after rest
  | .attribute _ _ :: rest => Item.sites after rest
  | .child _ n :: rest => n.sites (after + Item.size rest) ++ Item.sites after rest

end

mutual

/-- No node is empty, and only leaves and error nodes have an invalid kind. -/
def Node.Solid : Node → Prop
  | .leaf _ _ => True
  | .error s => s.lexemes ≠ []
  | .branch k items => k.isInvalid = false ∧ items ≠ [] ∧ Item.Solid items

def Item.Solid : List Item → Prop
  | [] => True
  | .token _ :: rest => Item.Solid rest
  | .attribute _ _ :: rest => Item.Solid rest
  | .child _ n :: rest => n.Solid ∧ Item.Solid rest

end

namespace Item

@[simp] theorem size_append (xs ys : List Item) : size (xs ++ ys) = size xs + size ys := by
  rw [← length_lexemes, lexemes_append, List.length_append, length_lexemes, length_lexemes]

@[simp] theorem sites_append (after : Nat) (xs ys : List Item) :
    sites after (xs ++ ys) = sites (after + size ys) xs ++ sites after ys := by
  induction xs with
  | nil => simp [sites]
  | cons x xs ih =>
    rcases x with l | ⟨label, l⟩ | ⟨label, n⟩
    · simpa [sites] using ih
    · simpa [sites] using ih
    · have he : after + (size xs + size ys) = after + size ys + size xs := by omega
      simp [sites, ih, he]

theorem itemwise_solid : Itemwise Solid (fun _ => True) (fun _ => True) fun _ n => n.Solid := by
  constructor <;> simp [Solid]

@[simp] theorem solid_append (xs ys : List Item) : Solid (xs ++ ys) ↔ Solid xs ∧ Solid ys :=
  itemwise_solid.append xs ys

end Item

mutual

theorem Node.Solid.size_pos : ∀ {n : Node}, n.Solid → 0 < n.size
  | .leaf _ _, _ => Nat.one_pos
  | .error _, h => List.length_pos_iff.mpr h
  | .branch _ _, h => Item.Solid.size_pos h.2.1 h.2.2

theorem Item.Solid.size_pos : ∀ {items : List Item}, items ≠ [] → Item.Solid items →
    0 < Item.size items
  | [], h, _ => absurd rfl h
  | .token _ :: _, _, _ => Nat.succ_pos _
  | .attribute _ _ :: _, _, _ => Nat.succ_pos _
  | .child _ _ :: _, _, h => Nat.add_pos_left (Node.Solid.size_pos h.1) _

end

/-- The items account for a run from `ts` to `rest` that made the findings. -/
structure Item.Account (items : List Item) (ts rest : List Lexeme) (found : List Finding) :
    Prop where
  lexemes : ts = Item.lexemes items ++ rest
  findings : found.map Finding.site = Item.sites rest.length items
  solid : Item.Solid items

namespace Item.Account

variable {xs ys : List Item} {ts mid rest : List Lexeme} {first last : List Finding}

theorem nil (ts : List Lexeme) : Account [] ts ts [] :=
  ⟨rfl, rfl, trivial⟩

theorem token (l : Lexeme) (rest : List Lexeme) : Account [.token l] (l :: rest) rest [] :=
  ⟨rfl, rfl, trivial⟩

theorem append (hx : Account xs ts mid first) (hy : Account ys mid rest last) :
    Account (xs ++ ys) ts rest (first ++ last) := by
  have hlen : mid.length = rest.length + size ys := by
    rw [hy.lexemes, List.length_append, length_lexemes, Nat.add_comm]
  constructor
  · rw [lexemes_append, List.append_assoc, ← hy.lexemes]
    exact hx.lexemes
  · rw [List.map_append, hx.findings, hy.findings, sites_append, hlen]
  · exact (solid_append xs ys).mpr ⟨hx.solid, hy.solid⟩

theorem suffix (h : Account xs ts rest first) : rest <:+ ts :=
  ⟨Item.lexemes xs, h.lexemes.symm⟩

theorem length_eq (h : Account xs ts rest first) : ts.length = rest.length + size xs := by
  rw [h.lexemes, List.length_append, length_lexemes, Nat.add_comm]

end Item.Account

/-- The items are a node's items, or account for the same run as the node by itself. -/
structure Node.Spells (n : Node) (items : List Item) : Prop where
  lexemes : n.lexemes = Item.lexemes items
  sites : ∀ after, n.sites after = Item.sites after items
  solid : Item.Solid items → n.Solid

theorem Node.spells_branch {k : Kind} {items : List Item} (hk : k.isInvalid = false)
    (hne : items ≠ []) : (Node.branch k items).Spells items :=
  ⟨rfl, fun _ => rfl, fun h => ⟨hk, hne, h⟩⟩

theorem Node.spells_child (label : Label) (n : Node) : n.Spells [.child label n] := by
  constructor
  · simp [Item.lexemes]
  · intro after
    simp [Item.sites, Item.size]
  · exact fun h => h.1

theorem Node.Spells.child {n : Node} {items : List Item} {ts rest : List Lexeme}
    {found : List Finding} (h : n.Spells items) (label : Label)
    (ha : Item.Account items ts rest found) : Item.Account [.child label n] ts rest found := by
  constructor
  · simpa [Item.lexemes, h.lexemes] using ha.lexemes
  · simpa [Item.sites, Item.size, h.sites] using ha.findings
  · exact ⟨h.solid ha.solid, trivial⟩

theorem Node.Spells.size {n : Node} {items : List Item} (h : n.Spells items) :
    n.size = Item.size items := by
  rw [← Node.length_lexemes, h.lexemes, Item.length_lexemes]

/-- A child may be exchanged for items that it is made of. -/
theorem Node.Spells.open_child {n m : Node} {label : Label} (before : List Item) {xs ys : List Item}
    (hn : n.Spells (before ++ .child label m :: ys)) (hm : m.Spells xs) :
    n.Spells (before ++ (xs ++ ys)) := by
  constructor
  · rw [hn.lexemes]
    simp only [Item.lexemes_append, Item.lexemes, hm.lexemes]
  · intro after
    rw [hn.sites]
    simp only [Item.sites_append, Item.sites, Item.size_append, Item.size, hm.sites, hm.size]
  · intro h
    simp only [Item.solid_append] at h
    refine hn.solid ?_
    simp only [Item.solid_append, Item.Solid]
    exact ⟨h.1, hm.solid h.2.1, h.2.2⟩

variable {α β : Type}

/-- The outcome of a run on `ts`: it leaves an end part of the input, and if it is done, items that
the value stands in the relation to account for the run. -/
structure Outcome.Reads (o : Outcome α) (ts : List Lexeme) (Q : α → List Item → Prop) : Prop where
  suffix : o.rest <:+ ts
  done : ∀ a rest found, o = .done a rest found →
    ∃ items, Q a items ∧ Item.Account items ts rest found

namespace Outcome.Reads

variable {ts : List Lexeme} {Q R : α → List Item → Prop}

theorem of_account {a : α} {rest : List Lexeme} {found : List Finding} {items : List Item}
    (hq : Q a items) (h : Item.Account items ts rest found) :
    (Outcome.done a rest found).Reads ts Q := by
  refine ⟨h.suffix, ?_⟩
  intro a' rest' found' he
  cases he
  exact ⟨items, hq, h⟩

theorem of_failed (problem : Problem) {rest : List Lexeme} (found : List Finding)
    (h : rest <:+ ts) : (Outcome.failed problem rest found : Outcome α).Reads ts Q :=
  ⟨h, by simp⟩

theorem of_tooDeep {rest : List Lexeme} (found : List Finding) (h : rest <:+ ts) :
    (Outcome.tooDeep rest found : Outcome α).Reads ts Q :=
  ⟨h, by simp⟩

/-- Items may be exchanged for others that account for the same runs. -/
theorem convert {o : Outcome α} (h : o.Reads ts Q)
    (hqr : ∀ a items, Q a items → ∃ items', R a items' ∧
      ∀ rest found, Item.Account items ts rest found → Item.Account items' ts rest found) :
    o.Reads ts R := by
  refine ⟨h.suffix, ?_⟩
  intro a rest found he
  obtain ⟨items, hq, ha⟩ := h.done a rest found he
  obtain ⟨items', hr, hc⟩ := hqr a items hq
  exact ⟨items', hr, hc rest found ha⟩

/-- A run that starts after items that account for what came first. -/
theorem after {o : Outcome α} {items : List Item} {mid : List Lexeme} {first : List Finding}
    (ha : Item.Account items ts mid first)
    (h : o.Reads mid fun a more => Q a (items ++ more)) : (o.after first).Reads ts Q := by
  cases o with
  | done a rest last =>
    obtain ⟨more, hq, hm⟩ := h.done a rest last rfl
    exact of_account hq (ha.append hm)
  | failed problem rest last => exact of_failed problem _ (h.suffix.trans ha.suffix)
  | tooDeep rest last => exact of_tooDeep _ (h.suffix.trans ha.suffix)

/-- The form without findings before the run. -/
theorem following {o : Outcome α} {items : List Item} {mid : List Lexeme}
    (ha : Item.Account items ts mid [])
    (h : o.Reads mid fun a more => Q a (items ++ more)) : o.Reads ts Q := by
  simpa using h.after ha

/-- A second parser goes on from where the first leaves off. -/
theorem bind {p : Parser α} {f : α → Parser β} {S : β → List Item → Prop}
    (h : (p ts).Reads ts Q)
    (hf : ∀ a items, Q a items → ∀ mid, (f a mid).Reads mid fun b more => S b (items ++ more)) :
    (p.andThen f ts).Reads ts S := by
  unfold Parser.andThen
  cases hp : p ts with
  | done a mid first =>
    obtain ⟨items, hq, ha⟩ := h.done a mid first hp
    exact (hf a items hq mid).after ha
  | failed problem rest first =>
    have hs := h.suffix
    rw [hp] at hs
    exact of_failed problem first hs
  | tooDeep rest first =>
    have hs := h.suffix
    rw [hp] at hs
    exact of_tooDeep first hs

end Outcome.Reads

/-- On every input the parser reads items that its value stands in the relation to. -/
def Parser.Reads (p : Parser α) (Q : α → List Item → Prop) : Prop :=
  ∀ ts, (p ts).Reads ts Q

/-- On every input the parser reads the node of its value. -/
def Parser.ReadsNode (p : Parser α) (node : α → Node) : Prop :=
  p.Reads fun a items => (node a).Spells items

namespace Parser

variable {p : Parser α} {Q R : α → List Item → Prop} {node : α → Node}

theorem Reads.mono (h : p.Reads Q) (hqr : ∀ a items, Q a items → R a items) : p.Reads R :=
  fun ts => (h ts).convert fun a items hq => ⟨items, hqr a items hq, fun _ _ ha => ha⟩

theorem Reads.andThen {f : α → Parser β} {S : β → List Item → Prop} (h : p.Reads Q)
    (hf : ∀ a items, Q a items → (f a).Reads fun b more => S b (items ++ more)) :
    (p.andThen f).Reads S :=
  fun ts => (h ts).bind hf

theorem reads_value {a : α} (h : Q a []) : (value a).Reads Q :=
  fun ts => .of_account h (.nil ts)

theorem reads_fail (problem : Option Lexeme → Problem) : (fail problem : Parser α).Reads Q :=
  fun ts => .of_failed (problem ts.head?) [] (List.suffix_refl ts)

theorem reads_tooDeep : (tooDeep : Parser α).Reads Q :=
  fun ts => .of_tooDeep [] (List.suffix_refl ts)

/-- A required mark is there and taken, or it is missing and nothing is. -/
theorem require_cases (place : Place) (ts : List Lexeme) :
    (∃ rest, ts = .punct place.punct :: rest ∧ require place ts = .done () rest []) ∨
      require place ts = .failed (.missing place ts.head?) ts [] := by
  unfold require
  split
  · next q rest =>
    by_cases hq : q = place.punct
    · exact .inl ⟨rest, by rw [hq], if_pos hq⟩
    · exact .inr (if_neg hq)
  · exact .inr rfl

theorem reads_require (place : Place) :
    (require place).Reads fun _ items => items = [.mark place.punct] := by
  intro ts
  unfold require
  split
  · next q rest =>
    split
    · next hq =>
      subst hq
      exact .of_account rfl (.token _ rest)
    · exact .of_failed _ [] (List.suffix_refl _)
  · exact .of_failed _ [] (List.suffix_refl _)

theorem Reads.onPunct {yes no : Parser α} (q : Punct)
    (hyes : yes.Reads fun a items => Q a (.mark q :: items)) (hno : no.Reads Q) :
    (onPunct q yes no).Reads Q := by
  intro ts
  unfold Parser.onPunct
  split
  · next r rest =>
    split
    · next hr =>
      subst hr
      exact (hyes rest).following (.token _ rest)
    · exact hno _
  · exact hno _

theorem Reads.onKeyword {yes no : Parser α} (k : Keyword)
    (hyes : yes.Reads fun a items => Q a (.keyword k :: items)) (hno : no.Reads Q) :
    (onKeyword k yes no).Reads Q := by
  intro ts
  unfold Parser.onKeyword
  split
  · next w rest =>
    split
    · next hw =>
      subst hw
      exact (hyes rest).following (.token _ rest)
    · exact hno _
  · exact hno _

theorem reads_qualifier (cls : WordClass) (label : Label) {k : Kind} (hk : k.isInvalid = false) :
    (qualifier cls).Reads fun q items =>
      items = Item.child? label (q.map (qualifierNode k)) := by
  intro ts
  unfold qualifier
  split
  · next w rest =>
    split
    · refine .of_account rfl ⟨rfl, ?_, trivial, trivial⟩
      simp [Item.child?, Item.sites, qualifierNode, Node.sites, hk]
    · exact .of_account rfl (.nil _)
  · exact .of_account rfl (.nil _)

theorem Reads.inRounds {q : Nat → Parser α} (h : ∀ rounds, (q rounds).Reads Q) :
    (inRounds q).Reads Q :=
  fun ts => h ts.length ts

/-- A node that is read can stand as a child under any label. -/
theorem ReadsNode.child (h : p.ReadsNode node) (label : Label) :
    p.Reads fun a items => items = [.child label (node a)] :=
  fun ts => (h ts).convert fun _ _ hn => ⟨_, rfl, fun _ _ ha => hn.child label ha⟩

theorem reads_manyWithin {item : Parser α} (stop : Lexeme → Bool) (label : Label)
    (h : ∀ ts, ts ≠ [] → (item ts).Reads ts fun a items => (node a).Spells items) (rounds : Nat) :
    (manyWithin stop item rounds).Reads fun as items =>
      items = Item.children label (as.map node) := by
  induction rounds with
  | zero => exact reads_value rfl
  | succ rounds ih =>
    intro ts
    unfold manyWithin
    split
    · exact .of_account rfl (.nil _)
    · next l rest =>
      split
      · exact .of_account rfl (.nil _)
      · refine (h (l :: rest) (by simp)).convert
          (R := fun a items => items = [.child label (node a)])
          (fun _ _ hn => ⟨_, rfl, fun _ _ ha => hn.child label ha⟩) |>.bind ?_
        rintro a _ rfl
        refine Reads.andThen ih ?_
        rintro as _ rfl
        exact reads_value (by simp [Item.children])

/-- Items in a row are children in a row. They are parsed where there is input only. -/
theorem reads_manyUntil {item : Parser α} (stop : Lexeme → Bool) (label : Label)
    (h : ∀ ts, ts ≠ [] → (item ts).Reads ts fun a items => (node a).Spells items) :
    (manyUntil stop item).Reads fun as items => items = Item.children label (as.map node) :=
  Reads.inRounds (reads_manyWithin stop label h)

/-- Further items, each after a comma. -/
def followers (label : Label) (nodes : List Node) : List Item :=
  nodes.flatMap fun n => [.mark .comma, .child label n]

theorem separated_cons (label : Label) (n : Node) (nodes : List Node) :
    Item.separated label (n :: nodes) = .child label n :: followers label nodes := by
  induction nodes generalizing n with
  | nil => rfl
  | cons m nodes ih =>
    rw [Item.separated, ih]
    · rfl
    · simp

theorem reads_moreWithin {item : Parser α} (label : Label) (h : item.ReadsNode node)
    (rounds : Nat) :
    (moreWithin item rounds).Reads fun as items => items = followers label (as.map node) := by
  induction rounds with
  | zero => exact reads_value rfl
  | succ rounds ih =>
    refine Reads.onPunct .comma ?_ (reads_value rfl)
    refine Reads.andThen (h.child label) ?_
    rintro a _ rfl
    refine Reads.andThen ih ?_
    rintro as _ rfl
    exact reads_value (by simp [followers])

/-- One or more items with commas between them. -/
theorem ReadsNode.separated {item : Parser α} (h : item.ReadsNode node) (label : Label) :
    (separated item).Reads fun as items =>
      as ≠ [] ∧ items = Item.separated label (as.map node) := by
  refine Reads.andThen (h.child label) ?_
  rintro a _ rfl
  refine Reads.andThen (Reads.inRounds (reads_moreWithin label h)) ?_
  rintro as _ rfl
  exact reads_value (by simp [separated_cons])

theorem reads_growWithin {step : α → Lexeme → Option (Parser α)} (label : Label)
    (h : ∀ a l q, step a l = some q →
      q.Reads fun b items => (node b).Spells (.child label (node a) :: .token l :: items))
    (rounds : Nat) (a : α) :
    (growWithin step rounds a).Reads fun b items =>
      ∀ xs, (node a).Spells xs → (node b).Spells (xs ++ items) := by
  induction rounds generalizing a with
  | zero => exact reads_value fun xs hx => by simpa using hx
  | succ rounds ih =>
    intro ts
    unfold growWithin
    split
    · exact .of_account (fun xs hx => by simpa using hx) (.nil _)
    · next l rest =>
      split
      · exact .of_account (fun xs hx => by simpa using hx) (.nil _)
      · next q hq =>
        refine Outcome.Reads.following (.token l rest) ((h a l q hq rest).bind ?_)
        intro b items hb mid
        refine (ih b mid).convert ?_
        intro c more hc
        refine ⟨more, ?_, fun _ _ ha => ha⟩
        intro xs hx
        simpa using hc _ (hb.open_child [] hx)

/-- A value that grows takes its old node in as the first child of the new one. -/
theorem reads_grow {step : α → Lexeme → Option (Parser α)} (label : Label)
    (h : ∀ a l q, step a l = some q →
      q.Reads fun b items => (node b).Spells (.child label (node a) :: .token l :: items)) (a : α) :
    (grow step a).Reads fun b items =>
      ∀ xs, (node a).Spells xs → (node b).Spells (xs ++ items) :=
  Reads.inRounds fun rounds => reads_growWithin label h rounds a

end Parser

namespace Recovery

/-- A way to resume leaves an end part of the input, and gives up a lexeme if none was taken. -/
structure Resumes (resume : List Lexeme → List Lexeme → List Lexeme) : Prop where
  suffix : ∀ taken rest, resume taken rest <:+ rest
  progress : ∀ l rest, resume [] (l :: rest) <:+ rest

theorem afterStatement_suffix (depth : Nat) (ts : List Lexeme) :
    afterStatement depth ts <:+ ts := by
  fun_induction afterStatement depth ts with
  | case1 => exact List.suffix_refl _
  | case2 => exact List.suffix_cons _ _
  | case5 => exact List.suffix_refl _
  | case6 => exact List.suffix_cons _ _
  | case3 _ _ _ _ _ ih => exact ih.trans (List.suffix_cons _ _)
  | case4 _ _ _ _ _ ih => exact ih.trans (List.suffix_cons _ _)
  | case7 _ _ _ _ _ _ _ _ ih => exact ih.trans (List.suffix_cons _ _)
  | case8 _ _ _ _ _ _ ih => exact ih.trans (List.suffix_cons _ _)

theorem afterDeclaration_suffix (depth : Nat) (ts : List Lexeme) :
    afterDeclaration depth ts <:+ ts := by
  fun_induction afterDeclaration depth ts with
  | case1 => exact List.suffix_refl _
  | case2 => exact List.suffix_cons _ _
  | case5 => exact List.nil_suffix
  | case6 => exact ⟨[_, _], rfl⟩
  | case7 => exact List.suffix_cons _ _
  | case9 => exact List.suffix_refl _
  | case3 _ _ _ _ _ ih => exact ih.trans (List.suffix_cons _ _)
  | case4 _ _ _ _ _ ih => exact ih.trans (List.suffix_cons _ _)
  | case8 _ _ _ _ _ _ _ ih => exact ih.trans (List.suffix_cons _ _)
  | case10 _ _ _ _ _ _ _ ih => exact ih.trans (List.suffix_cons _ _)

theorem afterClause_suffix (depth : Nat) (ts : List Lexeme) : afterClause depth ts <:+ ts := by
  fun_induction afterClause depth ts with
  | case1 => exact List.suffix_refl _
  | case3 => exact List.suffix_refl _
  | case5 => exact List.suffix_refl _
  | case2 _ _ _ _ ih => exact ih.trans (List.suffix_cons _ _)
  | case4 _ _ _ _ _ _ ih => exact ih.trans (List.suffix_cons _ _)
  | case6 _ _ _ _ _ _ ih => exact ih.trans (List.suffix_cons _ _)

theorem resumes_resume (ends : Lexeme → Bool) {skip : Nat → List Lexeme → List Lexeme}
    (h : ∀ depth ts, skip depth ts <:+ ts) : Resumes (resume ends skip) := by
  have hp : ∀ l rest, resume ends skip [] (l :: rest) <:+ rest := by
    intro l rest
    change (if ends l then rest else skip (openBraces 0 [l]) rest) <:+ rest
    split
    · exact List.suffix_refl rest
    · exact h _ rest
  refine ⟨?_, hp⟩
  intro taken rest
  match taken, rest with
  | [], [] => exact h _ _
  | [], l :: rest => exact (hp l rest).trans (List.suffix_cons l rest)
  | _ :: _, _ => exact h _ _

theorem resumes_statement : Resumes resumeStatement :=
  resumes_resume _ afterStatement_suffix

theorem resumes_declaration : Resumes resumeDeclaration :=
  resumes_resume _ afterDeclaration_suffix

theorem resumes_clause : Resumes resumeClause :=
  resumes_resume _ afterClause_suffix

/-- What is left after a failure is shorter than the input, if there was any. -/
theorem Resumes.length_lt {resume : List Lexeme → List Lexeme → List Lexeme} (h : Resumes resume)
    {ts rest : List Lexeme} (hts : ts ≠ []) (hr : rest <:+ ts) :
    (resume (ts.take (ts.length - rest.length)) rest).length < ts.length := by
  have hle := hr.length_le
  by_cases he : rest.length = ts.length
  · have hrest : rest = ts := hr.eq_of_length he
    subst hrest
    obtain ⟨l, more, rfl⟩ := List.exists_cons_of_ne_nil hts
    rw [Nat.sub_self, List.take_zero]
    have := (h.progress l more).length_le
    simp only [List.length_cons]
    omega
  · have := (h.suffix (ts.take (ts.length - rest.length)) rest).length_le
    omega

end Recovery

namespace Parser

variable {p : Parser α} {node : α → Node}

/-- What was taken of an input, told by the length of what is left. -/
theorem take_of_rest (taken rest : List Lexeme) :
    (taken ++ rest).take ((taken ++ rest).length - rest.length) = taken := by
  rw [List.length_append, Nat.add_sub_cancel, List.take_left]

/-- An error node over the lexemes up to an end part of the input accounts for skipping them. -/
theorem account_skipped {ts after : List Lexeme} (hs : after <:+ ts)
    (hlt : after.length < ts.length) (problem : Problem) (reached left : Nat) :
    let skipped : Skipped := ⟨ts.take (ts.length - after.length), reached, problem⟩
    Item.Account [.child .value (.error skipped)] ts after
      [⟨problem, .error skipped, ts.length, left⟩] := by
  obtain ⟨taken, rfl⟩ := hs
  dsimp only
  rw [take_of_rest]
  constructor
  · simp [Item.lexemes, Node.lexemes]
  · simp [Finding.site, Item.sites, Item.size, Node.sites, Nat.add_comm]
  · refine ⟨?_, trivial⟩
    intro hnil
    simp only at hnil
    simp [hnil] at hlt

/-- Where there is input, a recovered production reads its node or an error node. -/
theorem ReadsNode.recovering (h : p.ReadsNode node)
    {resume : List Lexeme → List Lexeme → List Lexeme} (hres : Recovery.Resumes resume)
    {error : Skipped → α} (herr : ∀ s, node (error s) = .error s) (ts : List Lexeme)
    (hts : ts ≠ []) :
    (recovering resume error p ts).Reads ts fun a items => (node a).Spells items := by
  have hp := h ts
  unfold Parser.recovering
  cases ho : p ts with
  | done a rest found =>
    rw [ho] at hp
    exact hp
  | tooDeep rest found =>
    rw [ho] at hp
    exact hp
  | failed problem rest found =>
    have hrest : rest <:+ ts := by
      have hs := hp.suffix
      rwa [ho] at hs
    have hafter := (hres.suffix (ts.take (ts.length - rest.length)) rest).trans hrest
    refine .of_account ?_ (account_skipped hafter (hres.length_lt hts hrest) problem _ _)
    rw [herr]
    exact Node.spells_child .value _

theorem recovering_ne_failed (resume : List Lexeme → List Lexeme → List Lexeme)
    (error : Skipped → α) (p : Parser α) (ts : List Lexeme) (problem : Problem)
    (rest : List Lexeme) (found : List Finding) :
    recovering resume error p ts ≠ .failed problem rest found := by
  unfold Parser.recovering
  cases p ts <;> simp

/-- A parser that reads a node leaves less than there was. -/
theorem length_lt_of_reads {item : Parser α} {ts : List Lexeme} {a : α} {rest : List Lexeme}
    {found : List Finding} (h : (item ts).Reads ts fun a items => (node a).Spells items)
    (hd : item ts = .done a rest found) : rest.length < ts.length := by
  obtain ⟨items, hn, ha⟩ := h.done a rest found hd
  have hlen := ha.length_eq
  have hpos := (hn.solid ha.solid).size_pos
  rw [hn.size] at hpos
  omega

theorem manyWithin_stops {item : Parser α} (stop : Lexeme → Bool)
    (h : ∀ ts, ts ≠ [] → (item ts).Reads ts fun a items => (node a).Spells items)
    (hf : ∀ ts problem rest found, item ts ≠ .failed problem rest found) (rounds : Nat)
    (ts : List Lexeme) (hr : ts.length ≤ rounds) :
    (∃ as rest found, manyWithin stop item rounds ts = .done as rest found ∧
        ∀ l ∈ rest.head?, stop l = true) ∨
      ∃ rest found, manyWithin stop item rounds ts = .tooDeep rest found := by
  induction rounds generalizing ts with
  | zero =>
    have hts : ts = [] := List.length_eq_zero_iff.mp (by omega)
    subst hts
    exact .inl ⟨[], [], [], rfl, by simp⟩
  | succ rounds ih =>
    cases ts with
    | nil => exact .inl ⟨[], [], [], rfl, by simp⟩
    | cons l ts =>
      by_cases hl : stop l = true
      · exact .inl ⟨[], l :: ts, [], by simp [manyWithin, hl], by simpa using hl⟩
      · simp only [manyWithin, hl, Bool.false_eq_true, if_false, bind_eq_andThen,
          andThen_eq_done_iff, andThen_eq_tooDeep_iff]
        cases hi : item (l :: ts) with
        | failed problem rest found => exact absurd hi (hf _ _ _ _)
        | tooDeep rest found => exact .inr ⟨rest, found, .inl rfl⟩
        | done a mid first =>
          have hlt := length_lt_of_reads (h (l :: ts) (by simp)) hi
          rcases ih mid (by simp only [List.length_cons] at hlt hr; omega) with
            ⟨as, rest, last, hm, hstop⟩ | ⟨rest, last, hm⟩
          · refine .inl ⟨a :: as, rest, _, ⟨a, mid, first, last, rfl, ?_, rfl⟩, hstop⟩
            exact ⟨as, rest, last, [], hm, rfl, by simp⟩
          · exact .inr ⟨rest, _, .inr ⟨a, mid, first, last, rfl, .inl hm, rfl⟩⟩

/-- With a round for every lexeme left, the number of rounds does not matter. -/
theorem manyWithin_eq {item : Parser α} (stop : Lexeme → Bool)
    (h : ∀ ts, ts ≠ [] → (item ts).Reads ts fun a items => (node a).Spells items)
    (rounds rounds' : Nat) (ts : List Lexeme) (hr : ts.length ≤ rounds)
    (hr' : ts.length ≤ rounds') :
    manyWithin stop item rounds ts = manyWithin stop item rounds' ts := by
  induction rounds generalizing rounds' ts with
  | zero =>
    obtain rfl : ts = [] := List.length_eq_zero_iff.mp (by omega)
    cases rounds' <;> rfl
  | succ rounds ih =>
    cases ts with
    | nil => cases rounds' <;> rfl
    | cons l ts =>
      simp only [List.length_cons] at hr hr'
      obtain ⟨more, rfl⟩ : ∃ more, rounds' = more + 1 := ⟨rounds' - 1, by omega⟩
      by_cases hl : stop l = true
      · simp only [manyWithin, hl, if_true]
      · simp only [manyWithin, hl, Bool.false_eq_true, if_false, bind_eq_andThen, andThen]
        cases hi : item (l :: ts) with
        | done a mid first =>
          have hlt := length_lt_of_reads (h (l :: ts) (by simp)) hi
          simp only [List.length_cons] at hlt
          dsimp only
          rw [ih more mid (by omega) (by omega)]
        | failed problem rest found => rfl
        | tooDeep rest found => rfl

/-- Where items are done, the first is, and the others are those of what it left. -/
theorem manyUntil_cons_done {item : Parser α} {stop : Lexeme → Bool}
    (h : ∀ ts, ts ≠ [] → (item ts).Reads ts fun a items => (node a).Spells items)
    {ts rest : List Lexeme} {l : Lexeme} {as : List α} {found : List Finding}
    (hl : stop l = false) (hd : manyUntil stop item (l :: ts) = .done as rest found) :
    ∃ a mid first bs last, item (l :: ts) = .done a mid first ∧ as = a :: bs ∧
      manyUntil stop item mid = .done bs rest last := by
  change manyWithin stop item (ts.length + 1) (l :: ts) = _ at hd
  simp only [manyWithin, hl, Bool.false_eq_true, if_false, bind_eq_andThen,
    andThen_eq_done_iff] at hd
  obtain ⟨a, mid, first, last, hi, ⟨bs, mid', last', none', hm, hv, -⟩, -⟩ := hd
  cases hv
  have hlt := length_lt_of_reads (h (l :: ts) (by simp)) hi
  simp only [List.length_cons] at hlt
  rw [manyWithin_eq stop h ts.length mid.length mid (by omega) (Nat.le_refl _)] at hm
  exact ⟨a, mid, first, bs, last', hi, rfl, hm⟩

/-- Items come up to what stops them, unless the limit on nesting is met: no round is short. -/
theorem manyUntil_stops {item : Parser α} (stop : Lexeme → Bool)
    (h : ∀ ts, ts ≠ [] → (item ts).Reads ts fun a items => (node a).Spells items)
    (hf : ∀ ts problem rest found, item ts ≠ .failed problem rest found) (ts : List Lexeme) :
    (∃ as rest found, manyUntil stop item ts = .done as rest found ∧
        ∀ l ∈ rest.head?, stop l = true) ∨
      ∃ rest found, manyUntil stop item ts = .tooDeep rest found :=
  manyWithin_stops stop h hf ts.length ts (Nat.le_refl _)

/-- Items that nothing stops come to the end of the input. -/
theorem manyUntil_total {item : Parser α}
    (h : ∀ ts, ts ≠ [] → (item ts).Reads ts fun a items => (node a).Spells items)
    (hf : ∀ ts problem rest found, item ts ≠ .failed problem rest found) (ts : List Lexeme) :
    (∃ as found, manyUntil (fun _ => false) item ts = .done as [] found) ∨
      ∃ rest found, manyUntil (fun _ => false) item ts = .tooDeep rest found := by
  rcases manyUntil_stops (fun _ => false) h hf ts with ⟨as, rest, found, hd, hstop⟩ | hd
  · cases rest with
    | nil => exact .inl ⟨as, found, hd⟩
    | cons l rest => exact absurd (hstop l rfl) (by simp)
  · exact .inr hd

end Parser

end ShaderSyntax
