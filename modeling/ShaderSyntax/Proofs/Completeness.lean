import ShaderSyntax.Concrete
import ShaderSyntax.Grammar.Recovery

/-!
# Parsers that end well

A production that meets what it looks for is done without a finding. This file says so for each way
of building a parser, as equations: what is left is the run of the next parser on the rest.
-/
namespace ShaderSyntax

/-- What is left does not start with such a lexeme. -/
def Ends (more : Lexeme → Bool) (rest : List Lexeme) : Prop :=
  ∀ l ∈ rest.head?, more l = false

theorem ends_nil (more : Lexeme → Bool) : Ends more [] := by
  intro l hl
  cases hl

theorem ends_cons {more : Lexeme → Bool} {l : Lexeme} {rest : List Lexeme} (h : more l = false) :
    Ends more (l :: rest) := by
  intro l' hl
  cases hl
  exact h

theorem Ends.head {more : Lexeme → Bool} {l : Lexeme} {rest : List Lexeme}
    (h : Ends more (l :: rest)) : more l = false :=
  h l rfl

theorem Ends.mono {more less : Lexeme → Bool} {rest : List Lexeme} (h : Ends more rest)
    (hml : ∀ l, more l = false → less l = false) : Ends less rest :=
  fun l hl => hml l (h l hl)

namespace Parser

variable {α β : Type} {p : Parser α} {ts mid rest : List Lexeme} {a : α}

theorem bind_done {f : α → Parser β} (h : p ts = .done a mid []) : (p >>= f) ts = f a mid := by
  simp [bind_eq_andThen, andThen, h]

theorem andThen_done {f : α → Parser β} (h : p ts = .done a mid []) :
    p.andThen f ts = f a mid :=
  bind_done h

theorem require_done (place : Place) (rest : List Lexeme) :
    require place (.punct place.punct :: rest) = .done () rest [] := by
  simp [require]

theorem onPunct_same (q : Punct) (yes no : Parser α) (rest : List Lexeme) :
    onPunct q yes no (.punct q :: rest) = yes rest := by
  simp [onPunct]

theorem onPunct_other {q : Punct} (yes no : Parser α) (h : Ends (Recovery.isPunct q) ts) :
    onPunct q yes no ts = no ts := by
  unfold onPunct
  split
  · next r rest =>
    have hr : r ≠ q := by simpa [Recovery.isPunct] using h.head
    rw [if_neg hr]
  · rfl

theorem onKeyword_same (k : Keyword) (yes no : Parser α) (rest : List Lexeme) :
    onKeyword k yes no (.word k.spelling :: rest) = yes rest := by
  simp [onKeyword]

theorem onKeyword_other {k : Keyword} (yes no : Parser α) (h : Ends (Recovery.isKeyword k) ts) :
    onKeyword k yes no ts = no ts := by
  unfold onKeyword
  split
  · next w rest =>
    have hw : w ≠ k.spelling := by simpa [Recovery.isKeyword] using h.head
    rw [if_neg hw]
  · rfl

/-- A word of the class. -/
def isWordOf (cls : WordClass) : Lexeme → Bool
  | .word w => classify w == cls
  | _ => false

theorem qualifier_some {cls : WordClass} {w : Text} (h : classify w = cls) (rest : List Lexeme) :
    qualifier cls (.word w :: rest) = .done (some w) rest [] := by
  simp [qualifier, h]

theorem qualifier_none {cls : WordClass} (h : Ends (isWordOf cls) ts) :
    qualifier cls ts = .done none ts [] := by
  unfold qualifier
  split
  · next w rest =>
    have hw : classify w ≠ cls := by simpa [isWordOf] using h.head
    rw [if_neg hw]
  · rfl

theorem recovering_done {resume : List Lexeme → List Lexeme → List Lexeme} {error : Skipped → α}
    (h : p ts = .done a rest []) : recovering resume error p ts = .done a rest [] := by
  simp [recovering, h]

section Lists

-- A lexeme that may not follow an item is told by `more`: the item would go on with it.
variable {item : Parser α} {lexemes : α → List Lexeme} {more : Lexeme → Bool}

theorem manyWithin_done {stop : Lexeme → Bool} (as : List α) (rest : List Lexeme)
    (hitem : ∀ a ∈ as, ∀ mid, Ends more mid → item (lexemes a ++ mid) = .done a mid [])
    (hhead : ∀ a ∈ as, ∃ l tail, lexemes a = l :: tail ∧ stop l = false ∧ more l = false)
    (hmore : Ends more rest) (hstop : ∀ l ∈ rest.head?, stop l = true) (rounds : Nat)
    (hr : as.length ≤ rounds) :
    manyWithin stop item rounds (as.flatMap lexemes ++ rest) = .done as rest [] := by
  induction as generalizing rounds with
  | nil =>
    cases rounds with
    | zero => rfl
    | succ rounds =>
      cases rest with
      | nil => rfl
      | cons l rest => simp [manyWithin, hstop l rfl]
  | cons a as ih =>
    obtain ⟨rounds, rfl⟩ : ∃ n, rounds = n + 1 := ⟨rounds - 1, by simp at hr; omega⟩
    obtain ⟨l, tail, hl, hgo, -⟩ := hhead a (by simp)
    have hnext : Ends more (as.flatMap lexemes ++ rest) := by
      cases as with
      | nil => exact hmore
      | cons b as =>
        obtain ⟨l, tail, hl, -, hm⟩ := hhead b (by simp)
        rw [List.flatMap_cons, hl]
        exact ends_cons hm
    have hfirst := hitem a (by simp) _ hnext
    have hrest := ih (fun b hb => hitem b (by simp [hb])) (fun b hb => hhead b (by simp [hb]))
      rounds (by simpa using hr)
    rw [List.flatMap_cons, List.append_assoc]
    rw [hl, List.cons_append] at hfirst ⊢
    simp only [manyWithin, hgo, Bool.false_eq_true, if_false]
    rw [bind_done hfirst, bind_done hrest]
    rfl

/-- Items are parsed one by one up to what stops them. -/
theorem manyUntil_done {stop : Lexeme → Bool} (as : List α) (rest : List Lexeme)
    (hitem : ∀ a ∈ as, ∀ mid, Ends more mid → item (lexemes a ++ mid) = .done a mid [])
    (hhead : ∀ a ∈ as, ∃ l tail, lexemes a = l :: tail ∧ stop l = false ∧ more l = false)
    (hmore : Ends more rest) (hstop : ∀ l ∈ rest.head?, stop l = true) :
    manyUntil stop item (as.flatMap lexemes ++ rest) = .done as rest [] := by
  refine manyWithin_done as rest hitem hhead hmore hstop _ ?_
  -- Each item has a lexeme, so there are rounds for all.
  have hlen : as.length ≤ (as.flatMap lexemes).length := by
    clear hitem
    induction as with
    | nil => exact Nat.le_refl 0
    | cons a as ih =>
      obtain ⟨l, tail, hl, -⟩ := hhead a (by simp)
      have := ih fun b hb => hhead b (by simp [hb])
      simp only [List.flatMap_cons, List.length_append, List.length_cons, hl]
      omega
  rw [List.length_append]
  omega

theorem moreWithin_done (as : List α) (rest : List Lexeme)
    (hitem : ∀ a ∈ as, ∀ mid, Ends more mid → item (lexemes a ++ mid) = .done a mid [])
    (hcomma : more (.punct .comma) = false) (hmore : Ends more rest)
    (hend : Ends (Recovery.isPunct .comma) rest) (rounds : Nat) (hr : as.length ≤ rounds) :
    moreWithin item rounds (as.flatMap (fun a => .punct .comma :: lexemes a) ++ rest) =
      .done as rest [] := by
  induction as generalizing rounds with
  | nil =>
    cases rounds with
    | zero => rfl
    | succ rounds => exact onPunct_other _ _ hend
  | cons a as ih =>
    obtain ⟨rounds, rfl⟩ : ∃ n, rounds = n + 1 := ⟨rounds - 1, by simp at hr; omega⟩
    have hnext : Ends more (as.flatMap (fun a => .punct .comma :: lexemes a) ++ rest) := by
      cases as with
      | nil => exact hmore
      | cons b as => exact ends_cons hcomma
    have hrest := ih (fun b hb => hitem b (by simp [hb])) rounds (by simpa using hr)
    rw [List.flatMap_cons, List.cons_append, List.cons_append, List.append_assoc, moreWithin,
      onPunct_same, bind_done (hitem a (by simp) _ hnext), bind_done hrest]
    rfl

/-- Items with commas between them are parsed one by one. -/
theorem separated_done (a : α) (as : List α) (rest : List Lexeme)
    (hitem : ∀ b ∈ a :: as, ∀ mid, Ends more mid → item (lexemes b ++ mid) = .done b mid [])
    (hcomma : more (.punct .comma) = false) (hmore : Ends more rest)
    (hend : Ends (Recovery.isPunct .comma) rest) :
    separated item
      (lexemes a ++ (as.flatMap (fun b => .punct .comma :: lexemes b) ++ rest)) =
      .done (a :: as) rest [] := by
  have hnext : Ends more (as.flatMap (fun b => .punct .comma :: lexemes b) ++ rest) := by
    cases as with
    | nil => exact hmore
    | cons b as => exact ends_cons hcomma
  have hlen : as.length ≤ (as.flatMap (fun b => .punct .comma :: lexemes b) ++ rest).length := by
    rw [List.length_append, List.length_flatMap]
    clear hitem hnext
    induction as with
    | nil => exact Nat.zero_le _
    | cons b as ih =>
      simp only [List.map_cons, List.sum_cons, List.length_cons] at ih ⊢
      omega
  have hmany :=
    moreWithin_done as rest (fun b hb => hitem b (by simp [hb])) hcomma hmore hend _ hlen
  rw [separated, bind_done (hitem a (by simp) _ hnext)]
  exact (bind_done hmany).trans rfl

end Lists

section Growth

variable {step : α → Lexeme → Option (Parser α)} {b : α}

theorem growWithin_end (h : ∀ l ∈ ts.head?, step a l = none) (rounds : Nat) :
    growWithin step rounds a ts = .done a ts [] := by
  cases rounds with
  | zero => rfl
  | succ rounds =>
    cases ts with
    | nil => rfl
    | cons l rest => simp [growWithin, h l rfl]

theorem growWithin_step {l : Lexeme} (hs : step a l = some p) (hp : p ts = .done b mid [])
    (rounds : Nat) : growWithin step (rounds + 1) a (l :: ts) = growWithin step rounds b mid := by
  simp only [growWithin, hs]
  exact andThen_done hp

end Growth

end Parser

namespace Item

/-- The lexemes of children with commas between them. -/
theorem lexemes_separated (label : Label) (n : Node) (nodes : List Node) :
    lexemes (separated label (n :: nodes)) =
      n.lexemes ++ nodes.flatMap fun m => .punct .comma :: m.lexemes := by
  induction nodes generalizing n with
  | nil => simp [separated, lexemes]
  | cons m nodes ih =>
    rw [separated]
    · simp only [lexemes, mark, ih, List.flatMap_cons, List.cons_append]
    · simp

theorem lexemes_children (label : Label) (nodes : List Node) :
    lexemes (children label nodes) = nodes.flatMap Node.lexemes := by
  induction nodes with
  | nil => rfl
  | cons n nodes ih =>
    rw [List.flatMap_cons, ← ih]
    rfl

end Item

end ShaderSyntax
