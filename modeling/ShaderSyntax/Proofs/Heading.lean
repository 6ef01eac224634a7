import ShaderSyntax.Proofs.Completeness
import ShaderSyntax.Proofs.Confinement
import ShaderSyntax.Proofs.Reading.Declaration

/-!
# The heading of a function

What a function has before its body: a type, a name and parameters in parentheses. Reading it looks
no further than the brace that opens the body, so whether lexemes are a heading does not depend on
what the body holds or on what follows it.
-/
namespace ShaderSyntax

namespace Parser

variable {α β γ : Type}

theorem andThen_assoc (p : Parser α) (f : α → Parser β) (g : β → Parser γ) :
    (p.andThen f).andThen g = p.andThen fun a => (f a).andThen g := by
  funext ts
  unfold andThen
  cases p ts with
  | done a mid first =>
    cases hf : f a mid with
    | done b rest found =>
      simp only [Outcome.after, hf]
      exact Outcome.after_append first found (g b rest)
    | failed problem rest found => simp [Outcome.after, hf]
    | tooDeep rest found => simp [Outcome.after, hf]
  | failed problem rest found => rfl
  | tooDeep rest found => rfl

theorem value_andThen (a : α) (f : α → Parser β) : (value a).andThen f = f a := by
  funext ts
  exact Outcome.after_nil (f a ts)

/-- A confined parser that looks no further than an opening brace: a run that is done before the
brace is done the same way whatever stands behind it. -/
structure Local (p : Parser α) : Prop where
  confined : p.Confined 0
  same : ∀ (front left behind other : List Lexeme) (a : α) (found : List Finding),
    p (front ++ .punct .openBrace :: behind) = .done a (left ++ .punct .openBrace :: behind) found →
      ∃ found', p (front ++ .punct .openBrace :: other) =
        .done a (left ++ .punct .openBrace :: other) found'

theorem done_append_inj {front left tail : List Lexeme} {a b : α} {found found' : List Finding}
    (h : Outcome.done a (front ++ tail) found = .done b (left ++ tail) found') :
    a = b ∧ front = left := by
  injection h with ha hr
  exact ⟨ha, List.append_cancel_right hr⟩

/-- What a confined run leaves before a brace was before the brace already. -/
theorem Confined.exists_before {p : Parser α} (h : p.Confined 0) {mid left tail : List Lexeme}
    {a : α} {found : List Finding} (hd : p mid = .done a (left ++ tail) found) :
    ∃ taken, mid = taken ++ left ++ tail := by
  have hsuffix := (h mid).suffix
  rw [hd] at hsuffix
  obtain ⟨taken, rfl⟩ := hsuffix
  exact ⟨taken, (List.append_assoc taken left tail).symm⟩

theorem local_value (a : α) : (value a).Local := by
  refine ⟨confined_value a, ?_⟩
  intro front left behind other b found h
  obtain ⟨rfl, rfl⟩ := done_append_inj h
  exact ⟨[], rfl⟩

theorem Local.andThen {p : Parser α} {f : α → Parser β} (h : p.Local) (hf : ∀ a, (f a).Local) :
    (p.andThen f).Local := by
  refine ⟨h.confined.andThen fun a => (hf a).confined, ?_⟩
  intro front left behind other b found hd
  obtain ⟨a, mid, first, last, hp, hq, -⟩ := andThen_eq_done_iff.mp hd
  obtain ⟨taken, rfl⟩ := (hf a).confined.exists_before hq
  obtain ⟨first', hp'⟩ := h.same front (taken ++ left) behind other a first hp
  obtain ⟨last', hq'⟩ := (hf a).same (taken ++ left) left behind other b last hq
  exact ⟨first' ++ last', andThen_eq_done_iff.mpr ⟨a, _, first', last', hp', hq', rfl⟩⟩

theorem Local.map {p : Parser α} (h : p.Local) (g : α → β) :
    (p.andThen fun a => value (g a)).Local :=
  h.andThen fun a => local_value (g a)

/-- A parser that takes one word and judges nothing else. -/
theorem local_of_word {p : Parser α} (hp : p.Confined 0)
    (hw : ∀ w, ∃ a, ∀ rest, ∃ found, p (.word w :: rest) = .done a rest found)
    (hd : ∀ ts a rest found, p ts = .done a rest found → ∃ w, ts.head? = some (.word w)) :
    p.Local := by
  refine ⟨hp, ?_⟩
  intro front left behind other a found h
  obtain ⟨w, hhead⟩ := hd _ _ _ _ h
  cases front with
  | nil => cases hhead
  | cons l front =>
    cases hhead
    obtain ⟨b, hb⟩ := hw w
    obtain ⟨found₁, h₁⟩ := hb (front ++ .punct .openBrace :: behind)
    obtain ⟨found₂, h₂⟩ := hb (front ++ .punct .openBrace :: other)
    obtain ⟨rfl, rfl⟩ := done_append_inj (h₁.symm.trans h)
    exact ⟨found₂, h₂⟩

theorem isPunct_openBrace {q : Punct} (hq : Recovery.isBrace (.punct q) = false) :
    Recovery.isPunct q (.punct .openBrace) = false := by
  cases q <;> first | rfl | cases hq

theorem Local.onPunct {yes no : Parser α} {q : Punct} (hq : Recovery.isBrace (.punct q) = false)
    (hyes : yes.Local) (hno : no.Local) : (onPunct q yes no).Local := by
  refine ⟨hyes.confined.onPunct q hq hno.confined, ?_⟩
  intro front left behind other a found h
  cases front with
  | nil =>
    rw [List.nil_append, onPunct_other _ _ (ends_cons (isPunct_openBrace hq))] at h ⊢
    exact hno.same [] left behind other a found h
  | cons l front =>
    by_cases hl : l = .punct q
    · subst hl
      rw [List.cons_append, onPunct_same] at h ⊢
      exact hyes.same front left behind other a found h
    · have hl : Recovery.isPunct q l = false := by simpa [Recovery.isPunct] using hl
      rw [List.cons_append, onPunct_other _ _ (ends_cons hl)] at h ⊢
      exact hno.same (l :: front) left behind other a found h

theorem local_require (place : Place) (hp : Recovery.isBrace (.punct place.punct) = false) :
    (require place).Local := by
  refine ⟨confined_require place hp, ?_⟩
  intro front left behind other a found h
  rcases require_cases place (front ++ .punct .openBrace :: behind) with ⟨rest, hts, hr⟩ | hr
  · cases front with
    | nil =>
      injection hts with hb
      rw [← hb] at hp
      cases hp
    | cons l front =>
      injection hts with hl hrest
      subst hl hrest
      obtain ⟨rfl, rfl⟩ := done_append_inj (hr.symm.trans h)
      exact ⟨[], require_done place _⟩
  · rw [hr] at h
    cases h

theorem local_qualifier (cls : WordClass) : (qualifier cls).Local := by
  refine ⟨confined_qualifier cls, ?_⟩
  intro front left behind other a found h
  have hstay : (∀ tail, qualifier cls (front ++ .punct .openBrace :: tail) =
      .done none (front ++ Lexeme.punct .openBrace :: tail) []) →
      ∃ found', qualifier cls (front ++ .punct .openBrace :: other) =
        .done a (left ++ Lexeme.punct .openBrace :: other) found' := by
    intro hnone
    obtain ⟨rfl, rfl⟩ := done_append_inj ((hnone behind).symm.trans h)
    exact ⟨[], hnone other⟩
  cases front with
  | nil => exact hstay fun _ => rfl
  | cons l front =>
    cases l with
    | word w =>
      by_cases hw : classify w = cls
      · have htake : ∀ tail, qualifier cls (.word w :: front ++ tail) =
            .done (some w) (front ++ tail) [] := fun tail => if_pos hw
        obtain ⟨rfl, rfl⟩ := done_append_inj ((htake _).symm.trans h)
        exact ⟨[], htake _⟩
      · exact hstay fun _ => if_neg hw
    | _ => exact hstay fun _ => rfl

namespace MarkedLoop

variable {q : Punct} {item : Parser α} {loop : Nat → Parser (List α)}

/-- Where no mark starts an item, no round is made. -/
theorem stay (h : MarkedLoop q item loop) (rounds : Nat) {l : Lexeme}
    (hl : Recovery.isPunct q l = false) (rest : List Lexeme) :
    loop rounds (l :: rest) = .done [] (l :: rest) [] := by
  cases rounds with
  | zero => rw [h.zero]; rfl
  | succ rounds => rw [h.succ, onPunct_other _ _ (ends_cons hl)]; rfl

theorem same_stay (h : MarkedLoop q item loop) {rounds : Nat} (rounds' : Nat) {l : Lexeme}
    (hl : Recovery.isPunct q l = false) {front left behind : List Lexeme} (other : List Lexeme)
    {as : List α} {found : List Finding}
    (hf : ∀ tail, ∃ more, front ++ Lexeme.punct .openBrace :: tail = l :: more)
    (hd : loop rounds (front ++ .punct .openBrace :: behind) =
      .done as (left ++ .punct .openBrace :: behind) found) :
    ∃ found', loop rounds' (front ++ .punct .openBrace :: other) =
      .done as (left ++ .punct .openBrace :: other) found' := by
  obtain ⟨more, hm⟩ := hf behind
  obtain ⟨more', hm'⟩ := hf other
  rw [hm, h.stay rounds hl, ← hm] at hd
  obtain ⟨rfl, rfl⟩ := done_append_inj hd
  exact ⟨[], by rw [hm', h.stay rounds' hl]⟩

/-- With a round for every lexeme before the brace, the number of rounds does not matter. -/
theorem same_within (h : MarkedLoop q item loop) (hq : Recovery.isBrace (.punct q) = false)
    (hitem : item.Local) (rounds rounds' : Nat) (front left behind other : List Lexeme)
    (as : List α) (found : List Finding) (hr : front.length ≤ rounds)
    (hr' : front.length ≤ rounds')
    (hd : loop rounds (front ++ .punct .openBrace :: behind) =
      .done as (left ++ .punct .openBrace :: behind) found) :
    ∃ found', loop rounds' (front ++ .punct .openBrace :: other) =
      .done as (left ++ .punct .openBrace :: other) found' := by
  have hbrace := isPunct_openBrace hq
  induction rounds generalizing rounds' front left as found with
  | zero =>
    obtain rfl : front = [] := List.length_eq_zero_iff.mp (by omega)
    exact h.same_stay rounds' hbrace other (fun tail => ⟨tail, rfl⟩) hd
  | succ rounds ih =>
    cases front with
    | nil => exact h.same_stay rounds' hbrace other (fun tail => ⟨tail, rfl⟩) hd
    | cons l front =>
      by_cases hl : l = .punct q
      · subst hl
        obtain ⟨more, rfl⟩ : ∃ more, rounds' = more + 1 :=
          ⟨rounds' - 1, by simp only [List.length_cons] at hr'; omega⟩
        rw [List.cons_append, h.succ, onPunct_same] at hd ⊢
        obtain ⟨a, mid, first, last, hp, hmore, -⟩ := andThen_eq_done_iff.mp hd
        obtain ⟨bs, rest, first', last', hb, hv, -⟩ := andThen_eq_done_iff.mp hmore
        injection hv with has hrest
        subst has hrest
        -- The next round starts before the brace, since the rest of the rounds ends there.
        obtain ⟨taken, rfl⟩ := (h.confined hq hitem.confined rounds).exists_before hb
        have hlen : (taken ++ left).length ≤ front.length := by
          have hle := (hitem.confined (front ++ .punct .openBrace :: behind)).suffix.length_le
          rw [hp] at hle
          simp only [Outcome.rest, List.length_append, List.length_cons] at hle ⊢
          omega
        simp only [List.length_cons] at hr hr'
        obtain ⟨f₁, h₁⟩ := hitem.same front (taken ++ left) behind other a first hp
        obtain ⟨f₂, h₂⟩ := ih more (taken ++ left) left bs first' (by omega) (by omega) hb
        refine ⟨f₁ ++ (f₂ ++ []), andThen_eq_done_iff.mpr ⟨a, _, f₁, _, h₁, ?_, rfl⟩⟩
        exact andThen_eq_done_iff.mpr ⟨bs, _, f₂, [], h₂, rfl, rfl⟩
      · have hl : Recovery.isPunct q l = false := by simpa [Recovery.isPunct] using hl
        exact h.same_stay rounds' hl other (fun tail => ⟨_, rfl⟩) hd

theorem local_inRounds (h : MarkedLoop q item loop) (hq : Recovery.isBrace (.punct q) = false)
    (hitem : item.Local) : (inRounds loop).Local := by
  refine ⟨Confined.inRounds (h.confined hq hitem.confined), ?_⟩
  intro front left behind other as found hd
  exact h.same_within hq hitem _ _ front left behind other as found (by simp) (by simp) hd

end MarkedLoop

theorem Local.separated {item : Parser α} (h : item.Local) : (separated item).Local :=
  h.andThen fun a =>
    ((markedLoop_moreWithin item).local_inRounds rfl h).map fun as => a :: as

end Parser

namespace Grammar

open ShaderSyntax.Parser

theorem name_local : name.Local := by
  apply local_of_word name_confined
  · intro w
    by_cases hw : (classify w).isName = true
    · exact ⟨.valid (classify w) w, fun rest => ⟨[], by simp [name, hw]⟩⟩
    · exact ⟨.invalid (classify w) w, fun rest => ⟨_, by simp only [name, hw]; rfl⟩⟩
  · intro ts a rest found h
    unfold name at h
    split at h
    · exact ⟨_, rfl⟩
    · cases h

theorem baseType_local : baseType.Local := by
  apply local_of_word baseType_confined
  · intro w
    cases hw : (classify w).typeRole with
    | builtin => exact ⟨.builtin w, fun rest => ⟨[], by simp [baseType, hw]⟩⟩
    | named => exact ⟨.named w, fun rest => ⟨[], by simp [baseType, hw]⟩⟩
    | invalid => exact ⟨.invalid (classify w) w, fun rest => ⟨_, by simp only [baseType, hw]; rfl⟩⟩
  · intro ts a rest found h
    unfold baseType at h
    split at h
    · exact ⟨_, rfl⟩
    · cases h

/-- A brace belongs to no size. -/
theorem sizeSuffixes_append (front behind : List Lexeme) :
    sizeSuffixes (front ++ .punct .openBrace :: behind) =
      ((sizeSuffixes front).1, (sizeSuffixes front).2 ++ .punct .openBrace :: behind) := by
  fun_induction sizeSuffixes front with
  | case1 n rest sizes after h ih => simp [sizeSuffixes, ih, h]
  | case2 ts hts =>
    have hnone : ∀ n rest, ts ++ .punct .openBrace :: behind =
        .punct .openBracket :: .int n :: .punct .closeBracket :: rest → False := by
      intro n rest he
      rcases ts with _ | ⟨l₁, _ | ⟨l₂, _ | ⟨l₃, ts⟩⟩⟩
      · simp at he
      · simp at he
      · simp at he
      · simp only [List.cons_append, List.cons.injEq] at he
        obtain ⟨rfl, rfl, rfl, -⟩ := he
        exact hts n ts rfl
    rw [sizeSuffixes.eq_2 _ hnone]

theorem typeRef_local : typeRef.Local := by
  apply baseType_local.andThen
  intro base
  constructor
  · intro ts
    obtain ⟨hs, ho⟩ := sizeSuffixes_outside ts
    exact Outcome.confined_done hs ho
  · intro front left behind other a found h
    simp only [sizeSuffixes_append] at h ⊢
    obtain ⟨rfl, rfl⟩ := done_append_inj h
    exact ⟨[], rfl⟩

theorem arraySize_local : arraySize.Local := by
  have hclose : ∀ n : Text, ((require .afterArraySize).andThen fun _ => value n).Local :=
    fun n => (local_require .afterArraySize rfl).map fun _ => n
  refine ⟨arraySize_confined, ?_⟩
  intro front left behind other a found h
  cases front with
  | nil => cases h
  | cons l front =>
    cases l with
    | int n => exact (hclose n).same front left behind other a found h
    | _ => cases h

theorem arraySizes_local : arraySizes.Local :=
  markedLoop_arraySizesWithin.local_inRounds rfl arraySize_local

theorem specifier_local : specifier.Local := by
  apply typeRef_local.andThen
  intro t
  apply name_local.andThen
  intro n
  exact arraySizes_local.map fun sizes => Specifier.mk t n sizes

theorem parameter_local : parameter.Local := by
  apply (local_qualifier .paramQualifier).andThen
  intro q
  exact specifier_local.map fun s => Parameter.mk q s

theorem parameters_local : parameters.Local := by
  apply Local.onPunct rfl
  · exact local_value []
  · apply parameter_local.separated.andThen
    intro ps
    exact (local_require .closeParameters rfl).map fun _ => ps

/-- What a function has before its body. -/
def heading : Parser (TypeRef × Name × List Parameter) := do
  let t ← typeRef
  let n ← name
  require .afterFunctionName
  let ps ← parameters
  value (t, n, ps)

/-- A function is a heading and a block. -/
theorem function_eq (stmt : Parser Stmt) :
    function stmt = heading.andThen fun h => (block stmt).andThen fun body =>
      value (.function h.1 h.2.1 h.2.2 body) := by
  simp only [function, heading, bind_eq_andThen, andThen_assoc, value_andThen]

theorem heading_local : heading.Local := by
  apply typeRef_local.andThen
  intro t
  apply name_local.andThen
  intro n
  apply (local_require .afterFunctionName rfl).andThen
  intro _
  exact parameters_local.map fun ps => (t, n, ps)

end Grammar

/-- Lexemes that start no other declaration and that a function is read from up to the brace of its
body. Nothing is known of what they say: words of the wrong class are read as well. -/
structure Heading (lexemes : List Lexeme) : Prop where
  starts : ∀ l ∈ lexemes.head?, Recovery.startsDeclaration l = false
  read : ∃ parts found, Grammar.heading (lexemes ++ [.punct .openBrace]) =
    .done parts [.punct .openBrace] found

namespace Heading

variable {front : List Lexeme}

/-- Reading ends at the brace of the body. -/
def reaches (front : List Lexeme) : Bool :=
  match Grammar.heading (front ++ [.punct .openBrace]) with
  | .done _ rest _ => rest = [.punct .openBrace]
  | _ => false

theorem reaches_iff : reaches front = true ↔ ∃ parts found,
    Grammar.heading (front ++ [Lexeme.punct .openBrace]) =
      .done parts [.punct .openBrace] found := by
  unfold reaches
  cases Grammar.heading (front ++ [.punct .openBrace]) with
  | done parts rest found => simp
  | failed problem rest found => simp
  | tooDeep rest found => simp

instance : Decidable (Heading front) :=
  decidable_of_iff
    ((∀ l ∈ front.head?, Recovery.startsDeclaration l = false) ∧ reaches front = true)
    ⟨fun h => ⟨h.1, reaches_iff.mp h.2⟩, fun h => ⟨h.starts, reaches_iff.mpr h.read⟩⟩

/-- A heading is read as one before every body. -/
theorem read_before (h : Heading front) : ∃ parts, ∀ behind, ∃ found,
    Grammar.heading (front ++ .punct .openBrace :: behind) =
      .done parts (.punct .openBrace :: behind) found := by
  obtain ⟨parts, found, hd⟩ := h.read
  exact ⟨parts, fun behind => Grammar.heading_local.same front [] [] behind parts found hd⟩

end Heading

end ShaderSyntax
