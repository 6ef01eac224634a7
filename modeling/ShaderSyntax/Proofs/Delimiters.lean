import Mathlib.Data.List.Nodup
import ShaderSyntax.Kind

/-!
# Delimiters of dumps

A dump writes names, words and literals between spaces, parentheses and colons. A text that holds none
of these ends where the next one stands, so what is written before the delimiter can be told from what
is written after it. Only strings may hold delimiters: they end at their second quote.
-/
namespace ShaderSyntax

namespace Byte

abbrev openParen : UInt8 := 40
abbrev closeParen : UInt8 := 41
abbrev colon : UInt8 := 58

/-- A byte that stands in a dump around the texts, or at the ends of a string. -/
def isDelimiter (b : UInt8) : Bool :=
  b == space || b == quote || b == openParen || b == closeParen || b == colon

end Byte

namespace Text

section Stops

variable {stop : UInt8 → Bool} {p q r s : Text}

/-- No byte of the text stops it. -/
def Avoids (stop : UInt8 → Bool) (t : Text) : Prop :=
  ∀ b ∈ t, stop b = false

/-- The first byte is one that stops. -/
def Meets (stop : UInt8 → Bool) (t : Text) : Prop :=
  ∃ b rest, t = b :: rest ∧ stop b = true

instance (stop : UInt8 → Bool) (t : Text) : Decidable (Avoids stop t) :=
  List.decidableBAll (fun b => stop b = false) t

theorem meets_cons {b : UInt8} (h : stop b = true) (rest : Text) : Meets stop (b :: rest) :=
  ⟨b, rest, rfl, h⟩

/-- A text that is stopped has one first part. -/
theorem Avoids.append_inj (hp : Avoids stop p) (hq : Avoids stop q) (hr : Meets stop r)
    (hs : Meets stop s) (h : p ++ r = q ++ s) : p = q ∧ r = s := by
  obtain ⟨b, r, rfl, hb⟩ := hr
  obtain ⟨c, s, rfl, hc⟩ := hs
  induction p generalizing q with
  | nil =>
    cases q with
    | nil => exact ⟨rfl, h⟩
    | cons d q =>
      obtain ⟨rfl, -⟩ := List.cons_eq_cons.mp h
      have hd := hq b (by simp)
      rw [hb] at hd
      cases hd
  | cons a p ih =>
    cases q with
    | nil =>
      obtain ⟨rfl, -⟩ := List.cons_eq_cons.mp h
      have ha := hp a (by simp)
      rw [hc] at ha
      cases ha
    | cons d q =>
      rw [List.cons_append, List.cons_append, List.cons.injEq] at h
      obtain ⟨rfl, h⟩ := h
      obtain ⟨rfl, hrest⟩ :=
        ih (fun x hx => hp x (by simp [hx])) (fun x hx => hq x (by simp [hx])) h
      exact ⟨rfl, hrest⟩

end Stops

/-- A text that a delimiter ends. -/
abbrev Plain (t : Text) : Prop :=
  Avoids Byte.isDelimiter t

/-- A plain text, or a string in its quotes. -/
inductive Legible : Text → Prop where
  | plain {t : Text} (h : Plain t) : Legible t
  | quoted {inner : Text} (h : Byte.quote ∉ inner) :
    Legible (Byte.quote :: (inner ++ [Byte.quote]))

/-- A legible text ends at the parenthesis after it, whatever a string holds. -/
theorem Legible.append_inj {t u r s : Text} (ht : Legible t) (hu : Legible u)
    (h : t ++ Byte.closeParen :: r = u ++ Byte.closeParen :: s) : t = u ∧ r = s := by
  have hclose : ∀ rest, Meets Byte.isDelimiter (Byte.closeParen :: rest) := meets_cons (by decide)
  have hquote : ∀ rest, Meets Byte.isDelimiter (Byte.quote :: rest) := meets_cons (by decide)
  have hnil : Plain [] := by decide
  cases ht with
  | plain ht =>
    cases hu with
    | plain hu =>
      obtain ⟨htu, hrs⟩ := ht.append_inj hu (hclose r) (hclose s) h
      exact ⟨htu, List.tail_eq_of_cons_eq hrs⟩
    | quoted hu =>
      obtain ⟨-, h⟩ := ht.append_inj hnil (hclose r) (hquote _) h
      cases h
  | quoted ht =>
    cases hu with
    | plain hu =>
      obtain ⟨-, h⟩ := hnil.append_inj hu (hquote _) (hclose s) h
      cases h
    | quoted hu =>
      -- The strings end at the quotes, for neither has a quote inside.
      have havoids : ∀ {t : Text}, Byte.quote ∉ t → Avoids (· == Byte.quote) t := by
        intro t ht b hb
        have hne : b ≠ Byte.quote := by
          rintro rfl
          exact ht hb
        simpa using hne
      have hmeets : ∀ rest, Meets (· == Byte.quote) (Byte.quote :: rest) := meets_cons (by decide)
      simp only [List.cons_append, List.append_assoc, List.cons.injEq, true_and,
        List.nil_append] at h
      obtain ⟨rfl, h⟩ := (havoids ht).append_inj (havoids hu) (hmeets _) (hmeets _) h
      simpa using h

/-- A legible text before a parenthesis is no name before a colon. -/
theorem Legible.ne_labelled {t name r s : Text} (ht : Legible t) (hn : Plain name) :
    t ++ Byte.closeParen :: r ≠ name ++ Byte.colon :: s := by
  intro h
  have hcolon : Meets Byte.isDelimiter (Byte.colon :: s) := meets_cons (by decide) s
  cases ht with
  | plain ht =>
    obtain ⟨-, h⟩ := ht.append_inj hn (meets_cons (by decide) r) hcolon h
    cases h
  | quoted ht =>
    have hnil : Plain [] := by decide
    obtain ⟨-, h⟩ := hnil.append_inj hn (meets_cons (by decide) _) hcolon h
    cases h

end Text

namespace Kind

def all : List Kind :=
  [.ident, .builtinVariable, .builtinFunction, .invalidIdent, .builtinType, .identType,
   .invalidType, .arrayType, .shaderType, .invalidShaderType, .renderMode, .invalidRenderMode,
   .hintName, .invalidHint, .precisionQualifier, .interpolationQualifier, .paramQualifier,
   .integer, .float, .boolean, .string, .error, .shaderTypeDeclaration, .renderModeDeclaration,
   .varSpecifier, .arraySizes, .constDeclaration, .varyingDeclaration, .groupUniformsDeclaration,
   .uniformDeclaration, .hintList, .hint, .structDeclaration, .structMember, .functionDeclaration,
   .parameter, .includeDeclaration, .varDeclaration, .constVarDeclaration, .assignmentStatement,
   .adjustmentStatement, .switchStatement, .switchCase, .forStatement, .whileStatement,
   .ifStatement, .exprStatement, .continueStatement, .breakStatement, .returnStatement, .block,
   .unaryExpr, .binaryExpr, .callExpr, .qualifiedArgument, .parenExpr, .conditionalExpr,
   .subscriptExpr, .memberExpr, .arrayLiteralExpr]

theorem mem_all (k : Kind) : k ∈ all := by
  cases k <;> decide

/-- No two kinds have one name. -/
theorem name_inj {k l : Kind} (h : k.name = l.name) : k = l := by
  have hnodup : (all.map name).Nodup := by decide +kernel
  exact List.inj_on_of_nodup_map hnodup (mem_all k) (mem_all l) h

theorem plain_name (k : Kind) : k.name.Plain := by
  have hall : ∀ k ∈ all, k.name.Plain := by decide +kernel
  exact hall k (mem_all k)

end Kind

namespace Label

def all : List Label :=
  [.baseType, .size, .shaderType, .renderMode, .ofType, .named, .sizes, .precision, .specifier,
   .value, .interpolation, .groupName, .subgroupName, .scope, .hints, .hint, .param, .member,
   .functionType, .parameter, .body, .qualifier, .file, .argument, .operation, .condition,
   .clause, .caseLabel, .statement, .initializer, .update, .action, .alternate, .operator, .left,
   .right, .function, .paramQualifier, .index]

theorem mem_all (l : Label) : l ∈ all := by
  cases l <;> decide

/-- No two labels have one name. -/
theorem name_inj {l m : Label} (h : l.name = m.name) : l = m := by
  have hnodup : (all.map name).Nodup := by decide +kernel
  exact List.inj_on_of_nodup_map hnodup (mem_all l) (mem_all m) h

theorem plain_name (l : Label) : l.name.Plain := by
  have hall : ∀ l ∈ all, l.name.Plain := by decide +kernel
  exact hall l (mem_all l)

end Label

end ShaderSyntax
