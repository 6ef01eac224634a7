import ShaderSyntax.Proofs.Canonical

/-!
# Judged syntax

What a word means is decided by its class and by where it stands: as a name, as a type, as a word of
one vocabulary, or as a word in an expression. A word that its position does not admit is kept, with
its class. Syntax is judged when each of its words was decided that way. Error nodes are judged
whatever they skip.
-/
namespace ShaderSyntax

namespace Name

/-- The name that a word makes. -/
def ofWord (w : Text) : Name :=
  if (classify w).isName then .valid (classify w) w else .invalid (classify w) w

@[simp] theorem word_ofWord (w : Text) : (ofWord w).word = w := by
  unfold ofWord
  split <;> rfl

def Judged (n : Name) : Prop :=
  n = ofWord n.word

theorem judged_ofWord (w : Text) : (ofWord w).Judged := by
  rw [Judged, word_ofWord]

end Name

namespace Term

def word : Term → Text
  | known w => w
  | unknown w => w

/-- The term that a word makes in a vocabulary. -/
def ofWord (cls : WordClass) (w : Text) : Term :=
  if classify w = cls then .known w else .unknown w

@[simp] theorem word_ofWord (cls : WordClass) (w : Text) : (ofWord cls w).word = w := by
  unfold ofWord
  split <;> rfl

def Judged (cls : WordClass) (t : Term) : Prop :=
  t = ofWord cls t.word

theorem judged_ofWord (cls : WordClass) (w : Text) : (ofWord cls w).Judged cls := by
  rw [Judged, word_ofWord]

end Term

namespace TypeRef

/-- The type that a word makes. -/
def ofWord (w : Text) : TypeRef :=
  match (classify w).typeRole with
  | .builtin => .builtin w
  | .named => .named w
  | .invalid => .invalid (classify w) w

/-- The word of the type is judged, below any number of sizes. -/
def Judged : TypeRef → Prop
  | array base _ => base.Judged
  | builtin w => builtin w = ofWord w
  | named w => named w = ofWord w
  | invalid cls w => invalid cls w = ofWord w

theorem judged_ofWord (w : Text) : (ofWord w).Judged := by
  cases h : (classify w).typeRole <;> simp [ofWord, h, Judged]

theorem Judged.foldl_array {base : TypeRef} (h : base.Judged) (sizes : List Text) :
    (sizes.foldl array base).Judged := by
  induction sizes generalizing base with
  | nil => exact h
  | cons size sizes ih => exact ih h

end TypeRef

structure Specifier.Judged (s : Specifier) : Prop where
  type : s.type.Judged
  name : s.name.Judged

namespace Expr

mutual

/-- An expression is judged by whether it is called: a type is an expression only before the
parenthesis of a call, and no name is written there that is a type. Booleans are never names. -/
def Judged : Bool → Expr → Prop
  | called, name n =>
    n.Judged ∧ boolOf? n.word = none ∧ (called = true → classify n.word ≠ .builtinType)
  | _, number _ => True
  | _, bool _ => True
  | called, typeName w => called = true ∧ classify w = .builtinType
  | _, error _ => True
  | _, paren e => e.Judged false
  | _, array es => Judgeds es
  | _, call f es => f.Judged true ∧ Judgeds es
  | _, qualified q e => classify q = .paramQualifier ∧ e.Judged false
  | _, subscript e i => e.Judged false ∧ i.Judged false
  | _, member e n => e.Judged false ∧ n.Judged
  | _, unary _ e => e.Judged false
  | _, binary _ l r => l.Judged false ∧ r.Judged false
  | _, conditional c t e => c.Judged false ∧ t.Judged false ∧ e.Judged false

/-- All of them are judged, and none is called. -/
def Judgeds : List Expr → Prop
  | [] => True
  | e :: es => e.Judged false ∧ Judgeds es

end

/-- A number is judged wherever it stands. -/
theorem judged_number (called : Bool) (n : Number) : (number n).Judged called := by
  simp [Judged]

/-- What an error node skips is not judged. -/
theorem judged_error (called : Bool) (s : Skipped) : (error s).Judged called := by
  simp [Judged]

theorem judgeds_iff (es : List Expr) : Judgeds es ↔ ∀ e ∈ es, e.Judged false := by
  induction es with
  | nil => simp [Judgeds]
  | cons e es ih => simp [Judgeds, ih]

theorem depths_le_iff (es : List Expr) (levels : Nat) :
    depths es ≤ levels ↔ ∀ e ∈ es, e.depth < levels := by
  induction es with
  | nil => simp [depths]
  | cons e es ih => rw [depths, Nat.max_le, ih, Nat.succ_le_iff, List.forall_mem_cons]

end Expr

def Action.Judged : Action → Prop
  | .evaluate e => e.Judged false
  | .assign t _ v => t.Judged false ∧ v.Judged false
  | .adjustAfter t _ | .adjustBefore _ t => t.Judged false

structure Variable.Judged (v : Variable) : Prop where
  specifier : v.specifier.Judged
  value : ∀ e ∈ v.value, e.Judged false

mutual

/-- Besides the words of a statement, an `else` is judged by the `if` that it belongs to, and a brace
at the start of a statement opens a block. -/
def Stmt.Judged : Stmt → Prop
  | .block body => Stmt.Judgeds body
  | .declare v => v.Judged
  | .constant p v => canonicalQualifier .precision p = true ∧ v.Judged
  | .perform a => a.Judged ∧ a.startsBlock = false
  | .ifThen c t => c.Judged false ∧ t.Judged
  | .ifElse c t e => c.Judged false ∧ t.Judged ∧ t.endsOpen = false ∧ e.Judged
  | .whileLoop c b => c.Judged false ∧ b.Judged
  | .forLoop v c u b => v.Judged ∧ c.Judged false ∧ u.Judged ∧ b.Judged
  | .switchOn e cs => e.Judged false ∧ Clause.Judgeds cs
  | .returnValue e => ∀ v ∈ e, v.Judged false
  | .breakOut | .continueLoop | .error _ => True

def Stmt.Judgeds : List Stmt → Prop
  | [] => True
  | s :: ss => s.Judged ∧ Stmt.Judgeds ss

def Clause.Judged : Clause → Prop
  | .onValue e body => e.Judged false ∧ Stmt.Judgeds body
  | .otherwise body => Stmt.Judgeds body
  | .error _ => True

def Clause.Judgeds : List Clause → Prop
  | [] => True
  | c :: cs => c.Judged ∧ Clause.Judgeds cs

end

theorem Stmt.judgeds_iff (ss : List Stmt) : Stmt.Judgeds ss ↔ ∀ s ∈ ss, s.Judged := by
  induction ss with
  | nil => simp [Stmt.Judgeds]
  | cons s ss ih => simp [Stmt.Judgeds, ih]

theorem Clause.judgeds_iff (cs : List Clause) : Clause.Judgeds cs ↔ ∀ c ∈ cs, c.Judged := by
  induction cs with
  | nil => simp [Clause.Judgeds]
  | cons c cs ih => simp [Clause.Judgeds, ih]

theorem Stmt.depths_le_iff (ss : List Stmt) (levels : Nat) :
    Stmt.depths ss ≤ levels ↔ ∀ s ∈ ss, s.depth ≤ levels := by
  induction ss with
  | nil => simp [Stmt.depths]
  | cons s ss ih => rw [Stmt.depths, Nat.max_le, ih, List.forall_mem_cons]

theorem Clause.depths_le_iff (cs : List Clause) (levels : Nat) :
    Clause.depths cs ≤ levels ↔ ∀ c ∈ cs, c.depth ≤ levels := by
  induction cs with
  | nil => simp [Clause.depths]
  | cons c cs ih => rw [Clause.depths, Nat.max_le, ih, List.forall_mem_cons]

def Hint.Judged (h : Hint) : Prop :=
  h.name.Judged .hint

def Member.Judged : Member → Prop
  | field s => s.Judged
  | error _ => True

structure Parameter.Judged (p : Parameter) : Prop where
  qualifier : canonicalQualifier .paramQualifier p.qualifier = true
  specifier : p.specifier.Judged

def Decl.Judged : Decl → Prop
  | shaderType t => t.Judged .shaderType
  | renderMode ts => ∀ t ∈ ts, t.Judged .renderMode
  | constant p v => canonicalQualifier .precision p = true ∧ v.Judged
  | varying i p s =>
    canonicalQualifier .interpolation i = true ∧ canonicalQualifier .precision p = true ∧ s.Judged
  | groupUniforms g s => (∀ n ∈ g, n.Judged) ∧ ∀ n ∈ s, n.Judged
  | uniform _ p s hs v =>
    canonicalQualifier .precision p = true ∧ s.Judged ∧ (∀ h ∈ hs, h.Judged) ∧
      ∀ e ∈ v, e.Judged false
  | struct n ms => n.Judged ∧ ∀ m ∈ ms, m.Judged
  | function t n ps body =>
    t.Judged ∧ n.Judged ∧ (∀ p ∈ ps, p.Judged) ∧ Stmt.Judgeds body
  | includes _ => True
  | error _ => True

end ShaderSyntax
