import ShaderSyntax.Proofs.Completeness.Specifier
import ShaderSyntax.Proofs.Indexing
import ShaderSyntax.Proofs.Judging
import ShaderSyntax.Proofs.Shape

/-!
# Roles of words

The place of a leaf gives its lexeme a role: a type, a name, an operand, a literal, or a word of one
vocabulary. The role and the class of a word tell the kind of the leaf. Operands need the lexeme after
them as well, for a type is an operand only where an opening parenthesis follows it. In judged syntax
every leaf is of the kind that its place tells.
-/
namespace ShaderSyntax

/-- The vocabularies that have places of their own. -/
def WordClass.special : List WordClass :=
  [precision, interpolation, shaderType, renderMode, hint, paramQualifier]

/-- A special vocabulary lists exactly the words of its class. -/
theorem WordClass.classify_eq_iff_lists {c : WordClass} (hc : c ∈ special) (w : Text) :
    classify w = c ↔ c.lists w = true := by
  refine classify_eq_iff ?_
  rintro rfl
  exact absurd hc (by decide)

/-- What the place of a leaf asks for. -/
inductive Role where
  | type
  | name
  | operand
  | literal
  /-- A word of the vocabulary; another word is kept, in the second kind. -/
  | term (cls : WordClass) (good bad : Kind)
  /-- A word of the vocabulary; another word is no qualifier. -/
  | qualifier (cls : WordClass) (kind : Kind)

/-- The role of what a node of the kind holds under the label. -/
def Kind.role (owner : Kind) : Label → Role
  | .ofType | .functionType | .baseType => .type
  | .named => if owner = .hint then .term .hint .hintName .invalidHint else .name
  | .member | .groupName | .subgroupName => .name
  | .shaderType => .term .shaderType .shaderType .invalidShaderType
  | .renderMode => .term .renderMode .renderMode .invalidRenderMode
  | .precision => .qualifier .precision .precisionQualifier
  | .interpolation => .qualifier .interpolation .interpolationQualifier
  | .qualifier | .paramQualifier => .qualifier .paramQualifier .paramQualifier
  | .size | .param | .file => .literal
  | _ => .operand

/-- The kind of a word where a type stands. -/
def typeKind (w : Text) : Kind :=
  match classify w with
  | .builtinType => .builtinType
  | .plain => .identType
  | _ => .invalidType

/-- The kind of a word where a name stands. -/
def nameKind (w : Text) : Kind :=
  match classify w with
  | .plain => .ident
  | .builtinVariable => .builtinVariable
  | .builtinFunction => .builtinFunction
  | _ => .invalidIdent

/-- The kind of a word in an expression, before the next lexeme. -/
def operandKind (w : Text) (next : Option Lexeme) : Kind :=
  if (boolOf? w).isSome then .boolean
  else if classify w = .builtinType ∧ next = some (.punct .openParen) then .builtinType
  else nameKind w

/-- The kind of a leaf in the role, if the role admits its lexeme at all. -/
def Role.kind? (next : Option Lexeme) : Role → Lexeme → Option Kind
  | type, .word w => some (typeKind w)
  | name, .word w => some (nameKind w)
  | operand, .word w => some (operandKind w next)
  | operand, .int _ | literal, .int _ => some .integer
  | operand, .float _ | literal, .float _ => some .float
  | literal, .string _ => some .string
  | term cls good bad, .word w => some (if cls.lists w then good else bad)
  | qualifier cls k, .word w => if cls.lists w then some k else none
  | _, _ => none

mutual

/-- Where the node stands in the role and before the next lexeme, each leaf of it is of the kind that
its own place tells. -/
def Node.InRole : Role → Option Lexeme → Node → Prop
  | role, next, .leaf k l => role.kind? next l = some k
  | _, _, .error _ => True
  | _, next, .branch k items => Item.InRoles k next items

def Item.InRoles : Kind → Option Lexeme → List Item → Prop
  | _, _, [] => True
  | owner, next, .token _ :: rest => Item.InRoles owner next rest
  | owner, next, .attribute _ _ :: rest => Item.InRoles owner next rest
  | owner, next, .child label n :: rest =>
    n.InRole (owner.role label) ((Item.lexemes rest).head?.or next) ∧ Item.InRoles owner next rest

end

namespace Item

variable {k : Kind} {label : Label} {next : Option Lexeme}

/-- A mark is the lexeme after what stands before it. -/
@[simp] theorem head?_lexemes_mark (p : Punct) (rest : List Item) :
    (lexemes (.mark p :: rest)).head? = some (.punct p) := rfl

@[simp] theorem inRoles_nil : Item.InRoles k next [] := trivial

@[simp] theorem inRoles_mark (p : Punct) (rest : List Item) :
    Item.InRoles k next (.mark p :: rest) ↔ Item.InRoles k next rest := Iff.rfl

@[simp] theorem inRoles_keyword (w : Keyword) (rest : List Item) :
    Item.InRoles k next (.keyword w :: rest) ↔ Item.InRoles k next rest := Iff.rfl

@[simp] theorem inRoles_token (l : Lexeme) (rest : List Item) :
    Item.InRoles k next (.token l :: rest) ↔ Item.InRoles k next rest := Iff.rfl

@[simp] theorem inRoles_attribute (l : Lexeme) (rest : List Item) :
    Item.InRoles k next (.attribute label l :: rest) ↔ Item.InRoles k next rest := Iff.rfl

@[simp] theorem inRoles_child (n : Node) (rest : List Item) :
    Item.InRoles k next (.child label n :: rest) ↔
      n.InRole (k.role label) ((Item.lexemes rest).head?.or next) ∧ Item.InRoles k next rest :=
  Iff.rfl

@[simp] theorem inRoles_append (xs ys : List Item) :
    Item.InRoles k next (xs ++ ys) ↔
      Item.InRoles k ((Item.lexemes ys).head?.or next) xs ∧ Item.InRoles k next ys := by
  induction xs with
  | nil => simp
  | cons x xs ih =>
    cases x <;> simp [ih, and_assoc, List.head?_append, Option.or_assoc]

/-- Children that stand anywhere in their role. -/
theorem inRoles_children {nodes : List Node}
    (h : ∀ n ∈ nodes, ∀ next, n.InRole (k.role label) next) :
    Item.InRoles k next (children label nodes) := by
  induction nodes with
  | nil => trivial
  | cons n nodes ih => exact ⟨h n (by simp) _, ih fun m hm => h m (by simp [hm])⟩

/-- Children that are not called: a comma follows each, or what follows the last. -/
theorem inRoles_separated {nodes : List Node}
    (h : ∀ n ∈ nodes, ∀ next, next ≠ some (.punct .openParen) → n.InRole (k.role label) next)
    (hnext : next ≠ some (.punct .openParen)) : Item.InRoles k next (separated label nodes) := by
  induction nodes with
  | nil => trivial
  | cons n nodes ih =>
    cases nodes with
    | nil => exact ⟨h n (by simp) _ (by simpa [lexemes] using hnext), trivial⟩
    | cons m nodes =>
      refine ⟨h n (by simp) _ ?_, ih fun m hm => h m (by simp [hm])⟩
      simp

@[simp] theorem inRoles_child? (n : Option Node) :
    Item.InRoles k next (child? label n) ↔ ∀ m ∈ n, m.InRole (k.role label) next := by
  cases n <;> simp [child?, lexemes]

@[simp] theorem inRoles_marked? (p : Punct) (n : Option Node) :
    Item.InRoles k next (marked? p label n) ↔ ∀ m ∈ n, m.InRole (k.role label) next := by
  cases n <;> simp [marked?, lexemes]

end Item

section Words

variable {next : Option Lexeme}

theorem Name.kind_of_judged {n : Name} (h : n.Judged) : n.kind = nameKind n.word := by
  rw [Name.Judged] at h
  generalize n.word = w at h
  subst h
  unfold ofWord nameKind
  cases classify w <;> rfl

theorem Name.inRole_node {n : Name} (h : n.Judged) : n.node.InRole .name next := by
  simp only [node, Node.InRole, Role.kind?, kind_of_judged h]

theorem Term.inRole_node {t : Term} {cls : WordClass} {good bad : Kind}
    (hc : cls ∈ WordClass.special) (h : t.Judged cls) : (t.node good bad).InRole (.term cls good bad) next := by
  rw [Term.Judged] at h
  generalize t.word = w at h
  subst h
  have hlists := WordClass.classify_eq_iff_lists hc w
  by_cases hw : classify w = cls
  · simp [ofWord, hw, node, Node.InRole, Role.kind?, hlists.mp hw]
  · have hnot : cls.lists w = false := by simpa [hlists] using hw
    simp [ofWord, hw, node, Node.InRole, Role.kind?, hnot]

theorem inRole_qualifierNode {cls : WordClass} {k : Kind} {w : Text}
    (hc : cls ∈ WordClass.special) (h : classify w = cls) : (qualifierNode k w).InRole (.qualifier cls k) next := by
  simp [qualifierNode, Node.InRole, Role.kind?, (WordClass.classify_eq_iff_lists hc w).mp h]

/-- A qualifier that may be missing. -/
theorem inRole_qualifier? {cls : WordClass} {k : Kind} {q : Option Text}
    (hc : cls ∈ WordClass.special) (h : canonicalQualifier cls q = true) :
    ∀ n ∈ q.map (qualifierNode k), n.InRole (.qualifier cls k) next := by
  cases q with
  | none => simp
  | some w =>
    simp only [Option.map_some, Option.mem_def, Option.some.injEq, forall_eq']
    exact inRole_qualifierNode hc (by simpa [canonicalQualifier] using h)

theorem Number.inRole_node (n : Number) {role : Role} (h : role = .operand ∨ role = .literal) :
    n.node.InRole role next := by
  rcases h with rfl | rfl <;> cases n <;> rfl

theorem inRoles_sizeItems {k : Kind} (digits : Text) : Item.InRoles k next (sizeItems digits) := by
  simp [sizeItems, Number.inRole_node, Kind.role]

theorem TypeRef.inRole_node {t : TypeRef} (h : t.Judged) : t.node.InRole .type next := by
  induction t generalizing next with
  | array base size ih => exact ⟨ih h, inRoles_sizeItems size⟩
  | builtin w | named w | invalid cls w =>
    rw [Judged, ofWord] at h
    simp only [node, Node.InRole, Role.kind?, typeKind]
    cases hw : classify w <;> simp_all [WordClass.typeRole]

theorem Specifier.inRoles_items {s : Specifier} {k : Kind} (h : s.Judged) (hk : k ≠ .hint) :
    Item.InRoles k next s.items := by
  have hsizes : ∀ sizes : List Text, ∀ next,
      Item.InRoles .arraySizes next (sizes.flatMap sizeItems) := by
    intro sizes
    induction sizes with
    | nil => exact fun _ => trivial
    | cons size sizes ih =>
      exact fun next => (Item.inRoles_append _ _).mpr ⟨inRoles_sizeItems size, ih next⟩
  have hnamed : k.role .named = .name := if_neg hk
  simp only [items, List.cons_append, List.nil_append, Item.inRoles_child, Item.inRoles_child?,
    hnamed]
  refine ⟨TypeRef.inRole_node h.type, Name.inRole_node h.name, ?_⟩
  cases hsz : s.sizes with
  | nil => simp [sizesNode?]
  | cons size sizes => simpa [sizesNode?, Node.InRole] using hsizes (size :: sizes) next

end Words

namespace Expr

/-- What is no callee is not called, so no parenthesis follows it. -/
theorem next_ne_openParen {k : Kind} {called : Bool} {next : Option Lexeme}
    (hk : Kind.admits .callExpr .function k = false)
    (hcallee : called = true → Kind.admits .callExpr .function k = true)
    (hnext : next = some (.punct .openParen) ↔ called = true) :
    next ≠ some (.punct .openParen) := by
  intro hparen
  rw [hcallee (hnext.mp hparen)] at hk
  cases hk

mutual

/-- An expression that is called is a callee, and a parenthesis follows it; where it is not called,
none does. -/
theorem inRole_node : ∀ (e : Expr) (called : Bool) (next : Option Lexeme), e.node.Shaped →
    e.Judged called → (called = true → Kind.admits .callExpr .function e.node.kind = true) →
    (next = some (.punct .openParen) ↔ called = true) → e.node.InRole .operand next
  | name n, called, next, _, hj, _, hnext => by
    rw [Judged] at hj
    obtain ⟨hn, hbool, hcalled⟩ := hj
    have hkind : operandKind n.word next = nameKind n.word := by
      have hcall : ¬(classify n.word = .builtinType ∧ next = some (.punct .openParen)) :=
        fun h => hcalled (hnext.mp h.2) h.1
      simp [operandKind, hbool, hcall]
    simp only [node, Name.node, Node.InRole, Role.kind?, hkind, Name.kind_of_judged hn]
  | number n, _, next, _, _, _, _ => by
    rw [node]
    exact n.inRole_node (.inl rfl)
  | bool b, _, next, _, _, _, _ => by simp [node, Node.InRole, Role.kind?, operandKind]
  | typeName w, called, next, _, hj, _, hnext => by
    rw [Judged] at hj
    have hbool : boolOf? w = none := boolOf?_eq_none (by simp [hj.2])
    simp [node, Node.InRole, Role.kind?, operandKind, hbool, hj.2, hnext.mpr hj.1]
  | error s, _, _, _, _, _, _ => by
    rw [node]
    trivial
  | paren e, _, next, hs, hj, _, _ => by
    rw [node] at hs ⊢
    rw [Judged] at hj
    have hs : e.node.Shaped := (by simpa using hs.2 : _ ∧ e.node.Shaped).2
    refine ⟨inRole_node e false _ hs hj (by simp) ?_, trivial⟩
    simp
  | array es, _, next, hs, hj, _, _ => by
    rw [node] at hs ⊢
    rw [Judged] at hj
    have hs : ∀ e ∈ es, Kind.admits .arrayLiteralExpr .value e.node.kind = true ∧
        e.node.Shaped := by simpa [nodes_eq_map] using hs.2
    have hes := inRole_nodes es (fun e he => (hs e he).2) hj
    simp only [Node.InRole, List.cons_append, Item.inRoles_mark, Item.inRoles_append]
    exact ⟨Item.inRoles_separated hes (by simp), trivial⟩
  | call f es, _, next, hs, hj, _, _ => by
    rw [node] at hs ⊢
    rw [Judged] at hj
    obtain ⟨⟨hf, hsf⟩, hs⟩ : (Kind.admits .callExpr .function f.node.kind = true ∧
        f.node.Shaped) ∧ ∀ e ∈ es, Kind.admits .callExpr .argument e.node.kind = true ∧
        e.node.Shaped := by simpa [nodes_eq_map] using hs.2
    have hes := inRole_nodes es (fun e he => (hs e he).2) hj.2
    simp only [Node.InRole, List.cons_append, Item.inRoles_child, Item.inRoles_mark,
      Item.inRoles_append]
    exact ⟨inRole_node f true _ hsf hj.1 (fun _ => hf) (by simp),
      Item.inRoles_separated hes (by simp), trivial⟩
  | qualified q e, _, next, hs, hj, hcallee, hnext => by
    have hnext := next_ne_openParen (by rw [node]; rfl) hcallee hnext
    rw [node] at hs ⊢
    rw [Judged] at hj
    obtain ⟨-, -, hs⟩ : _ ∧ _ ∧ e.node.Shaped := by simpa using hs.2
    exact ⟨inRole_qualifierNode (by decide) hj.1,
      inRole_node e false next hs hj.2 (by simp) (by simpa using hnext), trivial⟩
  | subscript e i, _, next, hs, hj, _, _ => by
    rw [node] at hs ⊢
    rw [Judged] at hj
    obtain ⟨⟨-, hse⟩, -, hsi⟩ := by simpa using hs.2
    exact ⟨inRole_node e false _ hse hj.1 (by simp) (by simp),
      inRole_node i false _ hsi hj.2 (by simp) (by simp), trivial⟩
  | member e n, _, next, hs, hj, _, _ => by
    rw [node] at hs ⊢
    rw [Judged] at hj
    obtain ⟨⟨-, hse⟩, -⟩ := by simpa using hs.2
    exact ⟨inRole_node e false _ hse hj.1 (by simp) (by simp),
      Name.inRole_node hj.2, trivial⟩
  | unary op e, _, next, hs, hj, hcallee, hnext => by
    have hnext := next_ne_openParen (by rw [node]; rfl) hcallee hnext
    rw [node] at hs ⊢
    rw [Judged] at hj
    obtain ⟨-, hs⟩ : _ ∧ e.node.Shaped := by simpa using hs.2
    exact ⟨inRole_node e false next hs hj (by simp) (by simpa using hnext), trivial⟩
  | binary op l r, _, next, hs, hj, hcallee, hnext => by
    have hnext := next_ne_openParen (by rw [node]; rfl) hcallee hnext
    rw [node] at hs ⊢
    rw [Judged] at hj
    obtain ⟨⟨-, hsl⟩, -, hsr⟩ := by simpa using hs.2
    have hop : op.punct ≠ .openParen := by cases op <;> decide
    exact ⟨inRole_node l false _ hsl hj.1 (by simp) (by simpa [Item.lexemes] using hop),
      inRole_node r false next hsr hj.2 (by simp) (by simpa using hnext), trivial⟩
  | conditional c t e, _, next, hs, hj, hcallee, hnext => by
    have hnext := next_ne_openParen (by rw [node]; rfl) hcallee hnext
    rw [node] at hs ⊢
    rw [Judged] at hj
    obtain ⟨⟨-, hsc⟩, ⟨-, hst⟩, -, hse⟩ := by simpa using hs.2
    exact ⟨inRole_node c false _ hsc hj.1 (by simp) (by simp),
      inRole_node t false _ hst hj.2.1 (by simp) (by simp),
      inRole_node e false next hse hj.2.2 (by simp) (by simpa using hnext), trivial⟩

theorem inRole_nodes : ∀ es : List Expr, (∀ e ∈ es, e.node.Shaped) → Judgeds es →
    ∀ n ∈ nodes es, ∀ next, next ≠ some (.punct .openParen) → n.InRole .operand next
  | [], _, _, n, hn, _, _ => by
    rw [nodes] at hn
    exact absurd hn List.not_mem_nil
  | e :: es, hs, hj, n, hn, next, hnext => by
    rw [Judgeds] at hj
    rw [nodes] at hn
    rcases List.mem_cons.mp hn with hn | hn
    · rw [hn]
      exact inRole_node e false next (hs e (by simp)) hj.1 (by simp) (by simpa using hnext)
    · exact inRole_nodes es (fun y hy => hs y (by simp [hy])) hj.2 n hn next hnext

end

/-- An expression that nothing calls. -/
theorem inRole_of_next {e : Expr} {next : Option Lexeme} (hs : e.node.Shaped)
    (hj : e.Judged false) (hnext : next ≠ some (.punct .openParen)) :
    e.node.InRole .operand next :=
  inRole_node e false next hs hj (by simp) (by simpa using hnext)

theorem inRole_parenNode {e : Expr} {role : Role} {next : Option Lexeme} (hs : e.parenNode.Shaped)
    (hj : e.Judged false) : e.parenNode.InRole role next := by
  rw [parenNode_eq] at hs ⊢
  obtain ⟨-, hs⟩ : _ ∧ e.node.Shaped := by simpa using hs.2
  exact ⟨inRole_of_next hs hj (by simp), trivial⟩

end Expr

end ShaderSyntax
