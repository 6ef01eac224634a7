import ShaderSyntax.Proofs.Bare
import ShaderSyntax.Proofs.Judging

/-!
# Trees read back

The syntax that a bare tree stands for. Every field is found under its label, words are judged again by
their classes, and a tree that no syntax is written as counts as an error. For judged syntax nothing is
lost: what is read from its bare tree is the syntax itself without what only places and messages tell.
-/
namespace ShaderSyntax

namespace Field

/-- The trees under the label. -/
def under (label : Label) : List Field → List Tree
  | [] => []
  | .attribute _ _ :: rest => under label rest
  | .child l t :: rest => if l = label then t :: under label rest else under label rest

/-- The attributes under the label. -/
def attributes (label : Label) : List Field → List Text
  | [] => []
  | .attribute l w :: rest => if l = label then w :: attributes label rest else attributes label rest
  | .child _ _ :: rest => attributes label rest

/-- The first tree under the label. -/
def first (label : Label) (fields : List Field) : Tree :=
  (under label fields).headD (.error ⟨0, 0⟩ [])

def attribute? (label : Label) (fields : List Field) : Option Text :=
  (attributes label fields).head?

variable {label l : Label}

@[simp] theorem under_nil : under label [] = [] := rfl

@[simp] theorem under_attribute (w : Text) (rest : List Field) :
    under label (.attribute l w :: rest) = under label rest := rfl

@[simp] theorem under_child (t : Tree) (rest : List Field) :
    under label (.child l t :: rest) =
      if l = label then t :: under label rest else under label rest := rfl

@[simp] theorem under_append (xs ys : List Field) :
    under label (xs ++ ys) = under label xs ++ under label ys := by
  induction xs with
  | nil => simp
  | cons x xs ih =>
    rcases x with ⟨l, w⟩ | ⟨l, t⟩
    · simp [ih]
    · by_cases h : l = label
      · simp [h, ih]
      · simp [h, ih]

/-- Children that all have one label. -/
@[simp] theorem under_map {α : Type} (f : α → Tree) (xs : List α) :
    under label (xs.map fun x => .child l (f x)) = if l = label then xs.map f else [] := by
  induction xs with
  | nil => simp
  | cons x xs ih =>
    rw [List.map_cons, under_child, ih]
    split
    · rfl
    · rfl

/-- A reader of fields that reads what stands under the label, and goes on at the others. -/
theorem eq_map_under {α : Type} {read : Tree → α} {readAll : List Field → List α}
    (hnil : readAll [] = [])
    (hattribute : ∀ l w rest, readAll (.attribute l w :: rest) = readAll rest)
    (hchild : ∀ l t rest, readAll (.child l t :: rest) =
      if l = label then read t :: readAll rest else readAll rest) (fields : List Field) :
    readAll fields = (under label fields).map read := by
  induction fields with
  | nil => rw [hnil, under_nil, List.map_nil]
  | cons f fields ih =>
    rcases f with ⟨l, w⟩ | ⟨l, t⟩
    · rw [hattribute, under_attribute, ih]
    · rw [hchild, under_child]
      split
      · rw [ih, List.map_cons]
      · exact ih

@[simp] theorem attributes_nil : attributes label [] = [] := rfl

@[simp] theorem attributes_attribute (w : Text) (rest : List Field) :
    attributes label (.attribute l w :: rest) =
      if l = label then w :: attributes label rest else attributes label rest := rfl

@[simp] theorem attributes_child (t : Tree) (rest : List Field) :
    attributes label (.child l t :: rest) = attributes label rest := rfl

@[simp] theorem attributes_append (xs ys : List Field) :
    attributes label (xs ++ ys) = attributes label xs ++ attributes label ys := by
  induction xs with
  | nil => simp
  | cons x xs ih =>
    rcases x with ⟨l, w⟩ | ⟨l, t⟩
    · by_cases h : l = label
      · simp [h, ih]
      · simp [h, ih]
    · simp [ih]

@[simp] theorem attributes_map {α : Type} (f : α → Tree) (xs : List α) :
    attributes label (xs.map fun x => .child l (f x)) = [] := by
  induction xs with
  | nil => simp
  | cons x xs ih => simpa using ih

end Field

@[simp] theorem Tree.fields_branch (k : Kind) (s : Span Nat) (fields : List Field) :
    (branch k s fields).fields = fields := rfl

@[simp] theorem Tree.kind_branch (k : Kind) (s : Span Nat) (fields : List Field) :
    (branch k s fields).kind = k := rfl

def Tree.word (t : Tree) : Text :=
  t.leafText?.getD []

def UnaryOp.read (w : Text) : UnaryOp :=
  ((Punct.ofText? w).bind ofPunct?).getD .neg

def BinaryOp.read (w : Text) : BinaryOp :=
  ((Punct.ofText? w).bind ofPunct?).getD .add

def AssignOp.read (w : Text) : AssignOp :=
  ((Punct.ofText? w).bind ofPunct?).getD .set

def AdjustOp.read (w : Text) : AdjustOp :=
  ((Punct.ofText? w).bind ofPunct?).getD .increment

@[simp] theorem UnaryOp.read_spelling (op : UnaryOp) : read op.punct.spelling = op := by
  simp [read]

@[simp] theorem BinaryOp.read_spelling (op : BinaryOp) : read op.punct.spelling = op := by
  simp [read]

@[simp] theorem AssignOp.read_spelling (op : AssignOp) : read op.punct.spelling = op := by
  simp [read]

@[simp] theorem AdjustOp.read_spelling (op : AdjustOp) : read op.punct.spelling = op := by
  simp [read]

def Scope.read (w : Text) : Scope :=
  if w = wide.keyword.spelling then .wide else .perInstance

@[simp] theorem Scope.read_spelling (s : Scope) : read s.keyword.spelling = s := by
  cases s <;> decide

def Name.read (t : Tree) : Name :=
  .ofWord t.word

def Term.read (cls : WordClass) (t : Tree) : Term :=
  .ofWord cls t.word

def Number.read (t : Tree) : Number :=
  if t.kind = .float then .float t.word else .int t.word

def TypeRef.read : Tree → TypeRef
  | .branch _ _ (.child _ base :: rest) => .array (read base) (Field.first .size rest).word
  | t => .ofWord t.word

def Specifier.read (fields : List Field) : Specifier :=
  ⟨.read (Field.first .ofType fields), .read (Field.first .named fields),
    (Field.under .size (Field.first .sizes fields).fields).map Tree.word⟩

/-- A qualifier that may be missing. -/
def qualifier? (label : Label) (fields : List Field) : Option Text :=
  (Field.under label fields).head?.map Tree.word

namespace Expr

def ofLeaf : Kind → Text → Expr
  | .integer, w => .number (.int w)
  | .float, w => .number (.float w)
  | .boolean, w => .bool ((boolOf? w).getD false)
  | .builtinType, w => .typeName w
  | _, w => .name (.ofWord w)

/-- The expression of a kind whose parts are read already. -/
def ofParts (k : Kind) (fields : List Field) (parts : Label → List Expr) : Expr :=
  let part := fun label => (parts label).headD (.error .blank)
  match k with
  | .parenExpr => .paren (part .value)
  | .arrayLiteralExpr => .array (parts .value)
  | .callExpr => .call (part .function) (parts .argument)
  | .qualifiedArgument => .qualified (Field.first .paramQualifier fields).word (part .value)
  | .subscriptExpr => .subscript (part .argument) (part .index)
  | .memberExpr => .member (part .argument) (.read (Field.first .member fields))
  | .unaryExpr =>
    .unary (.read ((Field.attribute? .operator fields).getD [])) (part .argument)
  | .binaryExpr =>
    .binary (.read ((Field.attribute? .operator fields).getD [])) (part .left) (part .right)
  | .conditionalExpr => .conditional (part .condition) (part .action) (part .alternate)
  | _ => .error .blank

mutual

def read : Tree → Expr
  | .leaf k _ w => ofLeaf k w
  | .error _ _ => .error .blank
  | .branch k _ fields => ofParts k fields fun label => readAll label fields

def readAll (label : Label) : List Field → List Expr
  | [] => []
  | .attribute _ _ :: rest => readAll label rest
  | .child l t :: rest => if l = label then read t :: readAll label rest else readAll label rest

end

theorem readAll_eq_map (label : Label) (fields : List Field) :
    readAll label fields = (Field.under label fields).map read :=
  Field.eq_map_under (by rw [readAll]) (fun _ _ _ => by rw [readAll])
    (fun _ _ _ => by rw [readAll]) fields

end Expr

def Variable.read (fields : List Field) : Variable :=
  ⟨.read (Field.first .specifier fields).fields,
    (Field.under .value fields).head?.map Expr.read⟩

namespace Action

def read (k : Kind) (fields : List Field) : Action :=
  let target := Expr.read (Field.first .argument fields)
  let value := Expr.read (Field.first .value fields)
  let operation := (Field.attribute? .operation fields).getD []
  match k with
  | .exprStatement => .evaluate value
  | .assignmentStatement => .assign target (.read operation) value
  | _ =>
    -- Only the order of the fields tells on which side the operator stands.
    match fields with
    | .attribute _ _ :: _ => .adjustBefore (.read operation) target
    | _ => .adjustAfter target (.read operation)

/-- The update of a loop, where an expression stands for itself. -/
def readUpdate (t : Tree) : Action :=
  if t.kind = .assignmentStatement ∨ t.kind = .adjustmentStatement then read t.kind t.fields
  else .evaluate (Expr.read t)

end Action

/-- The expression that a condition holds, in its parentheses or before its semicolon. -/
def Expr.readCondition (fields : List Field) : Expr :=
  read (Field.first .value (Field.first .condition fields).fields)

/-- The statement of a kind whose parts are read already. -/
def Stmt.ofParts (k : Kind) (fields : List Field) (parts : Label → List Stmt)
    (clauses : List Clause) : Stmt :=
  let action := (parts .action).headD (.error .blank)
  match k with
  | .block => .block (parts .statement)
  | .varDeclaration => .declare (.read fields)
  | .constVarDeclaration => .constant (qualifier? .precision fields) (.read fields)
  | .exprStatement | .assignmentStatement | .adjustmentStatement => .perform (.read k fields)
  | .ifStatement =>
    match parts .alternate with
    | [] => .ifThen (.readCondition fields) action
    | alternate :: _ => .ifElse (.readCondition fields) action alternate
  | .whileStatement => .whileLoop (.readCondition fields) action
  | .forStatement =>
    .forLoop (.read (Field.first .initializer fields).fields) (.readCondition fields)
      (.readUpdate (Field.first .update fields)) action
  | .switchStatement => .switchOn (.read (Field.first .condition fields)) clauses
  | .returnStatement => .returnValue ((Field.under .value fields).head?.map Expr.read)
  | .breakStatement => .breakOut
  | .continueStatement => .continueLoop
  | _ => .error .blank

def Clause.ofParts (fields : List Field) (body : List Stmt) : Clause :=
  match Field.under .argument fields with
  | [] => .otherwise body
  | value :: _ => .onValue (.read value) body

mutual

def Stmt.read : Tree → Stmt
  | .branch k _ fields =>
    .ofParts k fields (fun label => Stmt.readAll label fields) (Clause.readAll fields)
  | _ => .error .blank

def Stmt.readAll (label : Label) : List Field → List Stmt
  | [] => []
  | .attribute _ _ :: rest => Stmt.readAll label rest
  | .child l t :: rest =>
    if l = label then Stmt.read t :: Stmt.readAll label rest else Stmt.readAll label rest

def Clause.read : Tree → Clause
  | .branch _ _ fields => .ofParts fields (Stmt.readAll .statement fields)
  | _ => .error .blank

def Clause.readAll : List Field → List Clause
  | [] => []
  | .attribute _ _ :: rest => Clause.readAll rest
  | .child l t :: rest =>
    if l = .clause then Clause.read t :: Clause.readAll rest else Clause.readAll rest

end

theorem Stmt.readAll_eq_map (label : Label) (fields : List Field) :
    readAll label fields = (Field.under label fields).map read :=
  Field.eq_map_under (by rw [readAll]) (fun _ _ _ => by rw [readAll])
    (fun _ _ _ => by rw [readAll]) fields

theorem Clause.readAll_eq_map (fields : List Field) :
    readAll fields = (Field.under .clause fields).map read :=
  Field.eq_map_under (by rw [readAll]) (fun _ _ _ => by rw [readAll])
    (fun _ _ _ => by rw [readAll]) fields

def HintParam.read (t : Tree) : HintParam :=
  if t.kind = .unaryExpr then ⟨true, .read (Field.first .argument t.fields)⟩ else ⟨false, .read t⟩

def Hint.read (t : Tree) : Hint :=
  ⟨.read .hint (Field.first .named t.fields),
    some ((Field.under .param t.fields).map HintParam.read)⟩

def Member.read : Tree → Member
  | .branch _ _ fields => .field (.read fields)
  | _ => .error .blank

def Parameter.read (t : Tree) : Parameter :=
  ⟨qualifier? .qualifier t.fields, .read t.fields⟩

/-- The declaration of a kind. -/
def Decl.ofFields (k : Kind) (fields : List Field) : Decl :=
  match k with
  | .shaderTypeDeclaration => .shaderType (.read .shaderType (Field.first .shaderType fields))
  | .renderModeDeclaration =>
    .renderMode ((Field.under .renderMode fields).map (Term.read .renderMode))
  | .constDeclaration => .constant (qualifier? .precision fields) (.read fields)
  | .varyingDeclaration =>
    .varying (qualifier? .interpolation fields) (qualifier? .precision fields)
      (.read (Field.first .specifier fields).fields)
  | .groupUniformsDeclaration =>
    .groupUniforms ((Field.under .groupName fields).head?.map Name.read)
      ((Field.under .subgroupName fields).head?.map Name.read)
  | .uniformDeclaration =>
    .uniform ((Field.attribute? .scope fields).map Scope.read) (qualifier? .precision fields)
      (.read (Field.first .specifier fields).fields)
      ((Field.under .hint (Field.first .hints fields).fields).map Hint.read)
      ((Field.under .value fields).head?.map Expr.read)
  | .structDeclaration =>
    .struct (.read (Field.first .named fields)) ((Field.under .member fields).map Member.read)
  | .functionDeclaration =>
    .function (.read (Field.first .functionType fields)) (.read (Field.first .named fields))
      ((Field.under .parameter fields).map Parameter.read)
      ((Field.under .statement (Field.first .body fields).fields).map Stmt.read)
  | .includeDeclaration => .includes (Field.first .file fields).word
  | _ => .error .blank

def Decl.read : Tree → Decl
  | .branch k _ fields => .ofFields k fields
  | _ => .error .blank

section Inverse

theorem Name.read_bare {n : Name} (h : n.Judged) : read n.node.bare = n :=
  h.symm

theorem Term.read_bare {t : Term} {cls : WordClass} (h : t.Judged cls) (good bad : Kind) :
    read cls (t.node good bad).bare = t := by
  cases t <;> exact h.symm

theorem Number.read_bare (n : Number) : read n.node.bare = n := by
  cases n <;> rfl

theorem TypeRef.read_bare {t : TypeRef} (h : t.Judged) : read t.node.bare = t := by
  induction t with
  | array base size ih =>
    have hbase := ih h
    simp [node, Node.bare, read, sizeItems, Field.first, Number.node, Lexeme.text, Tree.word,
      Tree.leafText?, hbase]
  | builtin w => exact h.symm
  | named w => exact h.symm
  | invalid cls w => exact h.symm

/-- The sizes are found in their own node, and without sizes there is none. -/
theorem Specifier.read_sizes (sizes : List Text) :
    (Field.under .size (((sizesNode? sizes).map Node.bare).getD (.error ⟨0, 0⟩ [])).fields).map
      Tree.word = sizes := by
  have hbares : ∀ sizes : List Text, Item.bares (sizes.flatMap sizeItems) =
      (sizes.map fun digits => (Number.int digits).node).map fun n => .child .size n.bare := by
    intro sizes
    induction sizes with
    | nil => rfl
    | cons size sizes ih => simp [sizeItems, ih]
  cases sizes with
  | nil => rfl
  | cons size sizes =>
    have hwords : ∀ digits : Text, (Number.int digits).node.bare.word = digits := fun _ => rfl
    have hnode : sizesNode? (size :: sizes) =
        some (.branch .arraySizes ((size :: sizes).flatMap sizeItems)) := rfl
    rw [hnode, Option.map_some, Option.getD_some, Node.bare, Tree.fields_branch, hbares,
      Field.under_map, if_pos rfl, List.map_map, List.map_map]
    exact List.map_id'' hwords _

theorem Specifier.read_bares {s : Specifier} (h : s.Judged) : read (Item.bares s.items) = s := by
  simp [read, items, Field.first, TypeRef.read_bare h.type, Name.read_bare h.name, read_sizes]

theorem Expr.ofLeaf_name (n : Name) (w : Text) : ofLeaf n.kind w = .name (.ofWord w) := by
  cases n with
  | valid cls word => cases cls <;> rfl
  | invalid cls word => rfl

namespace Expr

mutual

/-- A judged expression is read back from its bare tree. -/
theorem read_bare : ∀ (e : Expr) (called : Bool), e.Judged called → read e.node.bare = e.bare
  | name n, called, h => by
    rw [Judged] at h
    have hn : Name.ofWord n.word = n := h.1.symm
    rw [node, Name.node, Node.bare, read, ofLeaf_name, Lexeme.text, hn, bare]
  | number n, _, _ => by cases n <;> rfl
  | bool value, _, _ => by simp [node, Node.bare, read, ofLeaf, Lexeme.text, bare]
  | typeName w, _, _ => rfl
  | error s, _, _ => rfl
  | paren e, _, h => by
    rw [Judged] at h
    simp [node, Node.bare, read, ofParts, readAll_eq_map, read_bare e false h, bare]
  | array es, _, h => by
    rw [Judged] at h
    simp [node, Node.bare, read, ofParts, readAll_eq_map, reads_bare es h, bare]
  | call f es, _, h => by
    rw [Judged] at h
    simp [node, Node.bare, read, ofParts, readAll_eq_map, read_bare f true h.1,
      reads_bare es h.2, bare]
  | qualified q e, _, h => by
    rw [Judged] at h
    simp [node, Node.bare, read, ofParts, readAll_eq_map, read_bare e false h.2, bare, Field.first,
      Tree.word, Tree.leafText?, Lexeme.text]
  | subscript e i, _, h => by
    rw [Judged] at h
    simp [node, Node.bare, read, ofParts, readAll_eq_map, read_bare e false h.1,
      read_bare i false h.2, bare]
  | member e n, _, h => by
    rw [Judged] at h
    simp [node, Node.bare, read, ofParts, readAll_eq_map, read_bare e false h.1,
      Name.read_bare h.2, bare, Field.first]
  | unary op e, _, h => by
    rw [Judged] at h
    simp [node, Node.bare, read, ofParts, readAll_eq_map, read_bare e false h, bare,
      Field.attribute?, Lexeme.text]
  | binary op l r, _, h => by
    rw [Judged] at h
    simp [node, Node.bare, read, ofParts, readAll_eq_map, read_bare l false h.1,
      read_bare r false h.2, bare, Field.attribute?, Lexeme.text]
  | conditional c t e, _, h => by
    rw [Judged] at h
    simp [node, Node.bare, read, ofParts, readAll_eq_map, read_bare c false h.1,
      read_bare t false h.2.1, read_bare e false h.2.2, bare]

theorem reads_bare : ∀ es : List Expr, Judgeds es →
    ((nodes es).map Node.bare).map read = bares es
  | [], _ => rfl
  | e :: es, h => by
    rw [Judgeds] at h
    rw [nodes, List.map_cons, List.map_cons, read_bare e false h.1, reads_bare es h.2, bares]

end

/-- The value of a condition in parentheses. -/
theorem readCondition_paren {e : Expr} (h : e.Judged false) {fields : List Field}
    (hf : Field.first .condition fields = e.parenNode.bare) : readCondition fields = e.bare := by
  rw [readCondition, hf]
  simp [parenNode_eq, Node.bare, Field.first, read_bare e false h]

end Expr

theorem Variable.read_bares {v : Variable} (h : v.Judged) : read (Item.bares v.items) = v.bare := by
  have hvalue : v.value.map (fun e => Expr.read e.node.bare) = v.value.map Expr.bare := by
    cases hv : v.value with
    | none => rfl
    | some e => simp [Expr.read_bare e false (h.value e hv)]
  simp [read, items, Field.first, Specifier.node, Node.bare,
    Specifier.read_bares h.specifier, bare, Function.comp_def, hvalue]

@[simp] theorem word_qualifierNode (k : Kind) (w : Text) : (qualifierNode k w).bare.word = w := rfl

/-- The word of a qualifier that may be missing, before fields that hold none. -/
theorem qualifier?_bares (k : Kind) (q : Option Text) (label : Label) (rest : List Field)
    (h : Field.under label rest = []) :
    qualifier? label (Item.bares (Item.child? label (q.map (qualifierNode k))) ++ rest) = q := by
  cases q with
  | none => simp [qualifier?, h]
  | some w =>
    simp [qualifier?, qualifierNode, Node.bare, Tree.word, Tree.leafText?, Lexeme.text]

/-- A constant is a variable with a qualifier before it. -/
theorem Variable.read_constant {v : Variable} (h : v.Judged) (k : Kind) (p : Option Text) :
    qualifier? .precision (v.constantNode k p).bare.fields = p ∧
      read (v.constantNode k p).bare.fields = v.bare := by
  have hfields : (v.constantNode k p).bare.fields =
      Item.bares (Item.child? .precision (p.map (qualifierNode .precisionQualifier))) ++
        Item.bares v.items := by
    simp [constantNode, Node.bare]
  rw [hfields]
  constructor
  · exact qualifier?_bares _ p _ _ (by simp [items])
  · rw [← read_bares h]
    simp [read, Field.first]

/-- No expression is of a kind that only actions have. -/
theorem Expr.kind_ne_action (e : Expr) :
    e.node.bare.kind ≠ .assignmentStatement ∧ e.node.bare.kind ≠ .adjustmentStatement := by
  cases e with
  | name n =>
    cases n with
    | valid cls w => cases cls <;> exact ⟨nofun, nofun⟩
    | invalid cls w => exact ⟨nofun, nofun⟩
  | number n => cases n <;> exact ⟨nofun, nofun⟩
  | _ => exact ⟨nofun, nofun⟩

namespace Action

theorem read_bares {a : Action} (h : a.Judged) : read a.kind (Item.bares a.items) = a.bare := by
  cases a with
  | evaluate e => simp [kind, read, items, Field.first, Expr.read_bare e false h, bare]
  | assign t op v =>
    simp [kind, read, items, Field.first, Field.attribute?, Lexeme.text,
      Expr.read_bare t false h.1, Expr.read_bare v false h.2, bare]
  | adjustAfter t op =>
    simp [kind, read, items, Field.first, Field.attribute?, Lexeme.text,
      Expr.read_bare t false h, bare]
  | adjustBefore op t =>
    simp [kind, read, items, Field.first, Field.attribute?, Lexeme.text,
      Expr.read_bare t false h, bare]

theorem readUpdate_bare {a : Action} (h : a.Judged) : readUpdate a.updateNode.bare = a.bare := by
  cases a with
  | evaluate e =>
    obtain ⟨hassign, hadjust⟩ := e.kind_ne_action
    rw [updateNode, readUpdate, if_neg (by simp [hassign, hadjust]), Expr.read_bare e false h, bare]
  | assign t op v => exact read_bares h
  | adjustAfter t op => exact read_bares h
  | adjustBefore op t => exact read_bares h

end Action

mutual

/-- A judged statement is read back from its bare tree. -/
theorem Stmt.read_bare : ∀ s : Stmt, s.Judged → Stmt.read s.node.bare = s.bare
  | .block body, h => by
    rw [Stmt.Judged] at h
    simp [Stmt.node, blockNode, Node.bare, Stmt.read, Stmt.ofParts, Stmt.readAll_eq_map,
      Stmt.reads_bare body h, Stmt.bare]
  | .declare v, h => by
    rw [Stmt.Judged] at h
    simp [Stmt.node, Variable.node, Node.bare, Stmt.read, Stmt.ofParts, Variable.read_bares h,
      Stmt.bare]
  | .constant p v, h => by
    rw [Stmt.Judged] at h
    obtain ⟨hp, hv⟩ := Variable.read_constant h.2 .constVarDeclaration p
    have hread : Stmt.read (Stmt.constant p v).node.bare =
        .constant (qualifier? .precision (v.constantNode .constVarDeclaration p).bare.fields)
          (Variable.read (v.constantNode .constVarDeclaration p).bare.fields) := rfl
    rw [hread, hp, hv, Stmt.bare]
  | .perform a, h => by
    rw [Stmt.Judged] at h
    have hread := Action.read_bares h.1
    cases a <;>
      simpa [Stmt.node, Action.statementNode, Action.kind, Node.bare, Stmt.read, Stmt.ofParts,
        Stmt.bare] using hread
  | .ifThen c t, h => by
    rw [Stmt.Judged] at h
    simp [Stmt.node, Node.bare, Stmt.read, Stmt.ofParts, Stmt.readAll_eq_map,
      Stmt.read_bare t h.2, Expr.readCondition_paren h.1, Field.first, Stmt.bare]
  | .ifElse c t e, h => by
    rw [Stmt.Judged] at h
    simp [Stmt.node, Node.bare, Stmt.read, Stmt.ofParts, Stmt.readAll_eq_map,
      Stmt.read_bare t h.2.1, Stmt.read_bare e h.2.2.2, Expr.readCondition_paren h.1,
      Field.first, Stmt.bare]
  | .whileLoop c b, h => by
    rw [Stmt.Judged] at h
    simp [Stmt.node, Node.bare, Stmt.read, Stmt.ofParts, Stmt.readAll_eq_map,
      Stmt.read_bare b h.2, Expr.readCondition_paren h.1, Field.first, Stmt.bare]
  | .forLoop v c u b, h => by
    rw [Stmt.Judged] at h
    obtain ⟨hv, hc, hu, hb⟩ := h
    simp [Stmt.node, Variable.node, Action.statementNode, Action.items, Node.bare, Stmt.read,
      Stmt.ofParts, Stmt.readAll_eq_map, Stmt.read_bare b hb, Expr.readCondition, Field.first,
      Variable.read_bares hv, Expr.read_bare c false hc, Action.readUpdate_bare hu,
      Stmt.bare]
  | .switchOn e cs, h => by
    rw [Stmt.Judged] at h
    simp [Stmt.node, Node.bare, Stmt.read, Stmt.ofParts, Clause.readAll_eq_map,
      Clause.reads_bare cs h.2, Expr.read_bare e false h.1, Field.first, Stmt.bare]
  | .returnValue none, _ => rfl
  | .returnValue (some e), h => by
    rw [Stmt.Judged] at h
    simp [Stmt.node, Node.bare, Stmt.read, Stmt.ofParts, Expr.read_bare e false (h e rfl),
      Stmt.bare]
  | .breakOut, _ => rfl
  | .continueLoop, _ => rfl
  | .error _, _ => rfl

theorem Stmt.reads_bare : ∀ ss : List Stmt, Stmt.Judgeds ss →
    ((Stmt.nodes ss).map Node.bare).map Stmt.read = Stmt.bares ss
  | [], _ => rfl
  | s :: ss, h => by
    rw [Stmt.Judgeds] at h
    rw [Stmt.nodes, List.map_cons, List.map_cons, Stmt.read_bare s h.1, Stmt.reads_bare ss h.2,
      Stmt.bares]

theorem Clause.read_bare : ∀ c : Clause, c.Judged → Clause.read c.node.bare = c.bare
  | .onValue e body, h => by
    rw [Clause.Judged] at h
    simp [Clause.node, Node.bare, Clause.read, Clause.ofParts, Stmt.readAll_eq_map,
      Stmt.reads_bare body h.2, Expr.read_bare e false h.1, Clause.bare]
  | .otherwise body, h => by
    rw [Clause.Judged] at h
    simp [Clause.node, Node.bare, Clause.read, Clause.ofParts, Stmt.readAll_eq_map,
      Stmt.reads_bare body h, Clause.bare]
  | .error _, _ => rfl

theorem Clause.reads_bare : ∀ cs : List Clause, Clause.Judgeds cs →
    ((Clause.nodes cs).map Node.bare).map Clause.read = Clause.bares cs
  | [], _ => rfl
  | c :: cs, h => by
    rw [Clause.Judgeds] at h
    rw [Clause.nodes, List.map_cons, List.map_cons, Clause.read_bare c h.1,
      Clause.reads_bare cs h.2, Clause.bares]

end

theorem HintParam.read_bare (p : HintParam) : read p.node.bare = p := by
  obtain ⟨negated, number⟩ := p
  cases negated with
  | true => simp [node, Node.bare, read, Field.first, Number.read_bare]
  | false =>
    have hk : number.node.bare.kind ≠ .unaryExpr := by cases number <;> nofun
    simp [node, read, hk, Number.read_bare]

theorem Hint.read_bare {h : Hint} (hj : h.Judged) : read h.node.bare = h.bare := by
  obtain ⟨name, params⟩ := h
  have hname := Term.read_bare hj .hintName .invalidHint
  have hparams : ∀ ps : List HintParam, ps.map (fun p => HintParam.read p.node.bare) = ps :=
    List.map_id'' HintParam.read_bare
  cases params with
  | none => simp [node, paramItems, Node.bare, read, Field.first, hname, bare]
  | some ps =>
    simp [node, paramItems, Node.bare, read, Field.first, hname, bare,
      Function.comp_def, hparams]

/-- The hints are found in their own node, and without hints there is none. -/
theorem Hint.reads_bare {hs : List Hint} (h : ∀ x ∈ hs, x.Judged) :
    (Field.under .hint (((listNode? hs).map Node.bare).getD (.error ⟨0, 0⟩ [])).fields).map read =
      hs.map bare := by
  have hread : hs.map (fun x => read x.node.bare) = hs.map bare :=
    List.map_congr_left fun x hx => read_bare (h x hx)
  cases hs with
  | nil => rfl
  | cons x hs =>
    have hnode : listNode? (x :: hs) =
        some (.branch .hintList (Item.separated .hint ((x :: hs).map node))) := rfl
    rw [hnode, Option.map_some, Option.getD_some, Node.bare, Tree.fields_branch, Item.bares_separated,
      Field.under_map, if_pos rfl, List.map_map, List.map_map]
    exact hread

theorem Member.read_bare {m : Member} (h : m.Judged) : read m.node.bare = m.bare := by
  cases m with
  | field s => simp [node, Node.bare, read, Specifier.read_bares h, bare]
  | error s => rfl

theorem Parameter.read_bare {p : Parameter} (h : p.Judged) : read p.node.bare = p := by
  have hfields : p.node.bare.fields =
      Item.bares (Item.child? .qualifier (p.qualifier.map (qualifierNode .paramQualifier))) ++
        Item.bares p.specifier.items := by
    simp [node, Node.bare]
  have hqualifier := qualifier?_bares .paramQualifier p.qualifier .qualifier
    (Item.bares p.specifier.items) (by simp [Specifier.items])
  have hspecifier : Specifier.read p.node.bare.fields = p.specifier := by
    rw [hfields]
    conv => rhs; rw [← Specifier.read_bares h.specifier]
    simp [Specifier.read, Field.first]
  rw [read, hspecifier, hfields, hqualifier]

/-- A judged declaration is read back from its bare tree. -/
theorem Decl.read_bare {d : Decl} (h : d.Judged) : read d.node.bare = d.bare := by
  cases d with
  | shaderType t =>
    simp [node, Node.bare, read, ofFields, Field.first, Term.read_bare h, bare]
  | renderMode ts =>
    have hts : ts.map (fun t => Term.read .renderMode (t.node .renderMode .invalidRenderMode).bare)
        = ts := by
      rw [List.map_congr_left fun t ht => Term.read_bare (h t ht) _ _, List.map_id']
    simp [node, Node.bare, read, ofFields, Function.comp_def, hts, bare]
  | constant p v =>
    obtain ⟨hp, hv⟩ := Variable.read_constant h.2 .constDeclaration p
    have hread : read (constant p v).node.bare =
        .constant (qualifier? .precision (v.constantNode .constDeclaration p).bare.fields)
          (Variable.read (v.constantNode .constDeclaration p).bare.fields) := rfl
    rw [hread, hp, hv, bare]
  | varying i p s =>
    simp [node, Node.bare, read, ofFields, qualifier?, Field.first, Specifier.node,
      Specifier.read_bares h.2.2, Function.comp_def, bare]
  | groupUniforms g s =>
    have hread : ∀ n : Option Name, (∀ x ∈ n, x.Judged) →
        n.map (fun x => Name.read x.node.bare) = n := by
      intro n hn
      cases n with
      | none => rfl
      | some x => simp [Name.read_bare (hn x rfl)]
    simp [node, Node.bare, read, ofFields, Function.comp_def, hread g h.1, hread s h.2, bare]
  | uniform c p s hs v =>
    obtain ⟨-, hs', hhints, hv⟩ := h
    have hvalue : v.map (fun e => Expr.read e.node.bare) = v.map Expr.bare := by
      cases v with
      | none => rfl
      | some e => simp [Expr.read_bare e false (hv e rfl)]
    have hscope : (Field.attributes .scope (Item.bares (scopeItems c))).head?.map Scope.read = c ∧
        ∀ label, Field.under label (Item.bares (scopeItems c)) = [] := by
      cases c <;> simp [scopeItems, Lexeme.text]
    simp [node, Node.bare, read, ofFields, qualifier?, Field.first, Field.attribute?,
      Specifier.node, Specifier.read_bares hs', Function.comp_def, hvalue, hscope,
      Hint.reads_bare hhints, bare]
  | struct n ms =>
    have hms : ms.map (fun m => Member.read m.node.bare) = ms.map Member.bare :=
      List.map_congr_left fun m hm => Member.read_bare (h.2 m hm)
    simp [node, Node.bare, read, ofFields, Field.first, Name.read_bare h.1, Function.comp_def, hms,
      bare]
  | function t n ps body =>
    obtain ⟨ht, hn, hps, hbody⟩ := h
    have hparams : ps.map (fun p => Parameter.read p.node.bare) = ps := by
      rw [List.map_congr_left fun p hp => Parameter.read_bare (hps p hp), List.map_id']
    have hstatements := Stmt.reads_bare body hbody
    simp [node, Stmt.node, blockNode, Node.bare, read, ofFields, Field.first,
      TypeRef.read_bare ht, Name.read_bare hn, Function.comp_def, hparams, bare] at hstatements ⊢
    exact hstatements
  | includes path => rfl
  | error s => rfl

end Inverse

end ShaderSyntax
