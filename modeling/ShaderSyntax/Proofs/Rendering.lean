import ShaderSyntax.Ast.Decl
import ShaderSyntax.Proofs.Itemwise
import ShaderSyntax.Proofs.Placing

/-!
# Rendering a tree

A tree keeps its kind and its labelled fields. The keywords, brackets and separators around them are
gone, and follow from the kind: `layout` says how. Every node that the syntax builds is written the
way its kind says.
-/
namespace ShaderSyntax

/-- What a field is written as, under its label. -/
abbrev Part := Label × List Text

namespace Part

/-- The parts under a label, in source order. -/
def each (label : Label) (parts : List Part) : List (List Text) :=
  (parts.filter fun p => p.1 = label).map Prod.snd

/-- All that stands under a label. -/
def all (label : Label) (parts : List Part) : List Text :=
  (each label parts).flatten

/-- All that stands under a label, each part after a mark. -/
def after (p : Punct) (label : Label) (parts : List Part) : List Text :=
  (each label parts).flatMap fun x => p.spelling :: x

/-- The texts in a row with commas between them. -/
def commas : List (List Text) → List Text
  | [] => []
  | [x] => x
  | x :: rest => x ++ Punct.comma.spelling :: commas rest

/-- All that stands under a label, with commas between the parts. -/
def list (label : Label) (parts : List Part) : List Text :=
  commas (each label parts)

@[simp] theorem each_nil (label : Label) : each label [] = [] := rfl

@[simp] theorem each_cons (label l : Label) (x : List Text) (parts : List Part) :
    each label ((l, x) :: parts) =
      if l = label then x :: each label parts else each label parts := by
  by_cases h : l = label <;> simp [each, h]

@[simp] theorem each_append (label : Label) (xs ys : List Part) :
    each label (xs ++ ys) = each label xs ++ each label ys := by
  simp [each]

@[simp] theorem each_map {α : Type} (label l : Label) (f : α → List Text) (as : List α) :
    each label (as.map fun a => (l, f a)) = if l = label then as.map f else [] := by
  induction as with
  | nil => simp
  | cons a as ih =>
    rw [List.map_cons, each_cons, ih]
    by_cases h : l = label <;> simp [h]

end Part

open ShaderSyntax.Part

/-- What is written for a kind with these parts. The update of a loop has no semicolon, and a hint
has parentheses if it has more tokens than its name. -/
def layout (kind : Kind) (update : Bool) (tokens : Nat) (parts : List Part) : List Text :=
  let mark (p : Punct) : List Text := [p.spelling]
  let word (k : Keyword) : List Text := [k.spelling]
  let finish := if update then [] else mark .semicolon
  match kind with
  | .arrayType => all .baseType parts ++ mark .openBracket ++ all .size parts ++ mark .closeBracket
  | .shaderTypeDeclaration => word .shaderType ++ all .shaderType parts ++ mark .semicolon
  | .renderModeDeclaration => word .renderMode ++ list .renderMode parts ++ mark .semicolon
  | .varSpecifier => all .ofType parts ++ all .named parts ++ all .sizes parts
  | .arraySizes =>
    (each .size parts).flatMap fun x => mark .openBracket ++ x ++ mark .closeBracket
  | .constDeclaration | .constVarDeclaration =>
    word .const ++ all .precision parts ++ all .specifier parts ++ after .assign .value parts ++
      mark .semicolon
  | .varDeclaration => all .specifier parts ++ after .assign .value parts ++ mark .semicolon
  | .varyingDeclaration =>
    word .varying ++ all .interpolation parts ++ all .precision parts ++ all .specifier parts ++
      mark .semicolon
  | .groupUniformsDeclaration =>
    word .groupUniforms ++ all .groupName parts ++ after .dot .subgroupName parts ++
      mark .semicolon
  | .uniformDeclaration =>
    all .scope parts ++ word .uniform ++ all .precision parts ++ all .specifier parts ++
      after .colon .hints parts ++ after .assign .value parts ++ mark .semicolon
  | .hintList => list .hint parts
  | .hint =>
    all .named parts ++
      if 1 < tokens then mark .openParen ++ list .param parts ++ mark .closeParen else []
  | .structDeclaration =>
    word .struct ++ all .named parts ++ mark .openBrace ++ all .member parts ++
      mark .closeBrace ++ mark .semicolon
  | .structMember =>
    all .ofType parts ++ all .named parts ++ all .sizes parts ++ mark .semicolon
  | .functionDeclaration =>
    all .functionType parts ++ all .named parts ++ mark .openParen ++ list .parameter parts ++
      mark .closeParen ++ all .body parts
  | .parameter =>
    all .qualifier parts ++ all .ofType parts ++ all .named parts ++ all .sizes parts
  | .includeDeclaration => mark .hash ++ [includeWord] ++ all .file parts
  | .assignmentStatement =>
    all .argument parts ++ all .operation parts ++ all .value parts ++ finish
  -- The operator may stand on either side, and its field stands on the same.
  | .adjustmentStatement => parts.flatMap Prod.snd ++ finish
  | .switchStatement =>
    word .switchOn ++ mark .openParen ++ all .condition parts ++ mark .closeParen ++
      mark .openBrace ++ all .clause parts ++ mark .closeBrace
  | .switchCase =>
    (if each .caseLabel parts = [] then word .caseLabel ++ all .argument parts
      else all .caseLabel parts) ++ mark .colon ++ all .statement parts
  | .forStatement =>
    word .forLoop ++ mark .openParen ++ all .initializer parts ++ all .condition parts ++
      all .update parts ++ mark .closeParen ++ all .action parts
  | .whileStatement => word .whileLoop ++ all .condition parts ++ all .action parts
  | .ifStatement =>
    word .ifThen ++ all .condition parts ++ all .action parts ++
      (each .alternate parts).flatMap fun x => word .otherwise ++ x
  | .exprStatement => all .value parts ++ mark .semicolon
  | .continueStatement => word .continueLoop ++ mark .semicolon
  | .breakStatement => word .breakOut ++ mark .semicolon
  | .returnStatement => word .returnValue ++ all .value parts ++ mark .semicolon
  | .block => mark .openBrace ++ all .statement parts ++ mark .closeBrace
  | .unaryExpr => all .operator parts ++ all .argument parts
  | .binaryExpr => all .left parts ++ all .operator parts ++ all .right parts
  | .callExpr =>
    all .function parts ++ mark .openParen ++ list .argument parts ++ mark .closeParen
  | .qualifiedArgument => all .paramQualifier parts ++ all .value parts
  | .parenExpr => mark .openParen ++ all .value parts ++ mark .closeParen
  | .conditionalExpr =>
    all .condition parts ++ mark .question ++ all .action parts ++ mark .colon ++
      all .alternate parts
  | .subscriptExpr =>
    all .argument parts ++ mark .openBracket ++ all .index parts ++ mark .closeBracket
  | .memberExpr => all .argument parts ++ mark .dot ++ all .member parts
  | .arrayLiteralExpr => mark .openBrace ++ list .value parts ++ mark .closeBrace
  -- The other kinds are leaves.
  | _ => []

mutual

/-- What a tree is written as. An error node is written as the tokens inside its span, whatever they
are. -/
def Tree.emit (tokens : List Token) (update : Bool) : Tree → List Text
  | .leaf _ _ text => [text]
  | .error span _ => (tokensIn tokens span).map Token.text
  | .branch kind span fields =>
    layout kind update (tokensIn tokens span).length (Field.emit tokens fields)

def Field.emit (tokens : List Token) : List Field → List Part
  | [] => []
  | .attribute label text :: rest => (label, [text]) :: Field.emit tokens rest
  | .child label t :: rest => (label, t.emit tokens (label == .update)) :: Field.emit tokens rest

end

/-- The texts of the lexemes of a node. -/
def Node.texts (n : Node) : List Text :=
  n.lexemes.map Lexeme.text

namespace Item

def texts (items : List Item) : List Text :=
  (lexemes items).map Lexeme.text

/-- The parts that items leave to a tree. -/
def parts : List Item → List Part
  | [] => []
  | .token _ :: rest => parts rest
  | .attribute label l :: rest => (label, [l.text]) :: parts rest
  | .child label n :: rest => (label, n.texts) :: parts rest

variable (l : Lexeme) (label : Label) (n : Node) (rest xs ys : List Item) (nodes : List Node)

@[simp] theorem texts_nil : texts [] = [] := rfl

@[simp] theorem texts_mark (p : Punct) : texts (mark p :: rest) = p.spelling :: texts rest := rfl

@[simp] theorem texts_keyword (k : Keyword) :
    texts (keyword k :: rest) = k.spelling :: texts rest := rfl

@[simp] theorem texts_token : texts (.token l :: rest) = l.text :: texts rest := rfl

@[simp] theorem texts_attribute : texts (.attribute label l :: rest) = l.text :: texts rest := rfl

@[simp] theorem texts_child : texts (.child label n :: rest) = n.texts ++ texts rest := by
  simp [texts, Node.texts, lexemes]

@[simp] theorem texts_append : texts (xs ++ ys) = texts xs ++ texts ys := by
  simp [texts]

@[simp] theorem parts_nil : parts [] = [] := rfl

@[simp] theorem parts_mark (p : Punct) : parts (mark p :: rest) = parts rest := rfl

@[simp] theorem parts_keyword (k : Keyword) : parts (keyword k :: rest) = parts rest := rfl

@[simp] theorem parts_token : parts (.token l :: rest) = parts rest := rfl

@[simp] theorem parts_attribute :
    parts (.attribute label l :: rest) = (label, [l.text]) :: parts rest := rfl

@[simp] theorem parts_child : parts (.child label n :: rest) = (label, n.texts) :: parts rest := rfl

@[simp] theorem parts_append : parts (xs ++ ys) = parts xs ++ parts ys := by
  induction xs with
  | nil => rfl
  | cons x xs ih =>
    rcases x with l | ⟨label, l⟩ | ⟨label, n⟩ <;> simp [ih]

@[simp] theorem texts_children : texts (children label nodes) = (nodes.map Node.texts).flatten := by
  induction nodes with
  | nil => rfl
  | cons n nodes ih =>
    rw [children, List.map_cons, texts_child]
    exact congrArg _ ih

@[simp] theorem parts_children :
    parts (children label nodes) = nodes.map fun n => (label, n.texts) := by
  induction nodes with
  | nil => rfl
  | cons n nodes ih => exact congrArg _ ih

@[simp] theorem texts_separated :
    texts (separated label nodes) = commas (nodes.map Node.texts) := by
  fun_induction separated label nodes with
  | case1 => rfl
  | case2 n => simp [commas]
  | case3 n nodes hne ih =>
    obtain ⟨m, more, rfl⟩ := List.exists_cons_of_ne_nil (fun h => hne h)
    rw [texts_child, texts_mark, ih]
    rfl

@[simp] theorem parts_separated :
    parts (separated label nodes) = nodes.map fun n => (label, n.texts) := by
  fun_induction separated label nodes with
  | case1 => rfl
  | case2 n => rfl
  | case3 n nodes hne ih =>
    rw [parts_child, parts_mark, ih]
    rfl

@[simp] theorem texts_child? (n? : Option Node) :
    texts (child? label n?) = (n?.toList.map Node.texts).flatten := by
  cases n? <;> simp [child?]

@[simp] theorem parts_child? (n? : Option Node) :
    parts (child? label n?) = n?.toList.map fun n => (label, n.texts) := by
  cases n? <;> simp [child?]

@[simp] theorem texts_marked? (p : Punct) (n? : Option Node) :
    texts (marked? p label n?) =
      (n?.toList.map Node.texts).flatMap fun x => p.spelling :: x := by
  cases n? <;> simp [marked?]

@[simp] theorem parts_marked? (p : Punct) (n? : Option Node) :
    parts (marked? p label n?) = n?.toList.map fun n => (label, n.texts) := by
  cases n? <;> simp [marked?]

end Item

mutual

/-- Every node inside, and the node itself, is written as its kind says. -/
def Node.Written (update : Bool) : Node → Prop
  | .leaf _ _ => True
  | .error _ => True
  | .branch kind items =>
    layout kind update (Item.size items) (Item.parts items) = Item.texts items ∧ Item.Written items

def Item.Written : List Item → Prop
  | [] => True
  | .token _ :: rest => Item.Written rest
  | .attribute _ _ :: rest => Item.Written rest
  | .child label n :: rest => n.Written (label == .update) ∧ Item.Written rest

end

namespace Item

theorem itemwise_written : Itemwise Written (fun _ => True) (fun _ => True)
    fun label n => n.Written (label == .update) := by
  constructor <;> simp [Written]

@[simp] theorem written_append (xs ys : List Item) :
    Written (xs ++ ys) ↔ Written xs ∧ Written ys :=
  itemwise_written.append xs ys

theorem written_children {label : Label} {nodes : List Node}
    (h : ∀ n ∈ nodes, n.Written (label == .update)) : Written (children label nodes) :=
  (itemwise_written.children nodes).mpr h

theorem written_separated {label : Label} {nodes : List Node}
    (h : ∀ n ∈ nodes, n.Written (label == .update)) : Written (separated label nodes) :=
  (itemwise_written.separated trivial nodes).mpr h

theorem written_child? {label : Label} {n? : Option Node}
    (h : ∀ n ∈ n?, n.Written (label == .update)) : Written (child? label n?) :=
  (itemwise_written.child? n?).mpr h

theorem written_marked? {p : Punct} {label : Label} {n? : Option Node}
    (h : ∀ n ∈ n?, n.Written (label == .update)) : Written (marked? p label n?) :=
  (itemwise_written.marked? trivial n?).mpr h

end Item

end ShaderSyntax
