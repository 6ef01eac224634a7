import ShaderSyntax.Ast.Decl
import ShaderSyntax.Grammar.Statement

/-!
# The grammar of declarations

Declarations do not nest, so they take no level; the values and bodies inside them start with all
levels free. A file is a list of declarations, each recovered by itself.
-/
namespace ShaderSyntax.Grammar

open ShaderSyntax.Parser

def shaderType : Parser Decl := do
  let t ← term .shaderType .shaderType .shaderType .invalidShaderType .unknownShaderType
  require .afterShaderType
  value (.shaderType t)

def renderModeTerm : Parser Term :=
  term .renderMode .renderMode .renderMode .invalidRenderMode .unknownRenderMode

/-- Render modes, or none at all. -/
def renderModeTerms : Parser (List Term) := fun ts =>
  match ts with
  | .word _ :: _ => separated renderModeTerm ts
  | _ => .done [] ts []

def renderMode : Parser Decl := do
  let modes ← renderModeTerms
  require .afterRenderModes
  value (.renderMode modes)

def constantDecl (expr : Parser Expr) : Parser Decl := do
  let (p, v) ← constant expr
  value (.constant p v)

def varying : Parser Decl := do
  let i ← qualifier .interpolation
  let p ← qualifier .precision
  let s ← specifier
  require .afterVarying
  value (.varying i p s)

/-- A name if a word is next. -/
def name? : Parser (Option Name) := fun ts =>
  match ts with
  | .word _ :: _ => (name.andThen fun n => value (some n)) ts
  | _ => .done none ts []

def groupUniforms : Parser Decl := do
  let group ← name?
  let subgroup ← onPunct .dot
    (do
      let n ← name
      value (some n))
    (value none)
  require .afterGroupUniforms
  value (.groupUniforms group subgroup)

def hintNumber : Parser Number := fun ts =>
  match ts with
  | .int n :: rest => .done (.int n) rest []
  | .float n :: rest => .done (.float n) rest []
  | _ => .failed (.hintParameter ts.head?) ts []

def hintParam : Parser HintParam :=
  onPunct .minus
    (do
      let n ← hintNumber
      value ⟨true, n⟩)
    (do
      let n ← hintNumber
      value ⟨false, n⟩)

/-- The parameters of a hint after the opening parenthesis. -/
def hintParams : Parser (List HintParam) :=
  onPunct .closeParen (value [])
    (do
      let ps ← separated hintParam
      require .closeHintParameters
      value ps)

def hint : Parser Hint := do
  let n ← term .hint .hint .hintName .invalidHint .unknownHint
  onPunct .openParen
    (do
      let ps ← hintParams
      value ⟨n, some ps⟩)
    (value ⟨n, none⟩)

/-- The hints after a colon, if there is one. -/
def hints : Parser (List Hint) :=
  onPunct .colon (separated hint) (value [])

/-- A uniform after its keyword. -/
def uniform (scope : Option Scope) (expr : Parser Expr) : Parser Decl := do
  let p ← qualifier .precision
  let s ← specifier
  let hs ← hints
  let v ← initializer expr
  require .afterUniform
  value (.uniform scope p s hs v)

/-- A uniform after the word for its scope. -/
def scopedUniform (scope : Scope) (expr : Parser Expr) : Parser Decl :=
  onKeyword .uniform (uniform (some scope) expr) (fail (.expectedUniform scope))

def member : Parser Member := do
  let s ← specifier
  require .afterMember
  value (.field s)

/-- The members of a struct up to its closing brace. There is at least one. -/
def members (name : Name) : Parser (List Member) := fun ts =>
  if ts.head? = some (.punct .closeBrace) then .failed (.emptyStruct name.word) ts []
  else
    manyUntil (Recovery.isPunct .closeBrace)
      (recovering Recovery.resumeStatement .error member) ts

def struct : Parser Decl := do
  let n ← name
  require .openStruct
  let ms ← members n
  require .closeStruct
  require .afterStruct
  value (.struct n ms)

def parameter : Parser Parameter := do
  let q ← qualifier .paramQualifier
  let s ← specifier
  value ⟨q, s⟩

/-- The parameters of a function after the opening parenthesis. -/
def parameters : Parser (List Parameter) :=
  onPunct .closeParen (value [])
    (do
      let ps ← separated parameter
      require .closeParameters
      value ps)

/-- A function. A variable outside any function fails here, at the missing parenthesis. -/
def function (stmt : Parser Stmt) : Parser Decl := do
  let t ← typeRef
  let n ← name
  require .afterFunctionName
  let ps ← parameters
  let body ← block stmt
  value (.function t n ps body)

def includePath : Parser Decl := fun ts =>
  match ts with
  | .string raw :: rest => .done (.includes raw) rest []
  | _ => .failed (.expected .includePath ts.head?) ts []

/-- An include after the hash. -/
def includes : Parser Decl := fun ts =>
  match ts with
  | .word w :: rest =>
    if w = includeWord then includePath rest else .failed (.expected .includeWord ts.head?) ts []
  | _ => .failed (.expected .includeWord ts.head?) ts []

/-- The declaration that a keyword starts, from the lexeme after it. -/
def keywordDecl (expr : Parser Expr) : Keyword → Option (Parser Decl)
  | .shaderType => some shaderType
  | .renderMode => some renderMode
  | .const => some (constantDecl expr)
  | .varying => some varying
  | .groupUniforms => some groupUniforms
  | .uniform => some (uniform none expr)
  | .globalScope => some (scopedUniform .wide expr)
  | .instanceScope => some (scopedUniform .perInstance expr)
  | .struct => some struct
  | _ => none

/-- A declaration over the parsers of what it contains. -/
def declarationOf (expr : Parser Expr) (stmt : Parser Stmt) : Parser Decl := fun ts =>
  match ts with
  | .punct .hash :: rest => includes rest
  | .word w :: rest =>
    match (Keyword.ofText? w).bind (keywordDecl expr) with
    | some p => p rest
    | none => function stmt ts
  | _ => .failed (.expected .declaration ts.head?) ts []

def declaration (levels : Nat) : Parser Decl :=
  declarationOf (expression levels) (statement levels)

/-- A declaration that becomes an error node when it fails. -/
def recoveredDecl (levels : Nat) : Parser Decl :=
  recovering Recovery.resumeDeclaration .error (declaration levels)

/-- All declarations up to the end. -/
def declarations (levels : Nat) : Parser (List Decl) :=
  manyUntil (fun _ => false) (recoveredDecl levels)

end ShaderSyntax.Grammar
