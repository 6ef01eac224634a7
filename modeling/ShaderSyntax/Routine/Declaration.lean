import ShaderSyntax.Grammar.Declaration
import ShaderSyntax.Routine.Statement

/-!
# Declarations in steps
-/
namespace ShaderSyntax.Routine

def shaderType : Routine Decl := do
  let t ← term .shaderType .shaderType .shaderType .invalidShaderType .unknownShaderType
  require .afterShaderType
  value (.shaderType t)

def renderModeTerm : Routine Term :=
  term .renderMode .renderMode .renderMode .invalidRenderMode .unknownRenderMode

/-- Render modes, or none at all. -/
def renderModeTerms : Routine (List Term) :=
  look fun ts =>
    match ts with
    | .word _ :: _ => separated renderModeTerm
    | _ => value []

def renderMode : Routine Decl := do
  let modes ← renderModeTerms
  require .afterRenderModes
  value (.renderMode modes)

def constantDecl : Routine Decl := do
  let (p, v) ← constant
  value (.constant p v)

def varying : Routine Decl := do
  let i ← qualifier .interpolation
  let p ← qualifier .precision
  let s ← specifier
  require .afterVarying
  value (.varying i p s)

/-- A name if a word is next. -/
def name? : Routine (Option Name) :=
  look fun ts =>
    match ts with
    | .word _ :: _ => do
      let n ← name
      value (some n)
    | _ => value none

def groupUniforms : Routine Decl := do
  let group ← name?
  let subgroup ← onPunct .dot
    (do
      let n ← name
      value (some n))
    (value none)
  require .afterGroupUniforms
  value (.groupUniforms group subgroup)

def hintNumber : Routine Number :=
  look fun ts =>
    match ts with
    | .int n :: _ => do
      skip
      value (.int n)
    | .float n :: _ => do
      skip
      value (.float n)
    | _ => fail .hintParameter

def hintParam : Routine HintParam :=
  onPunct .minus
    (do
      let n ← hintNumber
      value ⟨true, n⟩)
    (do
      let n ← hintNumber
      value ⟨false, n⟩)

/-- The parameters of a hint after the opening parenthesis. -/
def hintParams : Routine (List HintParam) :=
  onPunct .closeParen (value [])
    (do
      let ps ← separated hintParam
      require .closeHintParameters
      value ps)

def hint : Routine Hint := do
  let n ← term .hint .hint .hintName .invalidHint .unknownHint
  onPunct .openParen
    (do
      let ps ← hintParams
      value ⟨n, some ps⟩)
    (value ⟨n, none⟩)

/-- The hints after a colon, if there is one. -/
def hints : Routine (List Hint) :=
  onPunct .colon (separated hint) (value [])

/-- A uniform after its keyword. -/
def uniform (scope : Option Scope) : Routine Decl := do
  let p ← qualifier .precision
  let s ← specifier
  let hs ← hints
  let v ← initializer
  require .afterUniform
  value (.uniform scope p s hs v)

/-- A uniform after the word for its scope. -/
def scopedUniform (scope : Scope) : Routine Decl :=
  onKeyword .uniform (uniform (some scope)) (fail (.expectedUniform scope))

def member : Routine Member := do
  let s ← specifier
  require .afterMember
  value (.field s)

/-- The members of a struct up to its closing brace. There is at least one. -/
def members (name : Name) : Routine (List Member) :=
  look fun ts =>
    if ts.head? = some (.punct .closeBrace) then fail fun _ => .emptyStruct name.word
    else
      manyUntil (Recovery.isPunct .closeBrace) (recovered .statement .error member)

def struct : Routine Decl := do
  let n ← name
  require .openStruct
  let ms ← members n
  require .closeStruct
  require .afterStruct
  value (.struct n ms)

def parameter : Routine Parameter := do
  let q ← qualifier .paramQualifier
  let s ← specifier
  value ⟨q, s⟩

/-- The parameters of a function after the opening parenthesis. -/
def parameters : Routine (List Parameter) :=
  onPunct .closeParen (value [])
    (do
      let ps ← separated parameter
      require .closeParameters
      value ps)

/-- A function. A variable outside any function fails here, at the missing parenthesis. -/
def function : Routine Decl := do
  let t ← typeRef
  let n ← name
  require .afterFunctionName
  let ps ← parameters
  let body ← block
  value (.function t n ps body)

def includePath : Routine Decl :=
  look fun ts =>
    match ts with
    | .string raw :: _ => do
      skip
      value (.includes raw)
    | _ => fail (.expected .includePath)

/-- An include after the hash. -/
def includes : Routine Decl :=
  look fun ts =>
    match ts with
    | .word w :: _ =>
      if w = includeWord then do
        skip
        includePath
      else fail (.expected .includeWord)
    | _ => fail (.expected .includeWord)

/-- The declaration that a keyword starts, from the lexeme after it. -/
def keywordDecl : Keyword → Option (Routine Decl)
  | .shaderType => some shaderType
  | .renderMode => some renderMode
  | .const => some constantDecl
  | .varying => some varying
  | .groupUniforms => some groupUniforms
  | .uniform => some (uniform none)
  | .globalScope => some (scopedUniform .wide)
  | .instanceScope => some (scopedUniform .perInstance)
  | .struct => some struct
  | _ => none

def declaration : Routine Decl :=
  look fun ts =>
    match ts with
    | .punct .hash :: _ => do
      skip
      includes
    | .word w :: _ =>
      match (Keyword.ofText? w).bind keywordDecl with
      | some r => do
        skip
        r
      | none => function
    | _ => fail (.expected .declaration)

/-- A declaration that becomes an error node when it fails. -/
def recoveredDecl : Routine Decl :=
  recovered .declaration .error declaration

/-- All declarations up to the end. -/
def declarations : Routine (List Decl) :=
  manyUntil (fun _ => false) recoveredDecl

end ShaderSyntax.Routine
