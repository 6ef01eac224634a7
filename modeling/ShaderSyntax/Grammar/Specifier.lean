import ShaderSyntax.Ast.Specifier
import ShaderSyntax.Grammar

/-!
# Names, types and specifiers

The productions that judge a word by its class. A word of the wrong class is taken, and noted.
-/
namespace ShaderSyntax.Grammar

open ShaderSyntax.Parser

def name : Parser Name := fun ts =>
  match ts with
  | .word w :: rest =>
    let cls := classify w
    if cls.isName then .done (.valid cls w) rest []
    else
      let n : Name := .invalid cls w
      .done n rest [.single (.notAName cls w) n.node ts.length]
  | _ => .failed (.expected .identifier ts.head?) ts []

/-- The sizes `[N]` at the head, and what follows them. -/
def sizeSuffixes : List Lexeme → List Text × List Lexeme
  | .punct .openBracket :: .int n :: .punct .closeBracket :: rest =>
    let (sizes, after) := sizeSuffixes rest
    (n :: sizes, after)
  | ts => ([], ts)

/-- The type that a word names. -/
def baseType : Parser TypeRef := fun ts =>
  match ts with
  | .word w :: rest =>
    let cls := classify w
    match cls.typeRole with
    | .builtin => .done (.builtin w) rest []
    | .named => .done (.named w) rest []
    | .invalid =>
      let t : TypeRef := .invalid cls w
      .done t rest [.single (.notAType cls w) t.node ts.length]
  | _ => .failed (.expected .ofType ts.head?) ts []

/-- A type with as many sizes as follow. A bracket that no size and bracket follow is left. -/
def typeRef : Parser TypeRef := do
  let base ← baseType
  fun ts =>
    let (sizes, after) := sizeSuffixes ts
    .done (sizes.foldl .array base) after []

/-- A size after its opening bracket. -/
def arraySize : Parser Text := fun ts =>
  match ts with
  | .int n :: rest => ((require .afterArraySize).andThen fun _ => value n) rest
  | _ => .failed (.arraySize ts.head?) ts []

def arraySizesWithin : Nat → Parser (List Text)
  | 0 => value []
  | rounds + 1 =>
    onPunct .openBracket
      (do
        let n ← arraySize
        let rest ← arraySizesWithin rounds
        value (n :: rest))
      (value [])

/-- The sizes after a declared name. Here every bracket must hold a size. -/
def arraySizes : Parser (List Text) :=
  inRounds arraySizesWithin

def specifier : Parser Specifier := do
  let type ← typeRef
  let name ← name
  let sizes ← arraySizes
  value ⟨type, name, sizes⟩

/-- A word that should belong to one vocabulary. -/
def term (wanted : Wanted) (cls : WordClass) (good bad : Kind) (problem : Text → Problem) :
    Parser Term := fun ts =>
  match ts with
  | .word w :: rest =>
    if classify w = cls then .done (.known w) rest []
    else .done (.unknown w) rest [.single (problem w) ((Term.unknown w).node good bad) ts.length]
  | _ => .failed (.expected wanted ts.head?) ts []

end ShaderSyntax.Grammar
