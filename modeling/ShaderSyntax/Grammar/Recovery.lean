import ShaderSyntax.Grammar

/-!
# Recovery

A production that fails becomes a node over the lexemes it took and those skipped up to a place where
parsing can go on. The findings made inside it go with it, and one finding stands for all of it.
-/
namespace ShaderSyntax.Recovery

def isPunct (p : Punct) (l : Lexeme) : Bool :=
  l = .punct p

def isKeyword (k : Keyword) (l : Lexeme) : Bool :=
  l = .word k.spelling

/-- The end of a statement: a semicolon or a closing brace. -/
def endsStatement (l : Lexeme) : Bool :=
  isPunct .semicolon l || isPunct .closeBrace l

/-- The start of a switch clause. -/
def startsClause (l : Lexeme) : Bool :=
  isKeyword .caseLabel l || isKeyword .defaultLabel l

/-- The end of the statements of a switch clause. -/
def endsClause (l : Lexeme) : Bool :=
  isPunct .closeBrace l || startsClause l

/-- The words that start a declaration. -/
def declarationKeywords : List Keyword :=
  [.shaderType, .renderMode, .const, .varying, .uniform, .globalScope, .instanceScope,
   .groupUniforms, .struct]

/-- A lexeme at which a declaration starts whatever stands before it. -/
def startsDeclaration (l : Lexeme) : Bool :=
  isPunct .hash l || declarationKeywords.any fun k => isKeyword k l

/-- The braces left open, given how many were open before. A closing brace without a partner does
not count. -/
def openBraces : Nat → List Lexeme → Nat
  | depth, [] => depth
  | depth, l :: rest =>
    if isPunct .openBrace l then openBraces (depth + 1) rest
    else if isPunct .closeBrace l then openBraces (depth - 1) rest
    else openBraces depth rest

/-- What remains after the rest of a statement with `depth` open braces: it ends with a semicolon
outside them, with the brace that closes the last, or before a brace that closes none of them. -/
def afterStatement : Nat → List Lexeme → List Lexeme
  | _, [] => []
  | depth, l :: rest =>
    if isPunct .semicolon l then if depth = 0 then rest else afterStatement depth rest
    else if isPunct .openBrace l then afterStatement (depth + 1) rest
    else if isPunct .closeBrace l then
      if depth = 0 then l :: rest
      else if depth = 1 then rest
      else afterStatement (depth - 1) rest
    else afterStatement depth rest

/-- What remains after the rest of a declaration with `depth` open braces: it ends with a semicolon
outside them, with the brace that closes the last and a semicolon after it, or before the next
declaration. -/
def afterDeclaration : Nat → List Lexeme → List Lexeme
  | _, [] => []
  | depth, l :: rest =>
    if isPunct .semicolon l then if depth = 0 then rest else afterDeclaration depth rest
    else if isPunct .openBrace l then afterDeclaration (depth + 1) rest
    else if isPunct .closeBrace l then
      if depth ≤ 1 then
        match rest with
        | [] => []
        | next :: more => if isPunct .semicolon next then more else next :: more
      else afterDeclaration (depth - 1) rest
    else if depth = 0 ∧ startsDeclaration l then l :: rest
    else afterDeclaration depth rest

/-- What remains after the rest of a clause with `depth` open braces: it ends before the next clause
or before the brace that closes the switch. -/
def afterClause : Nat → List Lexeme → List Lexeme
  | _, [] => []
  | depth, l :: rest =>
    if isPunct .openBrace l then afterClause (depth + 1) rest
    else if isPunct .closeBrace l then
      if depth = 0 then l :: rest else afterClause (depth - 1) rest
    else if depth = 0 ∧ startsClause l then l :: rest
    else afterClause depth rest

/-- Where parsing goes on, from the lexemes that the failed production took and those left. A
production that took nothing gives up its first lexeme, and that may be its end already. -/
def resume (ends : Lexeme → Bool) (skip : Nat → List Lexeme → List Lexeme) :
    List Lexeme → List Lexeme → List Lexeme
  | [], l :: rest => if ends l then rest else skip (openBraces 0 [l]) rest
  | taken, rest => skip (openBraces 0 taken) rest

def resumeStatement : List Lexeme → List Lexeme → List Lexeme :=
  resume endsStatement afterStatement

def resumeDeclaration : List Lexeme → List Lexeme → List Lexeme :=
  resume endsStatement afterDeclaration

def resumeClause : List Lexeme → List Lexeme → List Lexeme :=
  resume (fun _ => false) afterClause

end Recovery

namespace Parser

variable {α : Type}

/-- Runs a production. If it fails, its lexemes through the place where parsing resumes become one
node, and the failure its only finding. -/
def recovering (resume : List Lexeme → List Lexeme → List Lexeme) (error : Skipped → α)
    (p : Parser α) : Parser α := fun ts =>
  match p ts with
  | .done a rest found => .done a rest found
  | .tooDeep rest found => .tooDeep rest found
  | .failed problem rest _ =>
    let reached := ts.length - rest.length
    let after := resume (ts.take reached) rest
    let skipped : Skipped := ⟨ts.take (ts.length - after.length), reached, problem⟩
    .done (error skipped) after [⟨problem, .error skipped, ts.length, rest.length⟩]

end Parser

end ShaderSyntax
