import ShaderSyntax.Proofs.Reading.Expression
import ShaderSyntax.Routine.Declaration

/-!
# What routines tell

A routine tells a parser: its steps one after another, where a level goes down to the next. The
routines of the grammar tell the parsers of the grammar, production by production.
-/
namespace ShaderSyntax

/-- The parser that a routine tells, given those of the productions that nest. -/
def Routine.parse (call : {β : Type} → Production β → Parser β) {α : Type} : Routine α → Parser α
  | .value a => Parser.value a
  | .andThen first next => (first.parse call).andThen fun a => (next a).parse call
  | .look next => fun ts => (next ts).parse call ts
  | .skip => Parser.skip
  | .note problem node left => fun ts => .done () ts [.single problem node left]
  | .fail problem => Parser.fail problem
  | .nested p => call p
  | .recovered extent error inner => Parser.recovering extent.resume error (inner.parse call)

/-- The parser of a production that may nest the given number of levels, its own included. -/
def Production.parse : Nat → {α : Type} → Production α → Parser α
  | 0, _, _ => Parser.tooDeep
  | levels + 1, _, p => p.body.parse (Production.parse levels)

namespace Routine

variable {call : {β : Type} → Production β → Parser β} {α β : Type}

@[simp] theorem parse_value (a : α) : (value a).parse call = Parser.value a := rfl

@[simp] theorem parse_bind (r : Routine α) (f : α → Routine β) :
    (r >>= f).parse call = (r.parse call).andThen fun a => (f a).parse call := rfl

@[simp] theorem parse_look (f : List Lexeme → Routine α) :
    (look f).parse call = fun ts => (f ts).parse call ts := rfl

@[simp] theorem parse_skip : skip.parse call = Parser.skip := rfl

@[simp] theorem parse_fail (problem : Option Lexeme → Problem) :
    (fail problem : Routine α).parse call = Parser.fail problem := rfl

@[simp] theorem parse_nested (p : Production α) : (nested p).parse call = call p := rfl

@[simp] theorem parse_recovered (extent : Extent) (error : Skipped → α) (r : Routine α) :
    (recovered extent error r).parse call =
      Parser.recovering extent.resume error (r.parse call) := rfl

/-- A lexeme that is skipped leaves the others to what comes next. -/
@[simp] theorem skip_andThen (f : Unit → Parser α) (l : Lexeme) (ts : List Lexeme) :
    Parser.skip.andThen f (l :: ts) = f () ts :=
  Outcome.after_nil _

theorem parse_skips (n : Nat) (ts : List Lexeme) :
    (skips n).parse call ts = .done () (ts.drop n) [] := by
  induction n generalizing ts with
  | zero => rfl
  | succ n ih =>
    have hstep : (skips (n + 1)).parse call ts = ((skips n).parse call ts.tail).after [] := rfl
    rw [hstep, ih, ← List.drop_one, List.drop_drop, Nat.add_comm]
    rfl

@[simp] theorem parse_require (place : Place) :
    (require place).parse call = Parser.require place := by
  funext ts
  cases ts with
  | nil => rfl
  | cons l ts =>
    cases l with
    | punct p =>
      simp only [require, parse_look, Parser.require]
      split <;> rfl
    | _ => rfl

@[simp] theorem parse_onPunct (p : Punct) (yes no : Routine α) :
    (onPunct p yes no).parse call = Parser.onPunct p (yes.parse call) (no.parse call) := by
  funext ts
  cases ts with
  | nil => rfl
  | cons l ts =>
    cases l with
    | punct q =>
      simp only [onPunct, parse_look, Parser.onPunct]
      split
      · exact skip_andThen _ _ _
      · rfl
    | _ => rfl

@[simp] theorem parse_onKeyword (k : Keyword) (yes no : Routine α) :
    (onKeyword k yes no).parse call = Parser.onKeyword k (yes.parse call) (no.parse call) := by
  funext ts
  cases ts with
  | nil => rfl
  | cons l ts =>
    cases l with
    | word w =>
      simp only [onKeyword, parse_look, Parser.onKeyword]
      split
      · exact skip_andThen _ _ _
      · rfl
    | _ => rfl

@[simp] theorem parse_qualifier (cls : WordClass) :
    (qualifier cls).parse call = Parser.qualifier cls := by
  funext ts
  cases ts with
  | nil => rfl
  | cons l ts =>
    cases l with
    | word w =>
      simp only [qualifier, parse_look, Parser.qualifier]
      split <;> rfl
    | _ => rfl

theorem parse_manyWithin (stop : Lexeme → Bool) (item : Routine α) (rounds : Nat) :
    (manyWithin stop item rounds).parse call =
      Parser.manyWithin stop (item.parse call) rounds := by
  induction rounds with
  | zero => rfl
  | succ rounds ih =>
    funext ts
    cases ts with
    | nil => rfl
    | cons l ts =>
      simp only [manyWithin, parse_look, Parser.manyWithin, Parser.bind_eq_andThen, ← ih]
      split <;> rfl

@[simp] theorem parse_manyUntil (stop : Lexeme → Bool) (item : Routine α) :
    (manyUntil stop item).parse call = Parser.manyUntil stop (item.parse call) := by
  funext ts
  exact congrFun (parse_manyWithin stop item ts.length) ts

theorem parse_moreWithin (item : Routine α) (rounds : Nat) :
    (moreWithin item rounds).parse call = Parser.moreWithin (item.parse call) rounds := by
  induction rounds with
  | zero => rfl
  | succ rounds ih =>
    simp only [moreWithin, Parser.moreWithin, parse_onPunct, parse_bind, parse_value, ih,
      Parser.bind_eq_andThen]

@[simp] theorem parse_separated (item : Routine α) :
    (separated item).parse call = Parser.separated (item.parse call) := by
  have hmore : (inRounds (moreWithin item)).parse call =
      Parser.inRounds (Parser.moreWithin (item.parse call)) := by
    funext ts
    exact congrFun (parse_moreWithin item ts.length) ts
  simp only [separated, Parser.separated, parse_bind, parse_value, hmore, Parser.bind_eq_andThen]

theorem parse_growWithin {step : α → Lexeme → Option (Routine α)}
    {step' : α → Lexeme → Option (Parser α)}
    (h : ∀ a l, (step a l).map (fun r => r.parse call) = step' a l) (rounds : Nat) (a : α) :
    (growWithin step rounds a).parse call = Parser.growWithin step' rounds a := by
  induction rounds generalizing a with
  | zero => rfl
  | succ rounds ih =>
    funext ts
    cases ts with
    | nil => rfl
    | cons l ts =>
      simp only [growWithin, parse_look, Parser.growWithin, ← h]
      cases step a l with
      | none => rfl
      | some r =>
        simp only [parse_bind, parse_skip, skip_andThen, ih, Option.map_some]

theorem parse_grow {step : α → Lexeme → Option (Routine α)}
    {step' : α → Lexeme → Option (Parser α)}
    (h : ∀ a l, (step a l).map (fun r => r.parse call) = step' a l) (a : α) :
    (grow step a).parse call = Parser.grow step' a := by
  funext ts
  exact congrFun (parse_growWithin h ts.length a) ts

/-! ### Names, types and expressions -/

@[simp] theorem parse_name : name.parse call = Grammar.name := by
  funext ts
  cases ts with
  | nil => rfl
  | cons l ts =>
    cases l with
    | word w =>
      simp only [name, parse_look, parse_bind, parse_skip, skip_andThen, Grammar.name]
      split <;> rfl
    | _ => rfl

theorem parse_baseType : baseType.parse call = Grammar.baseType := by
  funext ts
  cases ts with
  | nil => rfl
  | cons l ts =>
    cases l with
    | word w =>
      simp only [baseType, parse_look, parse_bind, parse_skip, skip_andThen, Grammar.baseType]
      cases (classify w).typeRole <;> rfl
    | _ => rfl

/-- Three lexemes were looked at for each size. -/
theorem drop_sizeSuffixes (ts : List Lexeme) :
    ts.drop (3 * (Grammar.sizeSuffixes ts).1.length) = (Grammar.sizeSuffixes ts).2 := by
  fun_induction Grammar.sizeSuffixes ts with
  | case1 n rest sizes after h ih =>
    rw [h] at ih
    simpa [Nat.mul_add] using ih
  | case2 ts h => rfl

@[simp] theorem parse_typeRef : typeRef.parse call = Grammar.typeRef := by
  simp only [typeRef, Grammar.typeRef, parse_bind, parse_baseType, parse_look, parse_value]
  congr 1
  funext base ts
  simp only [Parser.andThen, parse_skips, drop_sizeSuffixes]
  rfl

theorem parse_arraySize : arraySize.parse call = Grammar.arraySize := by
  funext ts
  cases ts with
  | nil => rfl
  | cons l ts =>
    cases l with
    | int n =>
      simp only [arraySize, parse_look, parse_bind, parse_skip, skip_andThen, parse_require,
        parse_value, Grammar.arraySize]
    | _ => rfl

theorem parse_arraySizesWithin (rounds : Nat) :
    (arraySizesWithin rounds).parse call = Grammar.arraySizesWithin rounds := by
  induction rounds with
  | zero => rfl
  | succ rounds ih =>
    simp only [arraySizesWithin, Grammar.arraySizesWithin, parse_onPunct, parse_bind,
      parse_value, parse_arraySize, ih, Parser.bind_eq_andThen]

@[simp] theorem parse_specifier : specifier.parse call = Grammar.specifier := by
  have hsizes : arraySizes.parse call = Grammar.arraySizes := by
    funext ts
    exact congrFun (parse_arraySizesWithin ts.length) ts
  simp only [specifier, Grammar.specifier, parse_bind, parse_value, parse_typeRef, parse_name,
    hsizes, Parser.bind_eq_andThen]

@[simp] theorem parse_term (wanted : Wanted) (cls : WordClass) (good bad : Kind)
    (problem : Text → Problem) :
    (term wanted cls good bad problem).parse call =
      Grammar.term wanted cls good bad problem := by
  funext ts
  cases ts with
  | nil => rfl
  | cons l ts =>
    cases l with
    | word w =>
      simp only [term, parse_look, parse_bind, parse_skip, skip_andThen, Grammar.term]
      split <;> rfl
    | _ => rfl

theorem parse_argument : argument.parse call = Grammar.argument (call .expression) := by
  simp only [argument, Grammar.argument, parse_bind, parse_qualifier, parse_nested,
    Parser.bind_eq_andThen]
  congr 1
  funext q
  cases q <;> rfl

theorem parse_arguments : arguments.parse call = Grammar.arguments (call .expression) := by
  simp only [arguments, Grammar.arguments, parse_onPunct, parse_bind, parse_value,
    parse_separated, parse_argument, parse_require, Parser.bind_eq_andThen]

@[simp] theorem parse_parenthesized :
    parenthesized.parse call = Grammar.parenthesized (call .expression) := by
  simp only [parenthesized, Grammar.parenthesized, parse_bind, parse_value, parse_nested,
    parse_require, Parser.bind_eq_andThen]

theorem parse_elements : elements.parse call = Grammar.elements (call .expression) := by
  simp only [elements, Grammar.elements, parse_bind, parse_value, parse_nested,
    parse_separated, parse_require, Parser.bind_eq_andThen]

theorem parse_wordExpr (w : Text) : (wordExpr w).parse call = Grammar.wordExpr w := by
  funext ts
  simp only [wordExpr, parse_look, Grammar.wordExpr]
  cases boolOf? w with
  | some b => rfl
  | none =>
    simp only
    split
    · rfl
    · simp only [parse_bind, parse_name, parse_value]

theorem parse_primary : primary.parse call = Grammar.primary (call .expression) := by
  funext ts
  cases ts with
  | nil => rfl
  | cons l ts =>
    cases l with
    | word w => exact congrFun (parse_wordExpr w) _
    | punct p =>
      cases p with
      | openParen =>
        simp only [primary, parse_look, parse_bind, parse_parenthesized, parse_value,
          Grammar.primary]
      | openBrace =>
        simp only [primary, parse_look, parse_bind, parse_skip, skip_andThen, parse_elements,
          parse_value, Grammar.primary]
      | _ => rfl
    | _ => rfl

theorem parse_suffix (e : Expr) (l : Lexeme) :
    (suffix e l).map (fun r => r.parse call) = Grammar.suffix (call .expression) e l := by
  cases l with
  | punct p =>
    cases p with
    | openParen =>
      simp only [suffix, Grammar.suffix, Option.map_some, parse_bind, parse_arguments,
        parse_value, Parser.bind_eq_andThen]
    | openBracket =>
      simp only [suffix, Grammar.suffix, Option.map_some, parse_bind, parse_nested,
        parse_require, parse_value, Parser.bind_eq_andThen]
    | dot =>
      simp only [suffix, Grammar.suffix, Option.map_some, parse_bind, parse_name, parse_value,
        Parser.bind_eq_andThen]
    | _ => rfl
  | _ => rfl

@[simp] theorem parse_suffixed :
    suffixed.parse call = Grammar.suffixed (call .expression) := by
  simp only [suffixed, Grammar.suffixed, parse_bind, parse_primary, parse_grow parse_suffix,
    Parser.bind_eq_andThen]

@[simp] theorem parse_operand :
    operand.parse call =
      Grammar.unsignedOr (fun op => call (.sign op)) (call .expression) := by
  funext ts
  cases ts with
  | nil => exact congrFun parse_suffixed _
  | cons l ts =>
    cases l with
    | punct p =>
      simp only [operand, parse_look, Grammar.unsignedOr]
      cases UnaryOp.ofPunct? p with
      | none => exact congrFun parse_suffixed _
      | some op => rfl
    | _ => exact congrFun parse_suffixed _

theorem parse_operation (left : Expr) (l : Lexeme) :
    (operation left l).map (fun r => r.parse call) =
      Grammar.operation (operand.parse call) left l := by
  cases l with
  | punct p =>
    simp only [operation, Grammar.operation, Option.map_map]
    rfl
  | _ => rfl

theorem parse_chain : chain.parse call = Grammar.chain (operand.parse call) := by
  simp only [chain, Grammar.chain, parse_bind, parse_grow parse_operation,
    Parser.bind_eq_andThen]

theorem parse_conditional :
    conditional.parse call = Grammar.conditional (operand.parse call) (call .expression) := by
  simp only [conditional, Grammar.conditional, parse_bind, parse_chain, parse_onPunct,
    parse_nested, parse_require, parse_value, Parser.bind_eq_andThen]

/-! ### Statements -/

@[simp] theorem parse_initializer :
    initializer.parse call = Grammar.initializer (call .expression) := by
  simp only [initializer, Grammar.initializer, parse_onPunct, parse_bind, parse_nested,
    parse_value, Parser.bind_eq_andThen]

@[simp] theorem parse_variableThrough (place : Place) :
    (variableThrough place).parse call =
      Grammar.variableThrough place (call .expression) := by
  simp only [variableThrough, Grammar.variableThrough, parse_bind, parse_specifier,
    parse_initializer, parse_require, parse_value, Parser.bind_eq_andThen]

@[simp] theorem parse_constant :
    constant.parse call = Grammar.constant (call .expression) := by
  simp only [constant, Grammar.constant, parse_bind, parse_qualifier, parse_variableThrough,
    parse_value, Parser.bind_eq_andThen]

theorem parse_adjusted (op : AdjustOp) :
    (adjusted op).parse call = Grammar.adjusted (call .expression) op := by
  simp only [adjusted, Grammar.adjusted, parse_bind, parse_suffixed, Parser.bind_eq_andThen]
  congr 1
  funext target
  split <;> rfl

theorem parse_actionOn (target : Expr) :
    (actionOn target).parse call = Grammar.actionOn (call .expression) target := by
  funext ts
  cases ts with
  | nil => rfl
  | cons l ts =>
    cases l with
    | punct p =>
      simp only [actionOn, parse_look, Grammar.actionOn]
      cases AssignOp.ofPunct? p with
      | some op =>
        simp only
        split
        · exact skip_andThen _ _ _
        · rfl
      | none =>
        cases AdjustOp.ofPunct? p with
        | some op =>
          simp only
          split <;> rfl
        | none => rfl
    | _ => rfl

theorem parse_plainAction :
    plainAction.parse call = Grammar.plainAction (call .expression) := by
  simp only [plainAction, Grammar.plainAction, parse_bind, parse_nested, parse_actionOn,
    Parser.bind_eq_andThen]

@[simp] theorem parse_action : action.parse call = Grammar.action (call .expression) := by
  funext ts
  cases ts with
  | nil => exact congrFun parse_plainAction _
  | cons l ts =>
    cases l with
    | punct p =>
      simp only [action, parse_look, Grammar.action]
      cases AdjustOp.ofPunct? p with
      | some op => simp only [parse_bind, parse_skip, skip_andThen, parse_adjusted]
      | none => exact congrFun parse_plainAction _
    | _ => exact congrFun parse_plainAction _

theorem parse_perform : perform.parse call = Grammar.perform (call .expression) := by
  simp only [perform, Grammar.perform, parse_bind, parse_action, parse_require, parse_value,
    Parser.bind_eq_andThen]

@[simp] theorem parse_recoveredStmt :
    recoveredStmt.parse call = Grammar.recoveredStmt (call .statement) := rfl

@[simp] theorem parse_block : block.parse call = Grammar.block (call .statement) := by
  simp only [block, Grammar.block, parse_bind, parse_manyUntil, parse_recoveredStmt,
    parse_require, parse_value, Parser.bind_eq_andThen]

theorem parse_branching :
    branching.parse call = Grammar.branching (call .expression) (call .statement) := by
  simp only [branching, Grammar.branching, parse_bind, parse_parenthesized, parse_nested,
    parse_onKeyword, parse_value, Parser.bind_eq_andThen]

theorem parse_whileLoop :
    whileLoop.parse call = Grammar.whileLoop (call .expression) (call .statement) := by
  simp only [whileLoop, Grammar.whileLoop, parse_bind, parse_parenthesized, parse_nested,
    parse_value, Parser.bind_eq_andThen]

theorem parse_forLoop :
    forLoop.parse call = Grammar.forLoop (call .expression) (call .statement) := by
  simp only [forLoop, Grammar.forLoop, parse_bind, parse_require, parse_variableThrough,
    parse_nested, parse_action, parse_value, Parser.bind_eq_andThen]

theorem parse_clauseBody : clauseBody.parse call = Grammar.clauseBody (call .statement) := by
  simp only [clauseBody, Grammar.clauseBody, parse_bind, parse_require, parse_manyUntil,
    parse_recoveredStmt, Parser.bind_eq_andThen]

theorem parse_clause :
    clause.parse call = Grammar.clause (call .expression) (call .statement) := by
  simp only [clause, Grammar.clause, parse_onKeyword, parse_bind, parse_nested,
    parse_clauseBody, parse_value, parse_fail, Parser.bind_eq_andThen]

theorem parse_switchOn :
    switchOn.parse call = Grammar.switchOn (call .expression) (call .statement) := by
  simp only [switchOn, Grammar.switchOn, parse_bind, parse_require, parse_nested,
    parse_manyUntil, parse_recovered, Extent.resume, parse_clause, parse_value,
    Parser.bind_eq_andThen]

theorem parse_returnValue :
    returnValue.parse call = Grammar.returnValue (call .expression) := by
  simp only [returnValue, Grammar.returnValue, parse_onPunct, parse_bind, parse_nested,
    parse_require, parse_value, Parser.bind_eq_andThen]

theorem parse_plainStmt : plainStmt.parse call = Grammar.plainStmt (call .expression) := by
  funext ts
  simp only [plainStmt, parse_look, Grammar.plainStmt]
  split
  · simp only [parse_bind, parse_variableThrough, parse_value]
  · exact congrFun parse_perform ts

theorem parse_keywordStmt (k : Keyword) :
    (keywordStmt k).map (fun r => r.parse call) =
      Grammar.keywordStmt (call .expression) (call .statement) k := by
  cases k with
  | ifThen => exact congrArg some parse_branching
  | whileLoop => exact congrArg some parse_whileLoop
  | forLoop => exact congrArg some parse_forLoop
  | switchOn => exact congrArg some parse_switchOn
  | returnValue => exact congrArg some parse_returnValue
  | breakOut =>
    simp only [keywordStmt, Grammar.keywordStmt, Option.map_some, parse_bind, parse_require,
      parse_value, Parser.bind_eq_andThen]
  | continueLoop =>
    simp only [keywordStmt, Grammar.keywordStmt, Option.map_some, parse_bind, parse_require,
      parse_value, Parser.bind_eq_andThen]
  | const =>
    simp only [keywordStmt, Grammar.keywordStmt, Option.map_some, parse_bind, parse_constant,
      parse_value, Parser.bind_eq_andThen]
  | _ => rfl

theorem parse_stmt :
    stmt.parse call = Grammar.statementOf (call .expression) (call .statement) := by
  have hplain : plainStmt.parse call = Grammar.plainStmt (call .expression) := parse_plainStmt
  funext ts
  cases ts with
  | nil => exact congrFun hplain _
  | cons l ts =>
    cases l with
    | punct p =>
      cases p with
      | openBrace =>
        simp only [stmt, parse_look, parse_bind, parse_block, parse_value, Grammar.statementOf]
      | _ => exact congrFun hplain _
    | word w =>
      simp only [stmt, parse_look, Grammar.statementOf]
      cases Keyword.ofText? w with
      | none => exact congrFun hplain _
      | some k =>
        simp only [Option.bind_some, ← parse_keywordStmt]
        cases keywordStmt k with
        | none => exact congrFun hplain _
        | some r => simp only [parse_bind, parse_skip, skip_andThen, Option.map_some]
    | _ => exact congrFun hplain _

/-! ### Declarations -/

theorem parse_shaderType : shaderType.parse call = Grammar.shaderType := by
  simp only [shaderType, Grammar.shaderType, parse_bind, parse_term, parse_require, parse_value,
    Parser.bind_eq_andThen]

theorem parse_renderMode : renderMode.parse call = Grammar.renderMode := by
  have hterms : renderModeTerms.parse call = Grammar.renderModeTerms := by
    have hterm : (separated renderModeTerm).parse call =
        Parser.separated Grammar.renderModeTerm := by
      simp only [renderModeTerm, Grammar.renderModeTerm, parse_separated, parse_term]
    funext ts
    cases ts with
    | nil => rfl
    | cons l ts =>
      cases l with
      | word w => exact congrFun hterm _
      | _ => rfl
  simp only [renderMode, Grammar.renderMode, parse_bind, hterms, parse_require, parse_value,
    Parser.bind_eq_andThen]

theorem parse_constantDecl :
    constantDecl.parse call = Grammar.constantDecl (call .expression) := by
  simp only [constantDecl, Grammar.constantDecl, parse_bind, parse_constant, parse_value,
    Parser.bind_eq_andThen]

theorem parse_varying : varying.parse call = Grammar.varying := by
  simp only [varying, Grammar.varying, parse_bind, parse_qualifier, parse_specifier,
    parse_require, parse_value, Parser.bind_eq_andThen]

theorem parse_groupUniforms : groupUniforms.parse call = Grammar.groupUniforms := by
  have hname : name?.parse call = Grammar.name? := by
    funext ts
    cases ts with
    | nil => rfl
    | cons l ts =>
      cases l with
      | word w => simp only [name?, parse_look, parse_bind, parse_name, parse_value, Grammar.name?]
      | _ => rfl
  simp only [groupUniforms, Grammar.groupUniforms, parse_bind, hname, parse_onPunct, parse_name,
    parse_require, parse_value, Parser.bind_eq_andThen]

theorem parse_hintParam : hintParam.parse call = Grammar.hintParam := by
  have hnumber : hintNumber.parse call = Grammar.hintNumber := by
    funext ts
    cases ts with
    | nil => rfl
    | cons l ts => cases l <;> rfl
  simp only [hintParam, Grammar.hintParam, parse_onPunct, parse_bind, hnumber, parse_value,
    Parser.bind_eq_andThen]

theorem parse_hint : hint.parse call = Grammar.hint := by
  have hparams : hintParams.parse call = Grammar.hintParams := by
    simp only [hintParams, Grammar.hintParams, parse_onPunct, parse_bind, parse_separated,
      parse_hintParam, parse_require, parse_value, Parser.bind_eq_andThen]
  simp only [hint, Grammar.hint, parse_bind, parse_term, parse_onPunct, hparams, parse_value,
    Parser.bind_eq_andThen]

theorem parse_uniform (scope : Option Scope) :
    (uniform scope).parse call = Grammar.uniform scope (call .expression) := by
  have hhints : hints.parse call = Grammar.hints := by
    simp only [hints, Grammar.hints, parse_onPunct, parse_separated, parse_hint, parse_value]
  simp only [uniform, Grammar.uniform, parse_bind, parse_qualifier, parse_specifier, hhints,
    parse_initializer, parse_require, parse_value, Parser.bind_eq_andThen]

theorem parse_scopedUniform (scope : Scope) :
    (scopedUniform scope).parse call = Grammar.scopedUniform scope (call .expression) := by
  simp only [scopedUniform, Grammar.scopedUniform, parse_onKeyword, parse_uniform, parse_fail]

theorem parse_members (n : Name) : (members n).parse call = Grammar.members n := by
  have hmember : member.parse call = Grammar.member := by
    simp only [member, Grammar.member, parse_bind, parse_specifier, parse_require, parse_value,
      Parser.bind_eq_andThen]
  funext ts
  simp only [members, parse_look, Grammar.members]
  split
  · rfl
  · simp only [parse_manyUntil, parse_recovered, Extent.resume, hmember]

theorem parse_struct : struct.parse call = Grammar.struct := by
  simp only [struct, Grammar.struct, parse_bind, parse_name, parse_require, parse_members,
    parse_value, Parser.bind_eq_andThen]

theorem parse_function : function.parse call = Grammar.function (call .statement) := by
  have hparameter : parameter.parse call = Grammar.parameter := by
    simp only [parameter, Grammar.parameter, parse_bind, parse_qualifier, parse_specifier,
      parse_value, Parser.bind_eq_andThen]
  have hparameters : parameters.parse call = Grammar.parameters := by
    simp only [parameters, Grammar.parameters, parse_onPunct, parse_bind, parse_separated,
      hparameter, parse_require, parse_value, Parser.bind_eq_andThen]
  simp only [function, Grammar.function, parse_bind, parse_typeRef, parse_name, parse_require,
    hparameters, parse_block, parse_value, Parser.bind_eq_andThen]

theorem parse_includes : includes.parse call = Grammar.includes := by
  have hpath : includePath.parse call = Grammar.includePath := by
    funext ts
    cases ts with
    | nil => rfl
    | cons l ts => cases l <;> rfl
  funext ts
  cases ts with
  | nil => rfl
  | cons l ts =>
    cases l with
    | word w =>
      simp only [includes, parse_look, Grammar.includes]
      split
      · simp only [parse_bind, parse_skip, skip_andThen, hpath]
      · rfl
    | _ => rfl

theorem parse_keywordDecl (k : Keyword) :
    (keywordDecl k).map (fun r => r.parse call) = Grammar.keywordDecl (call .expression) k := by
  cases k with
  | shaderType => exact congrArg some parse_shaderType
  | renderMode => exact congrArg some parse_renderMode
  | const => exact congrArg some parse_constantDecl
  | varying => exact congrArg some parse_varying
  | groupUniforms => exact congrArg some parse_groupUniforms
  | uniform => exact congrArg some (parse_uniform none)
  | globalScope => exact congrArg some (parse_scopedUniform .wide)
  | instanceScope => exact congrArg some (parse_scopedUniform .perInstance)
  | struct => exact congrArg some parse_struct
  | _ => rfl

theorem parse_declaration :
    declaration.parse call = Grammar.declarationOf (call .expression) (call .statement) := by
  funext ts
  cases ts with
  | nil => rfl
  | cons l ts =>
    cases l with
    | punct p =>
      cases p with
      | hash =>
        simp only [declaration, parse_look, parse_bind, parse_skip, skip_andThen, parse_includes,
          Grammar.declarationOf]
      | _ => rfl
    | word w =>
      simp only [declaration, parse_look, Grammar.declarationOf]
      cases Keyword.ofText? w with
      | none => exact congrFun parse_function _
      | some k =>
        simp only [Option.bind_some, ← parse_keywordDecl]
        cases keywordDecl k with
        | none => exact congrFun parse_function _
        | some r => simp only [parse_bind, parse_skip, skip_andThen, Option.map_some]
    | _ => rfl

end Routine

/-! ### Levels -/

namespace Production

variable (levels : Nat)

/-- What stands on one level is told over what stands on the next. -/
theorem parse_levels :
    Production.parse levels .expression = Grammar.expression levels ∧
      Routine.operand.parse (Production.parse levels) = Grammar.operand levels ∧
      Production.parse levels .statement = Grammar.statement levels := by
  induction levels with
  | zero =>
    exact ⟨Grammar.expression_zero.symm, Routine.parse_operand.trans Grammar.operand_zero.symm,
      Grammar.statement_zero.symm⟩
  | succ levels ih =>
    obtain ⟨hexpr, hoperand, hstmt⟩ := ih
    have hexpr' : Production.parse (levels + 1) .expression = Grammar.expression (levels + 1) := by
      refine Routine.parse_conditional.trans ?_
      rw [hexpr, hoperand, Grammar.expression_succ]
    refine ⟨hexpr', ?_, ?_⟩
    · have hsign : ∀ op, Production.parse (levels + 1) (.sign op) =
          Grammar.signed (Grammar.operand levels) op := by
        intro op
        rw [← hoperand]
        rfl
      rw [Routine.parse_operand, hexpr', Grammar.operand_succ]
      exact congrArg (Grammar.unsignedOr · _) (funext hsign)
    · refine Routine.parse_stmt.trans ?_
      rw [hexpr, hstmt, Grammar.statement_succ]

@[simp] theorem parse_expression :
    Production.parse levels .expression = Grammar.expression levels :=
  (parse_levels levels).1

@[simp] theorem parse_statement :
    Production.parse levels .statement = Grammar.statement levels :=
  (parse_levels levels).2.2

theorem parse_loneStmt {ts : List Lexeme} (h : ts ≠ []) :
    Routine.loneStmt.parse (Production.parse levels) ts =
      Grammar.recoveredStmt (Grammar.statement levels) ts := by
  have hsome : ts.isEmpty = false := by simpa using h
  simp only [Routine.loneStmt, Routine.parse_look, hsome, Bool.false_eq_true, if_false,
    Routine.parse_recoveredStmt, parse_statement]

theorem parse_declarations :
    Routine.declarations.parse (Production.parse levels) = Grammar.declarations levels := by
  simp only [Routine.declarations, Routine.recoveredDecl, Routine.parse_manyUntil,
    Routine.parse_recovered, Routine.parse_declaration, parse_expression, parse_statement]
  rfl

end Production

end ShaderSyntax
