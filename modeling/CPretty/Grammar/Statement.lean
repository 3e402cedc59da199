import CPretty.Grammar.Declaration

namespace CPretty.Grammar

open Parse

variable (deep : Nested)

def expressionStatement : Parse Node := do
  let expr ← if ← check .semicolon then pure none else some <$> expression deep
  let semi ← expect .semicolon
  return Node.between (Node.spanOr expr semi.span) semi.span (.exprStmt expr)

/-- A declaration or, where the tokens do not look like one or it fails, `otherwise`. -/
def declarationOr (otherwise : Parse Node) : Parse Node := do
  if Lookahead.startsDeclaration (← ahead) then either (declaration deep) otherwise
  else otherwise

def compound : Parse Node := do
  let opening ← expect .lBrace
  let items ← manyUntil .rBrace (declarationOr deep deep.statement)
  let close ← expect .rBrace
  return Node.between opening.span close.span (.compound (Node.nonempty? items))

/-- An `if` statement, at its keyword, with at most `n` further arms after `else if`. The arms of
such a ladder stand at one level of nesting. -/
def ifStatementUpTo : Nat → Parse Node
  | 0 => deep.statement
  | n + 1 => do
    let keyword ← advance
    let cond ← condition deep
    let yes ← deep.statement
    let no ←
      if ← eat .kwElse then
        if ← check .kwIf then some <$> ifStatementUpTo n else some <$> deep.statement
      else pure none
    return Node.between keyword.span (Node.spanOr no yes.span) (.ifStmt cond yes no)

def forStatement : Parse Node := do
  let keyword ← advance
  let _ ← expect .lParen
  let init ← declarationOr deep (expressionStatement deep)
  let cond ← expressionStatement deep
  let step ← if ← check .rParen then pure none else some <$> expression deep
  let _ ← expect .rParen
  let body ← deep.statement
  return Node.between keyword.span body.span (.forStmt init cond step body)

def jump (shape : Shape Node) : Parse Node := do
  let keyword ← advance
  let semi ← expect .semicolon
  return Node.between keyword.span semi.span shape

def labelled : Parse Node := do
  let name ← advance
  let _ ← expect .colon
  let body ← deep.statement
  return Node.between name.span body.span (.labelStmt name.text body)

def statement : Parse Node := do
  match ← peekKind with
  | .ident =>
    if (← ahead)[1]?.any (·.kind == .colon) then labelled deep else expressionStatement deep
  | .kwCase =>
    let keyword ← advance
    let value ← conditional deep
    let _ ← expect .colon
    let body ← deep.statement
    return Node.between keyword.span body.span (.caseStmt value body)
  | .kwDefault =>
    let keyword ← advance
    let _ ← expect .colon
    let body ← deep.statement
    return Node.between keyword.span body.span (.defaultStmt body)
  | .lBrace => compound deep
  | .kwIf => ifStatementUpTo deep ((← ahead).length + 1)
  | .kwSwitch =>
    let keyword ← advance
    let value ← condition deep
    let body ← deep.statement
    return Node.between keyword.span body.span (.switchStmt value body)
  | .kwWhile =>
    let keyword ← advance
    let cond ← condition deep
    let body ← deep.statement
    return Node.between keyword.span body.span (.whileStmt cond body)
  | .kwDo =>
    let keyword ← advance
    let body ← deep.statement
    let _ ← expect .kwWhile
    let cond ← condition deep
    let semi ← expect .semicolon
    return Node.between keyword.span semi.span (.doStmt body cond)
  | .kwFor => forStatement deep
  | .kwGoto =>
    let keyword ← advance
    let label ← expect .ident
    let semi ← expect .semicolon
    return Node.between keyword.span semi.span (.gotoStmt label.text)
  | .kwContinue => jump .continueStmt
  | .kwBreak => jump .breakStmt
  | .kwReturn =>
    let keyword ← advance
    let value ← if ← check .semicolon then pure none else some <$> expression deep
    let semi ← expect .semicolon
    return Node.between keyword.span semi.span (.returnStmt value)
  | _ => expressionStatement deep

end CPretty.Grammar
