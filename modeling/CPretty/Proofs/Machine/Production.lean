import CPretty.Proofs.Machine.Program

namespace CPretty.Machine

open Program hiding pure bind
open Grammar

def expressionBody : Program Node := do
  return Node.collect .exprs (← commaList (call .assignment))

/-- The assignment of a value to targets, of which the last one is the innermost. -/
def assignAll (targets : List (Node × Token)) (value : Node) : Node :=
  targets.foldr (fun (target, op) value => Node.assign target op value) value

/-- Adds a target of an assignment, or ends with the value that is assigned. -/
def assignmentStep (targets : List (Node × Token)) :
    Program (List (Node × Token) ⊕ Node) := do
  let value ← call .conditional
  if (← peekKind).is .assignment then
    if isTarget value then
      let op ← advance
      return .inl (targets ++ [(value, op)])
    else fail [.production "unary expression before assignment operator"]
  else return .inr (assignAll targets value)

def assignmentBody : Program Node := loop assignmentStep []

def conditionalBody : Program Node := do
  let cond ← call (.binary ⟨0, by decide⟩)
  if ← eat .question then
    let yes ← nested (call .expression)
    let _ ← expect .colon
    let no ← nested (call .conditional)
    return Node.between cond.span no.span (.ternary cond yes no)
  else return cond

def binaryBody (level : Fin ladder.length) : Program Node := do
  let first ← call (.operand level)
  first |> iterate fun lhs => do
    if (ladder.get level).accepts (← peekKind) then
      let op ← advance
      return some (Node.binary lhs op (← call (.operand level)))
    else return none

def operandBody (level : Fin ladder.length) : Program Node :=
  if tighter : level + 1 < ladder.length then call (.binary ⟨level + 1, tighter⟩) else call .cast

def castBody : Program Node := do
  let casts ← many do
    if (← check .lParen) && (← startsTypeName 1 false) then
      let opening ← advance
      let type ← call .typeName
      let _ ← expect .rParen
      return some (opening, type)
    else return none
  let body ← call .unary
  return casts.foldr (fun (opening, type) inner => Node.cast opening type inner) body

/-- Adds an operator before an operand, or ends with the size of a type, which is an operand by
itself, or before some other operand. -/
def prefixStep (ops : List Token) : Program (List Token ⊕ List Token × Option Node) := do
  let kind ← peekKind
  if kind.is .count then
    let op ← advance
    return .inl (ops ++ [op])
  else if kind == .kwSizeof then
    if (← kindAt 1) == .lParen && (← startsTypeName 2 true) then
      let keyword ← advance
      let _ ← advance
      let name ← call .typeName
      let close ← expect .rParen
      return .inr (ops, some (Node.between keyword.span close.span
        (.unary keyword.text name true)))
    else
      let op ← advance
      return .inl (ops ++ [op])
  else return .inr (ops, none)

/-- An operator such as `-` or `*` with its operand, or a primary expression with what follows
it. -/
def plainUnary : Program Node := do
  if (← peekKind).is .unary then
    let op ← advance
    return Node.prefixed op (← call .cast)
  else call .postfixed

def unaryBody : Program Node := do
  let (ops, size) ← loop prefixStep []
  match size with
  | some body => return ops.foldr Node.prefixed body
  | none => return ops.foldr Node.prefixed (← plainUnary)

def postfixedBody : Program Node := do
  let first ← call .primary
  first |> iterate fun recv => do
    match ← peekKind with
    | .lBracket =>
      let _ ← advance
      let place ← call .expression
      let close ← expect .rBracket
      return some (Node.between recv.span close.span (.index recv place))
    | .lParen =>
      let _ ← advance
      let args ← call .arguments
      let close ← expect .rParen
      return some (Node.between recv.span close.span (.call recv (Node.nonempty? args)))
    | .dot | .arrow =>
      let op ← advance
      let name ← expect .ident
      return some (Node.between recv.span name.span (.field recv op.text name.text))
    | .plusPlus | .minusMinus =>
      let op ← advance
      return some (Node.between recv.span op.span (.postUnary recv op.text))
    | _ => return none

def argumentsBody : Program (List Node) := do
  if ← check .rParen then return []
  else
    let args ← commaList (call .assignment)
    if ← check .rParen then return args else fail [.token .comma, .token .rParen]

def primaryBody : Program Node := do
  match ← peekKind with
  | .ident => return (← advance).identNode
  | .constant =>
    let t ← advance
    return t.leaf (.const t.text)
  | .stringLiteral =>
    let first ← advance
    let more ← many (eat? .stringLiteral)
    return Node.between first.span (more.getLastD first).span
      (.const (Token.texts (first :: more)))
  | .lParen =>
    let opening ← advance
    let inner ← call .expression
    let close ← expect .rParen
    return Node.between opening.span close.span (.parens inner)
  | _ => fail [.production "expression"]

/-- Adds a specifier, and tells whether a type has been given by then, or ends before what is
none. -/
def specifierStep (given : List Node × Bool) : Program (List Node × Bool ⊕ List Node) := do
  let (specs, seenType) := given
  let kind ← peekKind
  if kind == .kwAtomic && (← kindAt 1) == .lParen then
    return .inl (specs ++ [← call .atomicSpecifier], true)
  else if kind.is .storageClass || kind.is .typeQualifier || kind.is .functionSpecifier then
    return .inl (specs ++ [(← advance).keywordNode], seenType)
  else if kind.is .typeKeyword then return .inl (specs ++ [(← advance).keywordNode], true)
  else if kind.is .structOrUnion then return .inl (specs ++ [← call .structSpecifier], true)
  else if kind == .kwEnum then return .inl (specs ++ [← call .enumSpecifier], true)
  else if kind == .ident && !seenType then
    return .inl (specs ++ [(← advance).identNode], true)
  else return .inr specs

/-- One or more specifiers, with at most one name of a type that is no keyword. -/
def specifiersBody : Program (List Node) := do
  let specs ← loop specifierStep ([], false)
  if specs.isEmpty then fail [.production "declaration specifiers"] else return specs

def atomicBody : Program Node := do
  let keyword ← advance
  let _ ← expect .lParen
  let name ← call .typeName
  let close ← expect .rParen
  return Node.between keyword.span close.span (.atomic name)

def structBody : Program Node := do
  let keyword ← advance
  let name ← eat? .ident
  if ← eat .lBrace then
    let members ← manyUntil .rBrace (call .member)
    let close ← expect .rBrace
    return Node.between keyword.span close.span
      (.struct keyword.text (name.map Token.text) (some members))
  else
    match name with
    | some name =>
      return Node.between keyword.span name.span (.struct keyword.text (some name.text) none)
    | none => fail [.token .ident, .token .lBrace]

/-- A declarator of a member, a bit-field or both. -/
def memberDeclarator : Program Node := do
  let decl ← if ← check .colon then pure none else some <$> call .declarator
  match decl, ← eat? .colon with
  | decl, some colon =>
    let width ← call .conditional
    return Node.between (Node.spanOr decl colon.span) width.span (.bitfield decl width)
  | some decl, none => return decl
  | none, none => fail [.token .colon]

def memberBody : Program Node := do
  let quals ← Node.collect .specQuals <$> call .specifiers
  let decls ← if ← check .semicolon then pure [] else commaList memberDeclarator
  let semi ← expect .semicolon
  return Node.between quals.span semi.span (.member quals decls)

def enumeratorItem : Program Node := do
  let name ← expect .ident
  let value ← if ← eat .eq then some <$> call .conditional else pure none
  return Node.between name.span (Node.spanOr value name.span) (.enumerator name.text value)

def enumBody : Program Node := do
  let keyword ← advance
  let name ← eat? .ident
  if ← eat .lBrace then
    let items ← bracedItems enumeratorItem
    let close ← expect .rBrace
    return Node.between keyword.span close.span (.enum (name.map Token.text) (some items))
  else
    match name with
    | some name => return Node.between keyword.span name.span (.enum (some name.text) none)
    | none => fail [.token .ident, .token .lBrace]

def typeNameBody : Program Node := do
  let quals ← Node.collect .specQuals <$> call .specifiers
  let kind ← peekKind
  if kind == .star || kind == .lParen || kind == .lBracket then
    let decl ← call .abstractDeclarator
    return Node.between quals.span decl.span (.typeName quals decl)
  else return quals

def declaratorBody : Program Node := do
  let levels ← call .pointer
  let direct ← call .directDeclarator
  return levels.foldr (fun (star, quals) inner => Node.pointer star quals (some inner)) direct

def pointerBody : Program (List (Token × List Node)) :=
  many do
    match ← eat? .star with
    | none => return none
    | some star =>
      let quals ← many do
        if (← peekKind).is .typeQualifier then return some (← advance).keywordNode else return none
      return some (star, quals)

/-- The innermost part of a declarator: its name, or a declarator in parentheses. -/
def directBase : Program Node := do
  match ← peekKind with
  | .ident => return (← advance).identNode
  | .lParen =>
    let opening ← advance
    let inner ← call .declarator
    let close ← expect .rParen
    return Node.between opening.span close.span (.nested inner)
  | _ => fail [.token .ident, .token .lParen]

def directBody : Program Node := do
  let base ← directBase
  return (← call (.suffixes (some base))).getD base

/-- Adds an array or parameter suffix to a declarator, if there is one. -/
def suffixStep (decl : Option Node) : Program (Option (Option Node)) := do
  match ← peekKind with
  | .lBracket =>
    let opening ← advance
    let size ← if ← check .rBracket then pure none else some <$> call .assignment
    let close ← expect .rBracket
    return some (some (Node.between (Node.spanOr decl opening.span) close.span (.array decl size)))
  | .lParen =>
    let opening ← advance
    let params ← call .parameterList
    let close ← expect .rParen
    return some (some (Node.between (Node.spanOr decl opening.span) close.span
      (.function decl params)))
  | _ => return none

def suffixesBody (base : Option Node) : Program (Option Node) := iterate suffixStep base

/-- Adds a parameter, or ends behind an ellipsis or a parameter that no comma follows. -/
def parameterStep (params : List Node) : Program (List Node ⊕ List Node) := do
  let p ← call .parameter
  if ← eat .comma then
    match ← eat? .ellipsis with
    | some dots => return .inr (params ++ [p, dots.leaf .ellipsis])
    | none => return .inl (params ++ [p])
  else return .inr (params ++ [p])

def parameterListBody : Program (Option (List Node)) := do
  if ← check .rParen then return none
  else if ← isIdentifierList then
    return some (← commaList (Token.identNode <$> expect .ident))
  else
    let params ← loop parameterStep []
    if ← check .rParen then return some params else fail [.token .comma, .token .rParen]

def parameterBody : Program Node := do
  let specs ← Node.collect .declSpecs <$> call .specifiers
  let decl ← firstOf [
    do
      let decl ← call .declarator
      call .parameterEnd
      return some decl,
    do
      let decl ← call .abstractDeclarator
      call .parameterEnd
      return some decl,
    do
      call .parameterEnd
      return none]
  return Node.between specs.span (Node.spanOr decl specs.span) (.param specs decl)

def parameterEndBody : Program Unit := do
  if (← check .comma) || (← check .rParen) then return ()
  else fail [.token .comma, .token .rParen]

def abstractBody : Program Node := do
  let levels ← call .pointer
  let direct ← call .directAbstractDeclarator
  let whole := levels.foldr (fun (star, quals) inner => some (Node.pointer star quals inner)) direct
  match whole with
  | some decl => return decl
  | none => fail [.production "abstract declarator"]

/-- The innermost part of a declarator without a name, if it is in parentheses. -/
def abstractBase : Program (Option Node) := do
  if (← check .lParen) && ((← kindAt 1) == .star || (← kindAt 1) == .lBracket) then
    let opening ← advance
    let inner ← call .abstractDeclarator
    let close ← expect .rParen
    return some (Node.between opening.span close.span (.nested inner))
  else return none

def directAbstractBody : Program (Option Node) := do
  let base ← abstractBase
  call (.suffixes base)

def initDeclaratorBody : Program Node := do
  let decl ← call .declarator
  let init ← if ← eat .eq then some <$> call .initializer else pure none
  return Node.between decl.span (Node.spanOr init decl.span) (.initDecl decl init)

def initializerBody : Program Node := do
  match ← eat? .lBrace with
  | none => call .assignment
  | some opening =>
    let items ← bracedItems (call .initializer)
    let close ← expect .rBrace
    return Node.between opening.span close.span (.initList items)

def staticAssertBody : Program Node := do
  let keyword ← advance
  let _ ← expect .lParen
  let cond ← call .conditional
  let _ ← expect .comma
  let first ← expect .stringLiteral
  let more ← many (eat? .stringLiteral)
  let _ ← expect .rParen
  let semi ← expect .semicolon
  return Node.between keyword.span semi.span (.staticAssert cond (Token.texts (first :: more)))

def declarationBody : Program Node := do
  if ← check .kwStaticAssert then call .staticAssert
  else
    let specs ← Node.collect .declSpecs <$> call .specifiers
    let inits ← if ← check .semicolon then pure [] else commaList (call .initDeclarator)
    match ← eat? .semicolon with
    | some semi => return Node.between specs.span semi.span (.decl specs (Node.nonempty? inits))
    | none => fail [.token .comma, .token .semicolon]

def conditionBody : Program Node := do
  let _ ← expect .lParen
  let e ← call .expression
  let _ ← expect .rParen
  return e

def expressionStatementBody : Program Node := do
  match ← eat? .semicolon with
  | some semi => return Node.between semi.span semi.span (.exprStmt none)
  | none =>
    let e ← call .expression
    let semi ← expect .semicolon
    return Node.between e.span semi.span (.exprStmt (some e))

/-- A declaration where one starts and none of its tokens is amiss, or else `otherwise`. -/
def declarationOr (otherwise : Program Node) : Program Node := do
  if ← startsDeclaration then either (call .declaration) otherwise else otherwise

def compoundBody : Program Node := do
  let opening ← expect .lBrace
  let items ← manyUntil .rBrace (call .blockItem)
  let close ← expect .rBrace
  return Node.between opening.span close.span (.compound (Node.nonempty? items))

/-- An arm of an `if` ladder with what its `else` leads to. -/
def ifArm (arm : Token × Node × Node) (no : Option Node) : Node :=
  let (keyword, cond, yes) := arm
  Node.between keyword.span (Node.spanOr no yes.span) (.ifStmt cond yes no)

/-- Adds an arm after `else if`, or ends with the statement after another `else`, or where none
follows. -/
def elseStep (arms : List (Token × Node × Node)) :
    Program (List (Token × Node × Node) ⊕ List (Token × Node × Node) × Option Node) := do
  if ← eat .kwElse then
    if ← check .kwIf then
      let keyword ← advance
      let cond ← call .condition
      let yes ← call .statement
      return .inl (arms ++ [(keyword, cond, yes)])
    else return .inr (arms, some (← call .statement))
  else return .inr (arms, none)

def ifStatementBody : Program Node := do
  let keyword ← advance
  let cond ← call .condition
  let yes ← call .statement
  let (arms, no) ← loop elseStep []
  return ifArm (keyword, cond, yes) (arms.foldr (fun arm no => some (ifArm arm no)) no)

def forStatementBody : Program Node := do
  let keyword ← advance
  let _ ← expect .lParen
  let init ← declarationOr (call .expressionStatement)
  let cond ← call .expressionStatement
  let step ← if ← check .rParen then pure none else some <$> call .expression
  let _ ← expect .rParen
  let body ← call .statement
  return Node.between keyword.span body.span (.forStmt init cond step body)

def jump (shape : Shape Node) : Program Node := do
  let keyword ← advance
  let semi ← expect .semicolon
  return Node.between keyword.span semi.span shape

def labelled : Program Node := do
  let name ← advance
  let _ ← advance
  let body ← call .statement
  return Node.between name.span body.span (.labelStmt name.text body)

def plainStatementBody : Program Node := do
  match ← peekKind with
  | .ident => if (← kindAt 1) == .colon then labelled else call .expressionStatement
  | .kwCase =>
    let keyword ← advance
    let value ← call .conditional
    let _ ← expect .colon
    let body ← call .statement
    return Node.between keyword.span body.span (.caseStmt value body)
  | .kwDefault =>
    let keyword ← advance
    let _ ← expect .colon
    let body ← call .statement
    return Node.between keyword.span body.span (.defaultStmt body)
  | .lBrace => call .compound
  | .kwIf => call .ifStatement
  | .kwSwitch =>
    let keyword ← advance
    let value ← call .condition
    let body ← call .statement
    return Node.between keyword.span body.span (.switchStmt value body)
  | .kwWhile =>
    let keyword ← advance
    let cond ← call .condition
    let body ← call .statement
    return Node.between keyword.span body.span (.whileStmt cond body)
  | .kwDo =>
    let keyword ← advance
    let body ← call .statement
    let _ ← expect .kwWhile
    let cond ← call .condition
    let semi ← expect .semicolon
    return Node.between keyword.span semi.span (.doStmt body cond)
  | .kwFor => call .forStatement
  | .kwGoto =>
    let keyword ← advance
    let label ← expect .ident
    let semi ← expect .semicolon
    return Node.between keyword.span semi.span (.gotoStmt label.text)
  | .kwContinue => jump .continueStmt
  | .kwBreak => jump .breakStmt
  | .kwReturn =>
    let keyword ← advance
    let value ← if ← check .semicolon then pure none else some <$> call .expression
    let semi ← expect .semicolon
    return Node.between keyword.span semi.span (.returnStmt value)
  | _ => call .expressionStatement

/-- A function definition after its specifiers. -/
def functionRest (specs : Option Node) : Program Node := do
  let decl ← call .declarator
  if decl.declaresFunction then
    let decls ← many do
      if ← check .lBrace then return none else return some (← call .declaration)
    let body ← call .compound
    let (name, params) := decl.detachParams?.getD (decl, none)
    return Node.between (Node.spanOr specs name.span) body.span
      (.func specs name params decls body)
  else fail [.token .lParen]

def functionBody (withSpecifiers : Bool) : Program Node := do
  if withSpecifiers then functionRest (some (← Node.collect .declSpecs <$> call .specifiers))
  else functionRest none

def externalBody : Program Node :=
  firstOf [call (.functionDefinition true), call .declaration, call (.functionDefinition false)]

def unitBody : Program Node := do
  let decls ← many do
    if ← atEnd then return none else return some (← call .externalDeclaration)
  let finish ← peek
  return ⟨Node.spanOf decls finish.span, .root decls⟩

/-- The program of a production. -/
def Production.body : {α : Type} → Production α → Program α
  | _, .translationUnit => unitBody
  | _, .externalDeclaration => externalBody
  | _, .functionDefinition withSpecifiers => functionBody withSpecifiers
  | _, .declaration => declarationBody
  | _, .staticAssert => staticAssertBody
  | _, .specifiers => specifiersBody
  | _, .atomicSpecifier => atomicBody
  | _, .structSpecifier => nested structBody
  | _, .member => memberBody
  | _, .enumSpecifier => enumBody
  | _, .initDeclarator => initDeclaratorBody
  | _, .initializer => nested initializerBody
  | _, .declarator => nested declaratorBody
  | _, .pointer => pointerBody
  | _, .directDeclarator => directBody
  | _, .suffixes base => suffixesBody base
  | _, .parameterList => parameterListBody
  | _, .parameter => parameterBody
  | _, .parameterEnd => parameterEndBody
  | _, .abstractDeclarator => nested abstractBody
  | _, .directAbstractDeclarator => directAbstractBody
  | _, .typeName => typeNameBody
  | _, .statement => nested (call .statementBody)
  | _, .statementBody => plainStatementBody
  | _, .ifStatement => ifStatementBody
  | _, .forStatement => forStatementBody
  | _, .condition => conditionBody
  | _, .expressionStatement => expressionStatementBody
  | _, .compound => compoundBody
  | _, .blockItem => declarationOr (call .statement)
  | _, .expression => expressionBody
  | _, .assignment => assignmentBody
  | _, .conditional => conditionalBody
  | _, .binary level => binaryBody level
  | _, .operand level => operandBody level
  | _, .cast => nested castBody
  | _, .unary => unaryBody
  | _, .postfixed => postfixedBody
  | _, .arguments => argumentsBody
  | _, .primary => primaryBody

end CPretty.Machine
