import CPretty.Grammar.Specifier

namespace CPretty.Grammar

open Parse

variable (deep : Nested)

def qualifier? : Parse (Option Node) := do
  if (← peekKind).is .typeQualifier then return some (← advance).keywordNode else return none

def pointerLevel? : Parse (Option (Token × List Node)) := do
  match ← eat? .star with
  | none => return none
  | some star => return some (star, ← many qualifier?)

/-- A parameter ends at a comma or at the closing parenthesis. -/
def parameterEnd : Parse Unit := do
  if (← check .comma) || (← check .rParen) then return ()
  else fail [.token .comma, .token .rParen]

/-- The declarator of a parameter: with a name, without one, or none at all. -/
def parameterDeclarator : Parse (Option Node) :=
  let named := do
    let decl ← deep.declarator
    parameterEnd
    return some decl
  let unnamed := do
    let decl ← deep.abstractDeclarator
    parameterEnd
    return some decl
  let absent := do
    parameterEnd
    return none
  either (either named unnamed) absent

def parameter : Parse Node := do
  let specs ← declSpecs deep
  let decl ← parameterDeclarator deep
  return Node.between specs.span (Node.spanOr decl specs.span) (.param specs decl)

/-- At most `n` parameters; an ellipsis after a comma ends the list. -/
def parametersUpTo : Nat → Parse (List Node)
  | 0 => return []
  | n + 1 => do
    let p ← parameter deep
    if ← eat .comma then
      match ← eat? .ellipsis with
      | some dots => return [p, dots.leaf .ellipsis]
      | none => return p :: (← parametersUpTo n)
    else return [p]

/-- A parameter list after its opening parenthesis: nothing, names alone, or typed parameters. -/
def parameterList : Parse (Option (List Node)) := do
  if ← check .rParen then return none
  else if Lookahead.isIdentifierList (← ahead) then
    return some (← commaList (Token.identNode <$> expect .ident))
  else
    let params ← parametersUpTo deep ((← ahead).length + 1)
    if ← check .rParen then return some params else fail [.token .comma, .token .rParen]

/-- An array or parameter suffix on a declarator, if there is one. -/
def suffix? (decl : Option Node) : Parse (Option Node) := do
  match ← peekKind with
  | .lBracket =>
    let opening ← advance
    let size ← if ← check .rBracket then pure none else some <$> assignment deep
    let close ← expect .rBracket
    return some (Node.between (Node.spanOr decl opening.span) close.span (.array decl size))
  | .lParen =>
    let opening ← advance
    let params ← parameterList deep
    let close ← expect .rParen
    return some (Node.between (Node.spanOr decl opening.span) close.span (.function decl params))
  | _ => return none

/-- The innermost part of a declarator: its name, or a declarator in parentheses. -/
def declaratorBase : Parse Node := do
  match ← peekKind with
  | .ident => return (← advance).identNode
  | .lParen =>
    let opening ← advance
    let inner ← deep.declarator
    let close ← expect .rParen
    return Node.between opening.span close.span (.nested inner)
  | _ => fail [.token .ident, .token .lParen]

/-- A declarator with a name. The first `*` is the outermost node. -/
def declarator : Parse Node := do
  let levels ← many pointerLevel?
  let base ← declaratorBase deep
  let direct ← iterate (fun decl => suffix? deep (some decl)) base
  return levels.foldr (fun (star, quals) inner => Node.pointer star quals (some inner)) direct

/-- The innermost part of a declarator without a name, if it is in parentheses. -/
def abstractBase : Parse (Option Node) := do
  if Lookahead.startsNestedAbstract (← ahead) then
    let opening ← advance
    let inner ← deep.abstractDeclarator
    let close ← expect .rParen
    return some (Node.between opening.span close.span (.nested inner))
  else return none

/-- A declarator without a name, which has at least one pointer, suffix or parenthesis. -/
def abstractDeclarator : Parse Node := do
  let levels ← many pointerLevel?
  let base ← abstractBase deep
  let direct ← iterate (fun decl => return (← suffix? deep decl).map some) base
  let whole := levels.foldr (fun (star, quals) inner => some (Node.pointer star quals inner)) direct
  match whole with
  | some decl => return decl
  | none => fail [.production "abstract declarator"]

end CPretty.Grammar
