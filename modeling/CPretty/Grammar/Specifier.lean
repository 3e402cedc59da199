import CPretty.Grammar.Expression
import CPretty.Grammar.Lookahead

namespace CPretty.Grammar

open Parse

variable (deep : Nested)

def enumerator : Parse Node := do
  let name ← expect .ident
  let value ← if ← eat .eq then some <$> conditional deep else pure none
  return Node.between name.span (Node.spanOr value name.span) (.enumerator name.text value)

/-- An `enum` specifier, at its keyword: a name, a body or both. -/
def enumSpecifier : Parse Node := do
  let keyword ← advance
  let name ← eat? .ident
  if ← eat .lBrace then
    let items ← bracedItems (enumerator deep)
    let close ← expect .rBrace
    return Node.between keyword.span close.span (.enum (name.map Token.text) (some items))
  else
    match name with
    | some name => return Node.between keyword.span name.span (.enum (some name.text) none)
    | none => fail [.token .ident, .token .lBrace]

def atomicSpecifier (typeName : Parse Node) : Parse Node := do
  let keyword ← advance
  let _ ← expect .lParen
  let name ← typeName
  let close ← expect .rParen
  return Node.between keyword.span close.span (.atomic name)

/-- One specifier, if there is one, and whether a type has been given by then. An identifier is read
as a type name as long as no other type was given before it. -/
def specifier? (typeName : Parse Node) (seenType : Bool) : Parse (Option (Node × Bool)) := do
  let kind ← peekKind
  if kind == .kwAtomic && (← ahead)[1]?.any (·.kind == .lParen) then
    return some (← atomicSpecifier typeName, true)
  else if kind.is .storageClass || kind.is .typeQualifier || kind.is .functionSpecifier then
    return some ((← advance).keywordNode, seenType)
  else if kind.is .typeKeyword then return some ((← advance).keywordNode, true)
  else if kind.is .structOrUnion then return some (← deep.struct, true)
  else if kind == .kwEnum then return some (← enumSpecifier deep, true)
  else if kind == .ident && !seenType then return some ((← advance).identNode, true)
  else return none

/-- The specifiers as one node; there has to be at least one. -/
def specifierNode (wrap : List Node → Shape Node) (specs : List Node) : Parse Node :=
  if specs.isEmpty then fail [.production "declaration specifiers"]
  else return Node.collect wrap specs

/-- The type named by specifiers and the declarator without a name that may follow them. -/
def typeNameOf (specs : List Node) : Parse Node := do
  let quals ← specifierNode .specQuals specs
  let kind ← peekKind
  if kind == .star || kind == .lParen || kind == .lBracket then
    let decl ← deep.abstractDeclarator
    return Node.between quals.span decl.span (.typeName quals decl)
  else return quals

/-- At most `n` specifiers; the same bound holds for those inside an atomic type specifier. -/
def specifiersUpTo : Nat → (seenType : Bool) → Parse (List Node)
  | 0, _ => return []
  | n + 1, seenType => do
    let typeName := do typeNameOf deep (← specifiersUpTo n false)
    match ← specifier? deep typeName seenType with
    | none => return []
    | some (spec, seenType) => return spec :: (← specifiersUpTo n seenType)

def specifierList : Parse (List Node) := do
  specifiersUpTo deep ((← ahead).length + 1) false

/-- One or more specifiers of a declaration or a parameter. -/
def declSpecs : Parse Node := do
  specifierNode .declSpecs (← specifierList deep)

def specQuals : Parse Node := do
  specifierNode .specQuals (← specifierList deep)

def typeName : Parse Node := do
  typeNameOf deep (← specifierList deep)

end CPretty.Grammar
