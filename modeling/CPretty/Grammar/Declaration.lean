import CPretty.Grammar.Declarator

namespace CPretty.Grammar

open Parse

variable (deep : Nested)

def bitfield (decl : Option Node) (colon : Token) : Parse Node := do
  let width ← conditional deep
  return Node.between (Node.spanOr decl colon.span) width.span (.bitfield decl width)

/-- A declarator of a member, a bit-field or both. -/
def memberDeclarator : Parse Node := do
  match ← eat? .colon with
  | some colon => bitfield deep none colon
  | none =>
    let decl ← deep.declarator
    match ← eat? .colon with
    | some colon => bitfield deep (some decl) colon
    | none => return decl

def member : Parse Node := do
  let quals ← specQuals deep
  let decls ← if ← check .semicolon then pure [] else commaList (memberDeclarator deep)
  let semi ← expect .semicolon
  return Node.between quals.span semi.span (.member quals decls)

/-- A `struct` or `union` specifier, at its keyword: a name, a body or both. -/
def structSpecifier : Parse Node := do
  let keyword ← advance
  let name ← eat? .ident
  if ← eat .lBrace then
    let members ← manyUntil .rBrace (member deep)
    let close ← expect .rBrace
    return Node.between keyword.span close.span
      (.struct keyword.text (name.map Token.text) (some members))
  else
    match name with
    | some name =>
      return Node.between keyword.span name.span (.struct keyword.text (some name.text) none)
    | none => fail [.token .ident, .token .lBrace]

/-- An assignment expression, or initializers in braces. -/
def initializer : Parse Node := do
  match ← eat? .lBrace with
  | none => assignment deep
  | some opening =>
    let items ← bracedItems deep.initializer
    let close ← expect .rBrace
    return Node.between opening.span close.span (.initList items)

def initDeclarator : Parse Node := do
  let decl ← deep.declarator
  let init ← if ← eat .eq then some <$> deep.initializer else pure none
  return Node.between decl.span (Node.spanOr init decl.span) (.initDecl decl init)

def staticAssert : Parse Node := do
  let keyword ← advance
  let _ ← expect .lParen
  let cond ← conditional deep
  let _ ← expect .comma
  let (first, more) ← strings
  let _ ← expect .rParen
  let semi ← expect .semicolon
  return Node.between keyword.span semi.span
    (.staticAssert cond (Token.texts (first :: more)))

def declaration : Parse Node := do
  if ← check .kwStaticAssert then staticAssert deep
  else
    let specs ← declSpecs deep
    let inits ← if ← check .semicolon then pure [] else commaList (initDeclarator deep)
    match ← eat? .semicolon with
    | some semi => return Node.between specs.span semi.span (.decl specs (Node.nonempty? inits))
    | none => fail [.token .comma, .token .semicolon]

end CPretty.Grammar
