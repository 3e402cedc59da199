import CPretty.Grammar.Specifier

namespace CPretty.Grammar

open Parse

variable (deep : Nested)

/-- A name, a constant, adjacent string literals or an expression in parentheses. -/
def primary : Parse Node := do
  match ← peekKind with
  | .ident => return (← advance).identNode
  | .constant =>
    let t ← advance
    return t.leaf (.const t.text)
  | .stringLiteral =>
    let (first, more) ← strings
    return Node.between first.span (more.getLastD first).span
      (.const (Token.texts (first :: more)))
  | .lParen =>
    let opening ← advance
    let inner ← expression deep
    let close ← expect .rParen
    return Node.between opening.span close.span (.parens inner)
  | _ => fail [.production "expression"]

/-- The arguments of a call, after the opening parenthesis. -/
def arguments : Parse (List Node) := do
  if ← check .rParen then return []
  else
    let args ← commaList (assignment deep)
    if ← check .rParen then return args else fail [.token .comma, .token .rParen]

/-- What follows an operand, if anything does. -/
def access? (recv : Node) : Parse (Option Node) := do
  match ← peekKind with
  | .lBracket =>
    let _ ← advance
    let place ← expression deep
    let close ← expect .rBracket
    return some (Node.between recv.span close.span (.index recv place))
  | .lParen =>
    let _ ← advance
    let args ← arguments deep
    let close ← expect .rParen
    return some (Node.between recv.span close.span (.call recv (Node.nonempty? args)))
  | .dot | .arrow =>
    let op ← advance
    let name ← expect .ident
    return some (Node.between recv.span name.span (.field recv op.text name.text))
  | .plusPlus | .minusMinus =>
    let op ← advance
    return some (Node.between recv.span op.span (.postUnary recv op.text))
  | _ => return none

def postfixed : Parse Node := do
  iterate (access? deep) (← primary deep)

/-- Whether the tokens are `sizeof` and a type name in parentheses. -/
def startsSizeofType : List Token → Bool
  | a :: b :: ts =>
    a.kind == .kwSizeof && b.kind == .lParen && Lookahead.startsTypeName false ts
  | _ => false

/-- The next `++`, `--` or `sizeof` before an operand. -/
def prefixOperator? : Parse (Option Token) := do
  let kind ← peekKind
  if kind.is .count || (kind == .kwSizeof && !startsSizeofType (← ahead)) then
    return some (← advance)
  else return none

def sizeofType : Parse Node := do
  let keyword ← advance
  let _ ← expect .lParen
  let name ← typeName deep
  let close ← expect .rParen
  return Node.between keyword.span close.span (.unary keyword.text name true)

/-- An operator such as `-` or `*`, with the operand that it applies to. -/
def operator : Parse Node := do
  let op ← advance
  return Node.prefixed op (← deep.operand)

/-- The size of a type, an operator with its operand, or a primary expression with what follows
it. -/
def unaryBody : Parse Node := do
  let kind ← peekKind
  if kind == .kwSizeof then sizeofType deep
  else if kind.is .unary then operator deep
  else postfixed deep

def unary : Parse Node := do
  let ops ← many prefixOperator?
  return ops.foldr Node.prefixed (← unaryBody deep)

/-- The next cast: its opening parenthesis and its type. -/
def castPrefix? : Parse (Option (Token × Node)) := do
  if (← check .lParen) && Lookahead.startsTypeName true (← ahead).tail then
    let opening ← advance
    let type ← typeName deep
    let _ ← expect .rParen
    return some (opening, type)
  else return none

def operand : Parse Node := do
  let casts ← many (castPrefix? deep)
  let body ← unary deep
  return casts.foldr (fun (opening, type) inner => Node.cast opening type inner) body

end CPretty.Grammar
