import CPretty.Grammar.Nested
import CPretty.Syntax.Build

namespace CPretty.Grammar

open Parse

/-- The binary operators by precedence, the loosest first. -/
def ladder : List Expected :=
  [.token .orOr, .token .andAnd, .token .pipe, .token .caret, .token .amp, .category .equality,
    .category .relational, .category .shift, .category .additive, .category .multiplicative]

/-- Operands joined by the operators of the given levels. Operators of one level group to the
left. -/
def binary (operand : Parse Node) : List Expected → Parse Node
  | [] => operand
  | level :: tighter => do
    let first ← binary operand tighter
    first |> iterate fun lhs => do
      if level.accepts (← peekKind) then
        let op ← advance
        return some (Node.binary lhs op (← binary operand tighter))
      else return none

variable (deep : Nested)

/-- A binary expression, or a choice between two expressions by one. -/
def conditional : Parse Node := do
  let cond ← binary deep.operand ladder
  if ← eat .question then
    let yes ← deep.expression
    let _ ← expect .colon
    let no ← deep.conditional
    return Node.between cond.span no.span (.ternary cond yes no)
  else return cond

/-- Whether an expression may stand before an assignment operator: it is neither a binary, a
conditional nor a cast expression. -/
def isTarget (n : Node) : Bool :=
  match n.shape with
  | .binary .. | .ternary .. | .cast .. => false
  | _ => true

/-- An assignment with at most `n` assignment operators. They group to the right. -/
def assignmentUpTo : Nat → Parse Node
  | 0 => conditional deep
  | n + 1 => do
    let value ← conditional deep
    if (← peekKind).is .assignment then
      if isTarget value then
        let op ← advance
        return Node.assign value op (← assignmentUpTo n)
      else fail [.production "unary expression before assignment operator"]
    else return value

def assignment : Parse Node := do
  assignmentUpTo deep (← ahead).length

/-- One or more assignment expressions with commas between them. -/
def expression : Parse Node :=
  return Node.collect .exprs (← commaList (assignment deep))

/-- An expression in parentheses, which are not part of the tree. -/
def condition : Parse Node := do
  let _ ← expect .lParen
  let e ← expression deep
  let _ ← expect .rParen
  return e

end CPretty.Grammar
