import CPretty.Grammar.Operand
import CPretty.Grammar.Statement
import CPretty.Options.Basic
import CPretty.Syntax.Header

namespace CPretty

/-- The nesting productions over those one level further in. -/
def Nested.around (deep : Nested) : Nested where
  operand := Grammar.operand deep
  expression := Grammar.expression deep
  conditional := Grammar.conditional deep
  struct := Grammar.structSpecifier deep
  initializer := Grammar.initializer deep
  declarator := Grammar.declarator deep
  abstractDeclarator := Grammar.abstractDeclarator deep
  statement := Grammar.statement deep

/-- The nesting productions with a number of levels left. -/
def Nested.levels (limit : Nat) : Nat → Nested
  | 0 => .refused limit
  | n + 1 => (levels limit n).around

namespace Grammar

open Parse

variable (deep : Nested)

/-- The rest of a function definition after its specifiers. The declarator has to end in a
parameter list. -/
def functionDefinition (specs : Option Node) : Parse Node := do
  let decl ← deep.declarator
  if decl.declaresFunction then
    let decls ← many do
      if ← check .lBrace then return none else return some (← declaration deep)
    let body ← compound deep
    let (name, params) := decl.detachParams?.getD (decl, none)
    return Node.between (Node.spanOr specs name.span) body.span
      (.func specs name params decls body)
  else fail [.token .lParen]

def externalDeclaration : Parse Node :=
  let typed := do functionDefinition deep (some (← declSpecs deep))
  either (either typed (declaration deep)) (functionDefinition deep none)

def sourceFile : Parse Node := do
  let decls ← many do
    if ← atEnd then return none else return some (← externalDeclaration deep)
  let finish ← peek
  return ⟨Node.spanOf decls finish.span, .root decls⟩

end Grammar

/-- The tree of a token stream, with nesting up to `limit` levels. -/
def TokenStream.parse (s : TokenStream) (limit : Nat) : Except ParseError Node :=
  (·.1) <$> Grammar.sourceFile (Nested.levels limit limit) ⟨s.tokens, Token.eof s.finish⟩

end CPretty
