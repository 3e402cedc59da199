import CPretty.Token.Basic

namespace CPretty.Lookahead

def isStar (t : Token) : Bool := t.kind == .star

def startsType (k : Kind) : Bool :=
  k.is .typeKeyword || k.is .typeQualifier || k.is .structOrUnion || k == .kwEnum

/-- The kinds that show, after a name in parentheses, that the name is a type. -/
def castOperands : List Kind :=
  [.ident, .constant, .stringLiteral, .bang, .tilde, .kwSizeof]

/-- Whether the tokens after an opening parenthesis are a type name. There is no table of declared
names: a lone identifier is one only in a cast, and there only when an operand follows that cannot
go on an expression. -/
def startsTypeName (inCast : Bool) : List Token → Bool
  | [] => false
  | t :: ts =>
    startsType t.kind ||
      (t.kind == .ident &&
        match ts.dropWhile isStar with
        | close :: next =>
          close.kind == .rParen &&
            ((ts.head?.any isStar) || (inCast && next.head?.any (castOperands.contains ·.kind)))
        | [] => false)

/-- Whether the tokens start a declaration: a specifier keyword, or an identifier followed by
another one, maybe through stars. -/
def startsDeclaration : List Token → Bool
  | [] => false
  | t :: ts =>
    startsType t.kind || t.kind.is .storageClass || t.kind.is .functionSpecifier ||
      t.kind == .kwStaticAssert ||
      (t.kind == .ident && (ts.dropWhile isStar).head?.any (·.kind == .ident))

/-- Whether the tokens are identifiers with commas between them up to a closing parenthesis. -/
def isIdentifierList : List Token → Bool
  | a :: b :: ts =>
    a.kind == .ident && (b.kind == .rParen || (b.kind == .comma && isIdentifierList ts))
  | _ => false

/-- Whether the tokens open a parenthesised abstract declarator. -/
def startsNestedAbstract : List Token → Bool
  | a :: b :: _ => a.kind == .lParen && (b.kind == .star || b.kind == .lBracket)
  | _ => false

end CPretty.Lookahead
