namespace CPretty

/-- What a token is: a literal, a name, a keyword, a punctuator or the end of the source. -/
inductive Kind where
  | constant | stringLiteral | ident
  | kwAuto | kwBreak | kwCase | kwChar | kwConst | kwContinue | kwDefault | kwDo | kwDouble
  | kwElse | kwEnum | kwExtern | kwFloat | kwFor | kwGoto | kwIf | kwInline | kwInt | kwLong
  | kwRegister | kwRestrict | kwReturn | kwShort | kwSigned | kwSizeof | kwStatic | kwStruct
  | kwSwitch | kwTypedef | kwUnion | kwUnsigned | kwVoid | kwVolatile | kwWhile | kwBool
  | kwComplex | kwImaginary | kwAtomic | kwStaticAssert | kwThreadLocal
  | plus | minus | star | slash | percent | eqEq | notEq | lt | le | gt | ge | andAnd | orOr
  | bang | amp | pipe | caret | tilde | ltLt | gtGt | eq | plusEq | minusEq | starEq | slashEq
  | percentEq | ampEq | pipeEq | caretEq | ltLtEq | gtGtEq | plusPlus | minusMinus | dot | arrow
  | question | colon | lParen | rParen | lBrace | rBrace | lBracket | rBracket | semicolon
  | comma | ellipsis
  | eof
deriving DecidableEq, Repr

namespace Kind

def keywords : List Kind :=
  [.kwAuto, .kwBreak, .kwCase, .kwChar, .kwConst, .kwContinue, .kwDefault, .kwDo, .kwDouble,
    .kwElse, .kwEnum, .kwExtern, .kwFloat, .kwFor, .kwGoto, .kwIf, .kwInline, .kwInt, .kwLong,
    .kwRegister, .kwRestrict, .kwReturn, .kwShort, .kwSigned, .kwSizeof, .kwStatic, .kwStruct,
    .kwSwitch, .kwTypedef, .kwUnion, .kwUnsigned, .kwVoid, .kwVolatile, .kwWhile, .kwBool,
    .kwComplex, .kwImaginary, .kwAtomic, .kwStaticAssert, .kwThreadLocal]

/-- The operators and other punctuators, in the order of their declaration. -/
def punctuators : List Kind :=
  [.plus, .minus, .star, .slash, .percent, .eqEq, .notEq, .lt, .le, .gt, .ge, .andAnd, .orOr,
    .bang, .amp, .pipe, .caret, .tilde, .ltLt, .gtGt, .eq, .plusEq, .minusEq, .starEq, .slashEq,
    .percentEq, .ampEq, .pipeEq, .caretEq, .ltLtEq, .gtGtEq, .plusPlus, .minusMinus, .dot,
    .arrow, .question, .colon, .lParen, .rParen, .lBrace, .rBrace, .lBracket, .rBracket,
    .semicolon, .comma, .ellipsis]

/-- The canonical spelling, where the kind has one. -/
def spelling : Kind → Option String
  | .constant | .stringLiteral | .ident | .eof => none
  | .kwAuto => some "auto"
  | .kwBreak => some "break"
  | .kwCase => some "case"
  | .kwChar => some "char"
  | .kwConst => some "const"
  | .kwContinue => some "continue"
  | .kwDefault => some "default"
  | .kwDo => some "do"
  | .kwDouble => some "double"
  | .kwElse => some "else"
  | .kwEnum => some "enum"
  | .kwExtern => some "extern"
  | .kwFloat => some "float"
  | .kwFor => some "for"
  | .kwGoto => some "goto"
  | .kwIf => some "if"
  | .kwInline => some "inline"
  | .kwInt => some "int"
  | .kwLong => some "long"
  | .kwRegister => some "register"
  | .kwRestrict => some "restrict"
  | .kwReturn => some "return"
  | .kwShort => some "short"
  | .kwSigned => some "signed"
  | .kwSizeof => some "sizeof"
  | .kwStatic => some "static"
  | .kwStruct => some "struct"
  | .kwSwitch => some "switch"
  | .kwTypedef => some "typedef"
  | .kwUnion => some "union"
  | .kwUnsigned => some "unsigned"
  | .kwVoid => some "void"
  | .kwVolatile => some "volatile"
  | .kwWhile => some "while"
  | .kwBool => some "_Bool"
  | .kwComplex => some "_Complex"
  | .kwImaginary => some "_Imaginary"
  | .kwAtomic => some "_Atomic"
  | .kwStaticAssert => some "_Static_assert"
  | .kwThreadLocal => some "_Thread_local"
  | .plus => some "+"
  | .minus => some "-"
  | .star => some "*"
  | .slash => some "/"
  | .percent => some "%"
  | .eqEq => some "=="
  | .notEq => some "!="
  | .lt => some "<"
  | .le => some "<="
  | .gt => some ">"
  | .ge => some ">="
  | .andAnd => some "&&"
  | .orOr => some "||"
  | .bang => some "!"
  | .amp => some "&"
  | .pipe => some "|"
  | .caret => some "^"
  | .tilde => some "~"
  | .ltLt => some "<<"
  | .gtGt => some ">>"
  | .eq => some "="
  | .plusEq => some "+="
  | .minusEq => some "-="
  | .starEq => some "*="
  | .slashEq => some "/="
  | .percentEq => some "%="
  | .ampEq => some "&="
  | .pipeEq => some "|="
  | .caretEq => some "^="
  | .ltLtEq => some "<<="
  | .gtGtEq => some ">>="
  | .plusPlus => some "++"
  | .minusMinus => some "--"
  | .dot => some "."
  | .arrow => some "->"
  | .question => some "?"
  | .colon => some ":"
  | .lParen => some "("
  | .rParen => some ")"
  | .lBrace => some "\x7b"
  | .rBrace => some "\x7d"
  | .lBracket => some "["
  | .rBracket => some "]"
  | .semicolon => some ";"
  | .comma => some ","
  | .ellipsis => some "..."

/-- The two-character spellings that stand for a brace or a bracket. -/
def digraphs : List (String × Kind) :=
  [("<%", .lBrace), ("%>", .rBrace), ("<:", .lBracket), (":>", .rBracket)]

/-- Every spelling of a punctuator, with the kind that it stands for. -/
def punctuatorSpellings : List (String × Kind) :=
  digraphs ++ punctuators.filterMap fun k => k.spelling.map (·, k)

def keywordSpellings : List (String × Kind) :=
  keywords.filterMap fun k => k.spelling.map (·, k)

/-- The kind of a word: the keyword with that spelling, or else an identifier. -/
def ofWord (word : String) : Kind :=
  (keywordSpellings.lookup word).getD .ident

def ofPunctuator? (text : String) : Option Kind :=
  punctuatorSpellings.lookup text

/-- The name of a kind in token listings. -/
def name : Kind → String
  | .constant => "Constant"
  | .stringLiteral => "StringLiteral"
  | .ident => "Ident"
  | .kwAuto => "Auto"
  | .kwBreak => "Break"
  | .kwCase => "Case"
  | .kwChar => "Char"
  | .kwConst => "Const"
  | .kwContinue => "Continue"
  | .kwDefault => "Default"
  | .kwDo => "Do"
  | .kwDouble => "Double"
  | .kwElse => "Else"
  | .kwEnum => "Enum"
  | .kwExtern => "Extern"
  | .kwFloat => "Float"
  | .kwFor => "For"
  | .kwGoto => "Goto"
  | .kwIf => "If"
  | .kwInline => "Inline"
  | .kwInt => "Int"
  | .kwLong => "Long"
  | .kwRegister => "Register"
  | .kwRestrict => "Restrict"
  | .kwReturn => "Return"
  | .kwShort => "Short"
  | .kwSigned => "Signed"
  | .kwSizeof => "Sizeof"
  | .kwStatic => "Static"
  | .kwStruct => "Struct"
  | .kwSwitch => "Switch"
  | .kwTypedef => "Typedef"
  | .kwUnion => "Union"
  | .kwUnsigned => "Unsigned"
  | .kwVoid => "Void"
  | .kwVolatile => "Volatile"
  | .kwWhile => "While"
  | .kwBool => "Bool"
  | .kwComplex => "Complex"
  | .kwImaginary => "Imaginary"
  | .kwAtomic => "Atomic"
  | .kwStaticAssert => "StaticAssert"
  | .kwThreadLocal => "ThreadLocal"
  | .plus => "Plus"
  | .minus => "Minus"
  | .star => "Star"
  | .slash => "Slash"
  | .percent => "Percent"
  | .eqEq => "EqEq"
  | .notEq => "NotEq"
  | .lt => "Lt"
  | .le => "Le"
  | .gt => "Gt"
  | .ge => "Ge"
  | .andAnd => "AndAnd"
  | .orOr => "OrOr"
  | .bang => "Bang"
  | .amp => "Amp"
  | .pipe => "Pipe"
  | .caret => "Caret"
  | .tilde => "Tilde"
  | .ltLt => "LtLt"
  | .gtGt => "GtGt"
  | .eq => "Eq"
  | .plusEq => "PlusEq"
  | .minusEq => "MinusEq"
  | .starEq => "StarEq"
  | .slashEq => "SlashEq"
  | .percentEq => "PercentEq"
  | .ampEq => "AmpEq"
  | .pipeEq => "PipeEq"
  | .caretEq => "CaretEq"
  | .ltLtEq => "LtLtEq"
  | .gtGtEq => "GtGtEq"
  | .plusPlus => "PlusPlus"
  | .minusMinus => "MinusMinus"
  | .dot => "Dot"
  | .arrow => "Arrow"
  | .question => "Question"
  | .colon => "Colon"
  | .lParen => "LParen"
  | .rParen => "RParen"
  | .lBrace => "LBrace"
  | .rBrace => "RBrace"
  | .lBracket => "LBracket"
  | .rBracket => "RBracket"
  | .semicolon => "Semicolon"
  | .comma => "Comma"
  | .ellipsis => "Ellipsis"
  | .eof => "Eof"

def describe (k : Kind) : String :=
  match k.spelling with
  | some s => "'" ++ s ++ "'"
  | none =>
    match k with
    | .constant => "constant"
    | .stringLiteral => "string literal"
    | .ident => "identifier"
    | _ => "end of file"

end Kind

end CPretty
