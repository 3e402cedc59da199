import CPretty.Token.Basic
import CPretty.Token.Error

namespace CPretty

/-- What a run of characters turned out to be. -/
inductive Lexeme where
  | token (kind : Kind)
  | comment (kind : CommentKind)
  | fault (reason : LexFault)
deriving DecidableEq, Repr

namespace Lexeme

def isComment : Lexeme → Bool
  | .comment _ => true
  | _ => false

end Lexeme

namespace Scan

def isDigit (c : Char) : Bool := '0' ≤ c && c ≤ '9'

def isHexDigit (c : Char) : Bool :=
  isDigit c || ('a' ≤ c && c ≤ 'f') || ('A' ≤ c && c ≤ 'F')

def isWordStart (c : Char) : Bool :=
  ('a' ≤ c && c ≤ 'z') || ('A' ≤ c && c ≤ 'Z') || c == '_'

def isWordChar (c : Char) : Bool := isWordStart c || isDigit c

def isIntegerSuffix (c : Char) : Bool :=
  c == 'u' || c == 'U' || c == 'l' || c == 'L'

def isFloatSuffix (c : Char) : Bool :=
  c == 'f' || c == 'F' || c == 'l' || c == 'L'

/-- The rest of a literal after its opening quote, and whether its closing quote is there. A
backslash takes the next character with it, also a line end; any other line end stops the
literal. -/
def quotedTail (quote : Char) : List Char → Bool × List Char
  | [] => (false, [])
  | ['\\'] => (false, ['\\'])
  | '\\' :: c :: cs =>
    let (closed, tail) := quotedTail quote cs
    (closed, '\\' :: c :: tail)
  | c :: cs =>
    if c = '\n' then (false, [])
    else if c = quote then (true, [c])
    else
      let (closed, tail) := quotedTail quote cs
      (closed, c :: tail)

def stringTail (cs : List Char) : Lexeme × List Char :=
  let (closed, tail) := quotedTail '"' cs
  (if closed then .token .stringLiteral else .fault .unterminatedString, tail)

def charTail : List Char → Lexeme × List Char
  | '\'' :: _ => (.fault .emptyChar, ['\''])
  | cs =>
    let (closed, tail) := quotedTail '\'' cs
    (if closed then .token .constant else .fault .unterminatedChar, tail)

/-- The fraction of a decimal number: a point and the digits after it. -/
def fraction : List Char → List Char
  | '.' :: cs => '.' :: cs.takeWhile isDigit
  | _ => []

/-- The exponent of a decimal number, which needs at least one digit. -/
def exponent : List Char → List Char
  | e :: cs =>
    if e == 'e' || e == 'E' then
      match cs with
      | d :: ds =>
        if isDigit d then e :: cs.takeWhile isDigit
        else if (d == '+' || d == '-') && ds.head?.any isDigit then
          e :: d :: ds.takeWhile isDigit
        else []
      | [] => []
    else []
  | [] => []

/-- The suffix of a number: at most one letter after a float, any run of them after an integer. -/
def numberSuffix (isFloat : Bool) (cs : List Char) : List Char :=
  if isFloat then (cs.take 1).takeWhile isFloatSuffix else cs.takeWhile isIntegerSuffix

/-- A decimal number. It is a float once it has a fraction or an exponent. -/
def decimal (cs : List Char) : List Char :=
  let whole := cs.takeWhile isDigit
  let point := fraction (cs.drop whole.length)
  let mantissa := whole ++ point
  let power := exponent (cs.drop mantissa.length)
  let body := mantissa ++ power
  body ++ numberSuffix (!point.isEmpty || !power.isEmpty) (cs.drop body.length)

def hexadecimal (mark cs : List Char) : Lexeme × List Char :=
  let digits := cs.takeWhile isHexDigit
  if digits.isEmpty then (.fault (.malformedNumber (String.ofList mark)), mark)
  else
    (.token .constant,
      mark ++ digits ++ (cs.drop digits.length).takeWhile isIntegerSuffix)

def number : List Char → Lexeme × List Char
  | '0' :: 'x' :: cs => hexadecimal ['0', 'x'] cs
  | '0' :: 'X' :: cs => hexadecimal ['0', 'X'] cs
  | cs => (.token .constant, decimal cs)

/-- The words that make a literal out of a quote directly after them. -/
def literalMarks : List String := ["L", "u", "U", "u8"]

/-- A word, at its first character: a keyword, an identifier or a marked literal. -/
def word (cs : List Char) : Lexeme × List Char :=
  let letters := cs.takeWhile isWordChar
  let text := String.ofList letters
  if literalMarks.contains text then
    match cs.drop letters.length with
    | '"' :: rest => (stringTail rest).map id (letters ++ '"' :: ·)
    | '\'' :: rest => (charTail rest).map id (letters ++ '\'' :: ·)
    | _ => (.token (Kind.ofWord text), letters)
  else (.token (Kind.ofWord text), letters)

def punctuator? (cs : List Char) : Option (Kind × List Char) :=
  [3, 2, 1].findSome? fun n =>
    (Kind.ofPunctuator? (String.ofList (cs.take n))).map (·, cs.take n)

/-- Whether a number starts here: a digit, or a point before one. -/
def startsNumber : List Char → Bool
  | '.' :: c :: _ => isDigit c
  | c :: _ => isDigit c
  | [] => false

/-- A token at the head of a source that starts with `c`. -/
def token (c : Char) (cs : List Char) : Lexeme × List Char :=
  if c = '"' then (stringTail cs).map id ('"' :: ·)
  else if c = '\'' then (charTail cs).map id ('\'' :: ·)
  else if startsNumber (c :: cs) then number (c :: cs)
  else if isWordStart c then word (c :: cs)
  else
    match punctuator? (c :: cs) with
    | some (kind, text) => (.token kind, text)
    | none => (.fault (.unexpectedChar c), [c])

/-- A block comment after its opening mark, and whether its closing mark is there. -/
def blockTail : List Char → Bool × List Char
  | [] => (false, [])
  | '*' :: '/' :: _ => (true, ['*', '/'])
  | c :: cs =>
    let (closed, tail) := blockTail cs
    (closed, c :: tail)

/-- A line with the lines that a backslash before the line end joins to it. -/
def logicalLine : List Char → List Char
  | [] => []
  | '\\' :: '\n' :: cs => '\\' :: '\n' :: logicalLine cs
  | '\\' :: '\r' :: '\n' :: cs => '\\' :: '\r' :: '\n' :: logicalLine cs
  | c :: cs => if c = '\n' then [] else c :: logicalLine cs

/-- A directive ends before the carriage return of its line end. -/
def directive (cs : List Char) : List Char :=
  let line := logicalLine cs
  if line.getLast? = some '\r' then line.dropLast else line

/-- What starts at `c`, and the characters it takes. A `#` starts a directive only where nothing
but blanks and comments stands before it on its line. -/
def lexeme (lineStart : Bool) (c : Char) (cs : List Char) : Lexeme × List Char :=
  if c = '#' && lineStart then (.comment .directive, directive (c :: cs))
  else
    match c, cs with
    | '/', '/' :: _ => (.comment .line, (c :: cs).takeWhile (· != '\n'))
    | '/', '*' :: rest =>
      let (closed, tail) := blockTail rest
      (if closed then .comment .block else .fault .unterminatedComment, '/' :: '*' :: tail)
    | _, _ => token c cs

end Scan

end CPretty
