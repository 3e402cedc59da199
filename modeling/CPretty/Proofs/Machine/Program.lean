import CPretty.Grammar.SourceFile

namespace CPretty.Machine

/-- The productions of the parser, by what they yield. -/
inductive Production : Type → Type
  | translationUnit : Production Node
  | externalDeclaration : Production Node
  | functionDefinition (withSpecifiers : Bool) : Production Node
  -- Declarations
  | declaration : Production Node
  | staticAssert : Production Node
  | specifiers : Production (List Node)
  | atomicSpecifier : Production Node
  | structSpecifier : Production Node
  | member : Production Node
  | enumSpecifier : Production Node
  | initDeclarator : Production Node
  | initializer : Production Node
  -- Declarators
  | declarator : Production Node
  | pointer : Production (List (Token × List Node))
  | directDeclarator : Production Node
  /-- The suffixes of a declarator, with what stands before them. -/
  | suffixes (base : Option Node) : Production (Option Node)
  | parameterList : Production (Option (List Node))
  | parameter : Production Node
  | parameterEnd : Production Unit
  | abstractDeclarator : Production Node
  | directAbstractDeclarator : Production (Option Node)
  | typeName : Production Node
  -- Statements
  | statement : Production Node
  | statementBody : Production Node
  | ifStatement : Production Node
  | forStatement : Production Node
  | condition : Production Node
  | expressionStatement : Production Node
  | compound : Production Node
  | blockItem : Production Node
  -- Expressions
  | expression : Production Node
  | assignment : Production Node
  | conditional : Production Node
  | binary (level : Fin Grammar.ladder.length) : Production Node
  | operand (level : Fin Grammar.ladder.length) : Production Node
  | cast : Production Node
  | unary : Production Node
  | postfixed : Production Node
  | arguments : Production (List Node)
  | primary : Production Node

/-- A program of the parser, by what it yields: a tree of the steps that the parser takes. It calls
productions by name, repeats steps with no bound and tries alternatives from one position. -/
inductive Program : Type → Type 1
  | pure {α : Type} (a : α) : Program α
  | bind {α β : Type} (p : Program α) (f : α → Program β) : Program β
  /-- The next token, or the end marker. -/
  | peek : Program Token
  /-- The kind of the token so many places ahead, or that of an end marker. -/
  | kindAt (n : Nat) : Program Kind
  /-- Takes the next token, but leaves the end marker where it is. -/
  | advance : Program Token
  | fail {α : Type} (expected : List Expected) : Program α
  | throw {α : Type} (e : ParseError) : Program α
  | mapError {α : Type} (f : ParseError → ParseError) (p : Program α) : Program α
  /-- Runs a program one level further in, as long as there is a level left. -/
  | nested {α : Type} (p : Program α) : Program α
  /-- Runs a program and yields its error, back at the position it started from. An excess of
  nesting stays a failure. -/
  | attempt {α : Type} (p : Program α) : Program (Except ParseError α)
  /-- Repeats a step from a value on, until it yields a result. -/
  | loop {α σ : Type} (step : σ → Program (σ ⊕ α)) (s : σ) : Program α
  | call {α : Type} (p : Production α) : Program α

instance : Monad Program where
  pure := .pure
  bind := .bind

variable {α σ : Type}

def peekKind : Program Kind := return (← .peek).kind

def check (kind : Kind) : Program Bool := return (← peekKind) == kind

def atEnd : Program Bool := check .eof

def eat? (kind : Kind) : Program (Option Token) := do
  if ← check kind then return some (← .advance) else return none

def eat (kind : Kind) : Program Bool := return (← eat? kind).isSome

def expect (kind : Kind) : Program Token := do
  match ← eat? kind with
  | some t => return t
  | none => .fail [.token kind]

/-- Tries `second` from the same position when `first` fails. -/
def either (first second : Program α) : Program α := do
  match ← .attempt first with
  | .ok a => return a
  | .error e => .mapError e.furthest second

/-- The first alternative that succeeds, after others that failed with the given error. -/
def firstOfAfter (best : Option ParseError) : List (Program α) → Program α
  | [] =>
    match best with
    | some e => .throw e
    | none => .fail []
  | alternative :: others => do
    match ← .attempt alternative with
    | .ok a => return a
    | .error e =>
      firstOfAfter (some (match best with
        | some previous => previous.furthest e
        | none => e)) others

def firstOf (alternatives : List (Program α)) : Program α := firstOfAfter none alternatives

/-- Adds what a step yields to a list, or ends the list. -/
def manyStep (step : Program (Option α)) (as : List α) : Program (List α ⊕ List α) := do
  match ← step with
  | some a => return .inl (as ++ [a])
  | none => return .inr as

def many (step : Program (Option α)) : Program (List α) := .loop (manyStep step) []

/-- Goes on with what a step yields, or ends with the value it was given. -/
def iterateStep (step : σ → Program (Option σ)) (s : σ) : Program (σ ⊕ σ) := do
  match ← step s with
  | some s' => return .inl s'
  | none => return .inr s

def iterate (step : σ → Program (Option σ)) (s : σ) : Program σ := .loop (iterateStep step) s

def commaItems (item : Program α) : Program (List α) :=
  many do
    if ← eat .comma then return some (← item) else return none

def commaList (item : Program α) : Program (List α) := do
  let first ← item
  return first :: (← commaItems item)

/-- Adds an item to a list, which ends before a closing brace or behind an item that no comma
follows. -/
def bracedStep (item : Program α) (as : List α) : Program (List α ⊕ List α) := do
  if ← check .rBrace then return .inr as
  else
    let a ← item
    if ← eat .comma then return .inl (as ++ [a]) else return .inr (as ++ [a])

/-- Items up to a closing brace or one that no comma follows. -/
def bracedItems (item : Program α) : Program (List α) := .loop (bracedStep item) []

def manyUntil (close : Kind) (item : Program α) : Program (List α) :=
  many do
    if (← check close) || (← atEnd) then return none else return some (← item)

def starsFrom (n : Nat) : Program Nat :=
  .loop (fun n => do
    if (← .kindAt n) == .star then return .inl (n + 1) else return .inr n) n

/-- Whether a type name starts so many places ahead, which stands after an opening parenthesis. -/
def startsTypeName (offset : Nat) (afterSizeof : Bool) : Program Bool := do
  let kind ← .kindAt offset
  if Lookahead.startsType kind then return true
  else if kind != .ident then return false
  else
    let n ← starsFrom (offset + 1)
    if (← .kindAt n) != .rParen then return false
    else if offset + 1 < n then return true
    else return !afterSizeof && Lookahead.castOperands.contains (← .kindAt (n + 1))

def startsDeclaration : Program Bool := do
  let kind ← peekKind
  if Lookahead.startsType kind || kind.is .storageClass || kind.is .functionSpecifier ||
      kind == .kwStaticAssert then return true
  else if kind != .ident then return false
  else return (← .kindAt (← starsFrom 1)) == .ident

/-- Goes on behind an identifier and a comma at a place ahead, or ends with an answer. -/
def identifierStep (n : Nat) : Program (Nat ⊕ Bool) := do
  if (← .kindAt n) != .ident then return .inr false
  else
    match ← .kindAt (n + 1) with
    | .rParen => return .inr true
    | .comma => return .inl (n + 2)
    | _ => return .inr false

/-- Whether identifiers with commas between them stand here, up to a closing parenthesis. -/
def isIdentifierList : Program Bool := .loop identifierStep 0

end CPretty.Machine
