import CPretty.Parse.Error
import CPretty.Syntax.Basic

namespace CPretty

/-- The tokens not yet read and the end marker that stands after them. -/
structure Cursor where
  ahead : List Token
  finish : Token
deriving DecidableEq, Repr

namespace Cursor

def peek (c : Cursor) : Token := c.ahead.headD c.finish

/-- The position after the next token; there is none after the end marker. -/
def advance (c : Cursor) : Cursor := { c with ahead := c.ahead.tail }

def failure (c : Cursor) (expected : List Expected) : ParseError :=
  ⟨.unexpected expected, c.peek, c.ahead.length⟩

/-- The error that one more level here would be beyond `limit`. -/
def excess (c : Cursor) (limit : Nat) : ParseError :=
  ⟨.tooDeep limit, c.peek, c.ahead.length⟩

end Cursor

/-- A parser: it moves the cursor on and yields a value, or it fails. -/
abbrev Parse := StateT Cursor (Except ParseError)

namespace Parse

variable {α σ : Type}

def peek : Parse Token := return (← get).peek

def peekKind : Parse Kind := return (← get).peek.kind

def ahead : Parse (List Token) := return (← get).ahead

def atEnd : Parse Bool := return (← get).ahead.isEmpty

def advance : Parse Token := do
  let c ← get
  set c.advance
  return c.peek

def fail (expected : List Expected) : Parse α := do
  throw ((← get).failure expected)

def check (kind : Kind) : Parse Bool := return (← peekKind) == kind

def eat? (kind : Kind) : Parse (Option Token) := do
  if ← check kind then return some (← advance) else return none

/-- Takes the next token if it is of the given kind, and tells whether it was. -/
def eat (kind : Kind) : Parse Bool := return (← eat? kind).isSome

/-- Takes the next token, which has to be of the given kind. -/
def expect (kind : Kind) : Parse Token := do
  if ← check kind then advance else fail [.token kind]

/-- Tries `second` from the same position when `first` fails, unless it failed by excess of
nesting. -/
def either (first second : Parse α) : Parse α := fun c =>
  match first c with
  | .ok r => .ok r
  | .error e =>
    if e.isTooDeep then .error e
    else
      match second c with
      | .ok r => .ok r
      | .error e' => .error (e.furthest e')

/-- Repeats a step at most `n` times, until it yields nothing. -/
def manyUpTo (step : Parse (Option α)) : Nat → Parse (List α)
  | 0 => return []
  | n + 1 => do
    match ← step with
    | none => return []
    | some a => return a :: (← manyUpTo step n)

/-- Repeats a step until it yields nothing. The bound suffices because every step that goes on takes
at least one token. -/
def many (step : Parse (Option α)) : Parse (List α) := do
  manyUpTo step ((← ahead).length + 1)

/-- Rebuilds a value at most `n` times, until a step yields nothing. -/
def iterateUpTo (step : σ → Parse (Option σ)) : Nat → σ → Parse σ
  | 0, s => return s
  | n + 1, s => do
    match ← step s with
    | none => return s
    | some s' => iterateUpTo step n s'

def iterate (step : σ → Parse (Option σ)) (s : σ) : Parse σ := do
  iterateUpTo step ((← ahead).length + 1) s

/-- Repeats an item until the next token is of kind `close` or the end is reached. -/
def manyUntil (close : Kind) (item : Parse α) : Parse (List α) :=
  many do
    if (← check close) || (← atEnd) then return none else return some (← item)

def commaItems (item : Parse α) : Parse (List α) :=
  many do
    if ← eat .comma then return some (← item) else return none

def commaList (item : Parse α) : Parse (List α) := do
  let first ← item
  return first :: (← commaItems item)

/-- Items before a closing brace with a comma between each two, and maybe one after the last. -/
def bracedItemsUpTo (item : Parse α) : Nat → Parse (List α)
  | 0 => return []
  | n + 1 => do
    if ← check .rBrace then return []
    else
      let a ← item
      if ← eat .comma then return a :: (← bracedItemsUpTo item n) else return [a]

/-- Items before a closing brace with a comma between each two, and maybe one after the last. -/
def bracedItems (item : Parse α) : Parse (List α) := do
  bracedItemsUpTo item ((← ahead).length + 1)

/-- Adjacent string literals: the first and those after it. -/
def strings : Parse (Token × List Token) := do
  let first ← expect .stringLiteral
  return (first, ← many (eat? .stringLiteral))

end Parse

end CPretty
