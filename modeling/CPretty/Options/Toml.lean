import CPretty.Options.Basic

namespace CPretty

/-- The options that a settings file may name. -/
inductive Setting where
  | printWidth | tabWidth | maxNestingDepth
deriving DecidableEq, Repr

namespace Setting

def key : Setting → String
  | .printWidth => "print-width"
  | .tabWidth => "tab-width"
  | .maxNestingDepth => "max-nesting-depth"

def ofKey? (key : String) : Option Setting :=
  [printWidth, tabWidth, maxNestingDepth].find? (·.key == key)

end Setting

def Options.put (o : Options) (value : Nat) : Setting → Options
  | .printWidth => { o with printWidth := value }
  | .tabWidth => { o with tabWidth := value }
  | .maxNestingDepth => { o with maxNestingDepth := value }

namespace Toml

/-- The lines of a text. A line ends with a line feed or a carriage return and a line feed. -/
def lines : List Char → List (List Char)
  | [] => [[]]
  | '\n' :: cs => [] :: lines cs
  | '\r' :: '\n' :: cs => [] :: lines cs
  | c :: cs =>
    match lines cs with
    | line :: rest => (c :: line) :: rest
    | [] => [[c]]

def skipBlanks (cs : List Char) : List Char := cs.dropWhile fun c => c == ' ' || c == '\t'

/-- Comments hold any characters but controls other than the tab. -/
def isCommentChar (c : Char) : Bool := c == '\t' || (0x20 ≤ c.toNat && c.toNat ≠ 0x7F)

/-- Whether nothing but blanks and a comment is left of a line. -/
def isRest (cs : List Char) : Bool :=
  match skipBlanks cs with
  | [] => true
  | '#' :: comment => comment.all isCommentChar
  | _ => false

def isDecDigit (c : Char) : Bool := '0' ≤ c && c ≤ '9'

def isOctDigit (c : Char) : Bool := '0' ≤ c && c ≤ '7'

def isBinDigit (c : Char) : Bool := c == '0' || c == '1'

def isHexDigit (c : Char) : Bool :=
  isDecDigit c || ('a' ≤ c && c ≤ 'f') || ('A' ≤ c && c ≤ 'F')

def digitValue (c : Char) : Nat :=
  if isDecDigit c then c.toNat - '0'.toNat
  else if 'a' ≤ c && c ≤ 'f' then c.toNat - 'a'.toNat + 10
  else c.toNat - 'A'.toNat + 10

def numberValue (base : Nat) (digits : List Char) : Nat :=
  digits.foldl (fun n c => n * base + digitValue c) 0

/-- The digits after the first, each maybe after an underscore, and the rest. -/
def moreDigits (isDigit : Char → Bool) : List Char → List Char × List Char
  | [] => ([], [])
  | '_' :: c :: cs =>
    if isDigit c then
      let (digits, rest) := moreDigits isDigit cs
      (c :: digits, rest)
    else ([], '_' :: c :: cs)
  | c :: cs =>
    if isDigit c then
      let (digits, rest) := moreDigits isDigit cs
      (c :: digits, rest)
    else ([], c :: cs)

def number? (base : Nat) (isDigit : Char → Bool) : List Char → Option (Nat × List Char)
  | [] => none
  | c :: cs =>
    if isDigit c then
      let (digits, rest) := moreDigits isDigit cs
      some (numberValue base (c :: digits), rest)
    else none

def decimal? : List Char → Option (Nat × List Char)
  | '0' :: cs => some (0, cs)
  | cs => number? 10 isDecDigit cs

/-- An integer, which may be negative only as a zero, and the rest. -/
def integer? : List Char → Option (Nat × List Char)
  | '0' :: 'x' :: cs => number? 16 isHexDigit cs
  | '0' :: 'o' :: cs => number? 8 isOctDigit cs
  | '0' :: 'b' :: cs => number? 2 isBinDigit cs
  | '+' :: cs => decimal? cs
  | '-' :: cs => (decimal? cs).filter (·.1 = 0)
  | cs => decimal? cs

def integerBound : Nat := 0x8000000000000000

def isBareKeyChar (c : Char) : Bool :=
  ('a' ≤ c && c ≤ 'z') || ('A' ≤ c && c ≤ 'Z') || isDecDigit c || c == '_' || c == '-'

/-- A character given by the hexadecimal digits of its code point. -/
def hexChar? (digits : List Char) : Option Char :=
  if digits.all isHexDigit then
    let n := numberValue 16 digits
    if n.isValidChar then some (Char.ofNat n) else none
  else none

/-- A key in double quotes, after the opening quote, and the rest. The only escapes that a known
key can hold are those by code point. -/
def basicKey? : List Char → Option (List Char × List Char)
  | [] => none
  | '"' :: cs => some ([], cs)
  | '\\' :: 'u' :: a :: b :: c :: d :: cs => do
    let ch ← hexChar? [a, b, c, d]
    let (key, rest) ← basicKey? cs
    return (ch :: key, rest)
  | '\\' :: 'U' :: a :: b :: c :: d :: e :: f :: g :: h :: cs => do
    let ch ← hexChar? [a, b, c, d, e, f, g, h]
    let (key, rest) ← basicKey? cs
    return (ch :: key, rest)
  | '\\' :: _ => none
  | c :: cs => do
    let (key, rest) ← basicKey? cs
    return (c :: key, rest)

def key? : List Char → Option (List Char × List Char)
  | '"' :: cs => basicKey? cs
  | '\'' :: cs =>
    match cs.dropWhile (· != '\'') with
    | _ :: rest => some (cs.takeWhile (· != '\''), rest)
    | [] => none
  | cs => some (cs.span isBareKeyChar)

/-- The option that a line sets, if it sets one; `none` for a line that is refused. -/
def entry? (line : List Char) : Option (Option (Setting × Nat)) := do
  if isRest line then return none
  let (key, rest) ← key? (skipBlanks line)
  let setting ← Setting.ofKey? (String.ofList key)
  match skipBlanks rest with
  | '=' :: cs =>
    let (value, rest) ← integer? (skipBlanks cs)
    if isRest rest && value < integerBound then return some (setting, value) else none
  | _ => none

/-- The entries of a text. A mark for the order of bytes may stand at its start. -/
def entries? (source : String) : Option (List (Setting × Nat)) := do
  let cs := source.toList
  let cs := if cs.head? = some '\uFEFF' then cs.tail else cs
  let found := (← (lines cs).mapM entry?).filterMap id
  if (found.map Prod.fst).Nodup then return found else none

end Toml

/-- Why a settings file is refused. -/
inductive SettingsError where
  | malformed
  | invalid (violation : Options.Violation)
deriving DecidableEq, Repr

def SettingsError.message : SettingsError → String
  | .malformed => "invalid config: TOML"
  | .invalid v => "invalid config: " ++ v.describe

namespace Options

/-- The options themselves when they are within bounds. -/
def validated (o : Options) : Except SettingsError Options :=
  match o.violation? with
  | some v => .error (.invalid v)
  | none => .ok o

/-- The options that a settings file gives; those it does not name have their usual values. A file
holds at most one line for each option, with an integer for a value. Every other document is refused
like a malformed one. -/
def ofToml (source : String) : Except SettingsError Options :=
  match Toml.entries? source with
  | none => .error .malformed
  | some entries =>
    let usual : Options := {}
    (entries.foldl (fun o (setting, value) => o.put value setting) usual).validated

end Options

end CPretty
