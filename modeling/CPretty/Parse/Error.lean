import CPretty.Token.Basic

namespace CPretty

/-- Something that would have been accepted at the place of an error. -/
inductive Expected where
  | token (kind : Kind)
  | category (group : Category)
  | production (name : String)
deriving DecidableEq, Repr

namespace Expected

/-- Whether a token of the given kind is what was expected. -/
def accepts : Expected → Kind → Bool
  | .token kind, k => k == kind
  | .category group, k => k.is group
  | .production _, _ => false

def describe : Expected → String
  | .token kind => kind.describe
  | .category group => group.describe
  | .production name => name

def describeAll : List Expected → String
  | [] => "something else"
  | [e] => e.describe
  | e :: es =>
    ", ".intercalate ((e :: es).dropLast.map describe) ++ " or " ++ (es.getLastD e).describe

def pool (known more : List Expected) : List Expected :=
  more.foldl (fun es e => if e ∈ es then es else es ++ [e]) known

end Expected

inductive ParseFault where
  /-- None of the expected alternatives was found. -/
  | unexpected (expected : List Expected)
  /-- The source nests deeper than `limit` levels. -/
  | tooDeep (limit : Nat)
deriving DecidableEq, Repr

/-- A fault, the token at which it arose and how many tokens stood from there to the end. -/
structure ParseError where
  fault : ParseFault
  found : Token
  left : Nat
deriving DecidableEq, Repr

namespace ParseError

def location (e : ParseError) : Location := e.found.location

def isTooDeep (e : ParseError) : Bool :=
  match e.fault with
  | .tooDeep _ => true
  | .unexpected _ => false

def message (e : ParseError) : String :=
  "Parse error at " ++ e.location.describe ++ ": " ++
    match e.fault with
    | .unexpected expected =>
      "expected " ++ Expected.describeAll expected ++ ", found " ++ e.found.describe
    | .tooDeep limit => "nesting exceeds " ++ toString limit ++ " levels"

/-- The error of two failed readings: excess of nesting, or the one that got further. At the same
token the expectations of both are pooled. -/
def furthest (a b : ParseError) : ParseError :=
  match a.fault, b.fault with
  | .tooDeep _, _ => a
  | _, .tooDeep _ => b
  | .unexpected known, .unexpected more =>
    if a.left = b.left then ⟨.unexpected (Expected.pool known more), a.found, a.left⟩
    else if b.left < a.left then b
    else a

end ParseError

end CPretty
