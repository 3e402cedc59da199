namespace CPretty

/-- How wide lines may be, how far a level is indented and how deeply a source may nest. -/
structure Options where
  /-- The column that a line should not run past. -/
  printWidth : Nat := 80
  /-- Spaces per indentation level. -/
  tabWidth : Nat := 2
  /-- The deepest nesting that a source may have. -/
  maxNestingDepth : Nat := 64
deriving DecidableEq, Repr

namespace Options

def nestingCap : Nat := 256

def nestingLimit (o : Options) : Nat := min o.maxNestingDepth nestingCap

def wordSize : Nat := 0x10000000000000000

/-- The columns left on a line from `column` on, as a signed word. -/
def room (o : Options) (column : Nat) : Int :=
  Int.bmod (o.printWidth - column) wordSize

def deeper (o : Options) (indent : Nat) : Nat := (indent + o.tabWidth) % wordSize

/-- An option with a value that it may not have. -/
inductive Violation where
  | printWidth | tabWidth | maxNestingDepth
deriving DecidableEq, Repr

def Violation.describe : Violation → String
  | .printWidth => "print-width must be at least 1"
  | .tabWidth => "tab-width must be at least 1"
  | .maxNestingDepth => "max-nesting-depth must be between 1 and " ++ toString nestingCap

def violation? (o : Options) : Option Violation :=
  if o.printWidth = 0 then some .printWidth
  else if o.tabWidth = 0 then some .tabWidth
  else if o.maxNestingDepth = 0 ∨ nestingCap < o.maxNestingDepth then some .maxNestingDepth
  else none

end Options

end CPretty
