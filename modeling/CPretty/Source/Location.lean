namespace CPretty

/-- The place of one character. Lines and columns count from one, a column is one character wide,
and only a line feed starts a new line. -/
structure Location where
  line : Nat
  column : Nat
deriving DecidableEq, Repr

namespace Location

def start : Location := ⟨1, 1⟩

instance : Inhabited Location := ⟨⟨0, 0⟩⟩

def Before (a b : Location) : Prop :=
  a.line < b.line ∨ a.line = b.line ∧ a.column < b.column

instance : LT Location := ⟨Before⟩

instance : LE Location := ⟨fun a b => a = b ∨ a < b⟩

instance (a b : Location) : Decidable (a < b) :=
  inferInstanceAs (Decidable (a.line < b.line ∨ a.line = b.line ∧ a.column < b.column))

instance (a b : Location) : Decidable (a ≤ b) :=
  inferInstanceAs (Decidable (a = b ∨ a < b))

def next (loc : Location) (c : Char) : Location :=
  if c = '\n' then ⟨loc.line + 1, 1⟩ else ⟨loc.line, loc.column + 1⟩

def after (loc : Location) (cs : List Char) : Location :=
  cs.foldl next loc

@[simp] theorem after_nil (loc : Location) : loc.after [] = loc := rfl

@[simp] theorem after_cons (loc : Location) (c : Char) (cs : List Char) :
    loc.after (c :: cs) = (loc.next c).after cs := rfl

theorem after_append (loc : Location) (cs ds : List Char) :
    loc.after (cs ++ ds) = (loc.after cs).after ds :=
  List.foldl_append

def describe (loc : Location) : String :=
  "line " ++ toString loc.line ++ ", column " ++ toString loc.column

end Location

/-- A range of characters, both ends included. -/
structure Span where
  first : Location
  last : Location
deriving DecidableEq, Repr

namespace Span

instance : Inhabited Span := ⟨⟨default, default⟩⟩

/-- The range from the start of one span to the end of another. -/
def through (a b : Span) : Span := ⟨a.first, b.last⟩

def WellFormed (s : Span) : Prop := s.first ≤ s.last

instance (s : Span) : Decidable s.WellFormed :=
  inferInstanceAs (Decidable (s.first ≤ s.last))

end Span

end CPretty
