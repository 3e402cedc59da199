import CPretty.Parse.Basic

namespace CPretty

/-- How to read each production that counts as a level of nesting, one level further in. Every other
production is written over such a record. -/
structure Nested where
  /-- An operand of a binary operator, with the casts before it. -/
  operand : Parse Node
  /-- The middle part of a conditional expression. -/
  expression : Parse Node
  /-- The last part of a conditional expression. -/
  conditional : Parse Node
  /-- A `struct` or `union` specifier. -/
  struct : Parse Node
  initializer : Parse Node
  /-- A declarator with a name. -/
  declarator : Parse Node
  /-- A declarator without a name. -/
  abstractDeclarator : Parse Node
  statement : Parse Node

def Nested.refused (limit : Nat) : Nested :=
  let refuse : Parse Node := do throw ((← get).excess limit)
  { operand := refuse
    expression := refuse
    conditional := refuse
    struct := refuse
    initializer := refuse
    declarator := refuse
    abstractDeclarator := refuse
    statement := refuse }

end CPretty
