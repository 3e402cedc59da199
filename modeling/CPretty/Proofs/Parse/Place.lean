import CPretty.Proofs.Grammar.Derivation

namespace CPretty

/-- What an open bracket holds. The `?` of a conditional expression is one, which the `:` closes. -/
inductive Bracket where
  | paren | square | choice
  /-- A brace before enumerators or initializers. -/
  | list
  /-- A brace before the members of a structure. -/
  | body
  | block
deriving DecidableEq

/-- What an opening brace would hold. A name may come first after `enum`, `struct` and `union`. -/
inductive Opening where
  | block | list | body | enumName | structName
deriving DecidableEq

/-- A place between two tokens. It follows from the tokens before it alone, so that every reading of
a source takes a brace for the same thing. -/
structure Place where
  within : List Bracket
  opening : Opening

namespace Place

variable {s : List Bracket} {p : Place}

/-- The place after a token of the given kind, unless the token stands wrong: a bracket that closes
another one, a comma with nothing before it in a list, or one before the end of a block. -/
def after? (p : Place) : Kind → Option Place
  | .lParen => some ⟨.paren :: p.within, .block⟩
  | .lBracket => some ⟨.square :: p.within, .block⟩
  | .question => some ⟨.choice :: p.within, .block⟩
  | .lBrace =>
    match p.opening with
    | .block => some ⟨.block :: p.within, .block⟩
    | .list | .enumName => some ⟨.list :: p.within, .list⟩
    | .body | .structName => some ⟨.body :: p.within, .block⟩
  | .rParen =>
    match p.within with
    | .paren :: s => some ⟨s, .block⟩
    | _ => none
  | .rBracket =>
    match p.within with
    | .square :: s => some ⟨s, .block⟩
    | _ => none
  | .colon =>
    match p.within with
    | .choice :: s => some ⟨s, .block⟩
    | s => some ⟨s, .block⟩
  | .rBrace =>
    match p.within with
    | .list :: s => some ⟨s, .block⟩
    | .body :: s | .block :: s => if p.opening = .block then some ⟨s, .block⟩ else none
    | _ => none
  | .comma =>
    if p.within.head? = some .list ∧ p.opening ≠ .block then none else some ⟨p.within, .list⟩
  | .eq => some ⟨p.within, .list⟩
  | .kwEnum => some ⟨p.within, .enumName⟩
  | .kwStruct | .kwUnion => some ⟨p.within, .structName⟩
  | .ident =>
    match p.opening with
    | .enumName => some ⟨p.within, .list⟩
    | .structName => some ⟨p.within, .body⟩
    | _ => some ⟨p.within, .block⟩
  | _ => some ⟨p.within, .block⟩

/-- Within the brackets `s`, where a brace would hold what `o` says. -/
def At (s : List Bracket) (o : Opening) (p : Place) : Prop := p = ⟨s, o⟩

/-- Within the brackets `s`, not directly after `enum`, `struct` or `union`. -/
def Free (s : List Bracket) (p : Place) : Prop :=
  ∃ o, o ∉ [Opening.enumName, .structName] ∧ p = ⟨s, o⟩

theorem At.free {o : Opening} (h : At s o p) (ho : o ∉ [Opening.enumName, .structName]) :
    Free s p := ⟨o, ho, h⟩

end Place

/-- The kinds that neither open, close nor part anything and do not bear on what a brace holds. -/
def Kind.isInner (k : Kind) : Bool :=
  !([.lParen, .rParen, .lBracket, .rBracket, .lBrace, .rBrace, .question, .colon, .comma, .eq,
    .semicolon, .kwEnum, .kwStruct, .kwUnion, .eof] : List Kind).contains k

end CPretty
