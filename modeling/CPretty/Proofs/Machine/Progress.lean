import CPretty.Proofs.Machine.Statement
import CPretty.Proofs.Token.Segments

namespace CPretty.Machine

open Program hiding pure bind
open Grammar

variable {x : Input} {limit d k n : Nat} {α β : Type} {s t : State} {c : Cursor} {deep : Nested}

def Input.cursor (x : Input) (s : State) : Cursor := ⟨x.front.drop s.position, x.finish⟩

namespace Production

/-- Whether a production takes at least one token. The others read a list that may be empty, or a
declarator that may be absent, or only look at the next token. -/
def consumes : {α : Type} → Production α → Bool
  | _, .translationUnit | _, .pointer | _, .suffixes _ | _, .parameterList | _, .parameterEnd
  | _, .directAbstractDeclarator | _, .arguments => false
  | _, _ => true

/-- The parser that a production agrees with. -/
def parser (deep : Nested) : {α : Type} → Production α → Parse α
  | _, .translationUnit => Grammar.sourceFile deep
  | _, .externalDeclaration => Grammar.externalDeclaration deep
  | _, .functionDefinition withSpecifiers => definitionOf deep withSpecifiers
  | _, .declaration => Grammar.declaration deep
  | _, .staticAssert => Grammar.staticAssert deep
  | _, .specifiers => nonempty (Grammar.specifierList deep)
  | _, .atomicSpecifier => Grammar.atomicSpecifier (Grammar.typeName deep)
  | _, .structSpecifier => deep.struct
  | _, .member => Grammar.member deep
  | _, .enumSpecifier => Grammar.enumSpecifier deep
  | _, .initDeclarator => Grammar.initDeclarator deep
  | _, .initializer => deep.initializer
  | _, .declarator => deep.declarator
  | _, .pointer => Parse.many pointerLevel?
  | _, .directDeclarator => do
    let base ← declaratorBase deep
    Parse.iterate (fun decl => suffix? deep (some decl)) base
  | _, .suffixes base => Parse.iterate (fun decl => return (← suffix? deep decl).map some) base
  | _, .parameterList => Grammar.parameterList deep
  | _, .parameter => Grammar.parameter deep
  | _, .parameterEnd => Grammar.parameterEnd
  | _, .abstractDeclarator => deep.abstractDeclarator
  | _, .directAbstractDeclarator => do
    let base ← Grammar.abstractBase deep
    Parse.iterate (fun decl => return (← suffix? deep decl).map some) base
  | _, .typeName => Grammar.typeName deep
  | _, .statement => deep.statement
  | _, .statementBody => Grammar.statement deep
  | _, .ifStatement => do ifStatementUpTo deep ((← Parse.ahead).length + 1)
  | _, .forStatement => Grammar.forStatement deep
  | _, .condition => Grammar.condition deep
  | _, .expressionStatement => Grammar.expressionStatement deep
  | _, .compound => Grammar.compound deep
  | _, .blockItem => Grammar.declarationOr deep deep.statement
  | _, .expression => Grammar.expression deep
  | _, .assignment => Grammar.assignment deep
  | _, .conditional => Grammar.conditional deep
  | _, .binary level => Grammar.binary deep.operand (ladder.drop level)
  | _, .operand level => Grammar.binary deep.operand (ladder.drop (level + 1))
  | _, .cast => deep.operand
  | _, .unary => Grammar.unary deep
  | _, .postfixed => Grammar.postfixed deep
  | _, .arguments => Grammar.arguments deep
  | _, .primary => Grammar.primary deep

end Production

theorem Agreeing.production (h : Agreeing x limit d deep) (p : Production α) :
    Follows x limit d (if p.consumes then 1 else 0) (call p) (p.parser deep) := by
  cases p with
  | translationUnit => exact h.translationUnit
  | externalDeclaration => exact h.externalDeclaration
  | functionDefinition withSpecifiers => exact h.functionDefinition withSpecifiers
  | declaration => exact h.declaration
  | staticAssert => exact h.staticAssert
  | specifiers => exact fun _ _ _ hs => specifierItems (h.specifierList hs)
  | atomicSpecifier => exact fun _ _ _ hs => atomicSpecifier hs fun _ hd => h.typeName hd
  | structSpecifier => exact h.struct
  | member => exact h.member
  | enumSpecifier => exact h.enumSpecifier
  | initDeclarator => exact h.initDeclarator
  | initializer => exact h.initializer
  | declarator => exact h.declarator
  | pointer => exact pointer
  | directDeclarator => exact h.directDeclarator
  | suffixes base => exact h.suffixes base
  | parameterList => exact h.parameterList
  | parameter => exact h.parameter
  | parameterEnd => exact parameterEnd
  | abstractDeclarator => exact h.abstractDeclarator
  | directAbstractDeclarator => exact h.directAbstractDeclarator
  | typeName => exact h.typeName
  | statement => exact h.statement
  | statementBody => exact h.statement'
  | ifStatement => exact h.ifStatement
  | forStatement => exact h.forStatement
  | condition => exact h.condition
  | expressionStatement => exact h.expressionStatement
  | compound => exact h.compound
  | blockItem => exact h.blockItem
  | expression => exact h.expression'
  | assignment => exact h.assignment
  | conditional => exact h.conditional'
  | binary level => exact h.binary level
  | operand level => exact h.operandLevel level
  | cast => exact h.operand
  | unary => exact h.unary
  | postfixed => exact h.postfixed
  | arguments => exact h.arguments
  | primary => exact h.primary

theorem Follows.nested {p : Program α} {q : Parse α} (hd : d < limit)
    (h : Follows x limit (d + 1) k p q) : Follows x limit d k (nested p) q :=
  fun _ _ _ hs => .nested hs hd (h ⟨congrArg (· + 1) hs.depth, hs.after, hs.inside, hs.cursor⟩)

theorem Agreeing.refused (hd : limit ≤ d) : Agreeing x limit d (.refused limit) where
  operand := .call fun _ _ _ hs => .refused hs hd
  expression := fun _ _ _ hs => .refused hs hd
  conditional := fun _ _ _ hs => .refused hs hd
  struct := .call fun _ _ _ hs => .refused hs hd
  initializer := .call fun _ _ _ hs => .refused hs hd
  declarator := .call fun _ _ _ hs => .refused hs hd
  abstractDeclarator := .call fun _ _ _ hs => .refused hs hd
  statement := .call fun _ _ _ hs => .refused hs hd

theorem Agreeing.around (hd : d < limit) (h : Agreeing x limit (d + 1) deep) :
    Agreeing x limit d deep.around where
  operand := .call (.nested hd h.operand')
  expression := .nested hd h.expression'
  conditional := .nested hd h.conditional'
  struct := .call (.nested hd h.struct')
  initializer := .call (.nested hd h.initializer')
  declarator := .call (.nested hd h.declarator')
  abstractDeclarator := .call (.nested hd h.abstractDeclarator')
  statement := .call (.nested hd h.statement')

theorem agreeing (x : Input) (limit d : Nat) :
    Agreeing x limit d (.levels limit (limit - d)) := by
  generalize hk : limit - d = k
  induction k generalizing d with
  | zero => exact .refused (Nat.le_of_sub_eq_zero hk)
  | succ k ih => exact .around (by omega) (ih (d + 1) (by omega))

/-- How a call of a production returns a result. -/
structure Returns (x : Input) (limit : Nat) (p : Production α) (s : State)
    (r : Except ParseError α) (s' : State) : Prop where
  run : x.run limit (call p) s = some (r, s')
  depth : s'.depth = s.depth
  inside : s'.position ≤ x.last
  progress : p.consumes = true → ∀ a, r = .ok a → s.position < s'.position
  parser : p.parser (.levels limit (limit - s.depth)) (x.cursor s) =
    (fun a => (a, x.cursor s')) <$> r

theorem exists_returns (x : Input) (limit : Nat) (p : Production α) (hs : s.position ≤ x.last) :
    ∃ r s', Returns x limit p s r s' := by
  have here : Stands x s.depth s.position s (x.cursor s) := ⟨rfl, le_rfl, hs, rfl⟩
  cases (agreeing x limit s.depth).production p here with
  | @ok a s' c' run parse stands =>
    refine ⟨.ok a, s', run, stands.depth, stands.inside, fun hp _ _ => ?_, ?_⟩
    · have := stands.after
      rw [hp, if_pos rfl] at this
      exact this
    · rw [parse, stands.cursor]
      rfl
  | @error e s' run parse =>
    have keeps := run_keeps run
    exact ⟨.error e, s', run, keeps.depth, keeps.inside hs, nofun, parse⟩

theorem Returns.eq_parse {stream : TokenStream} {r : Except ParseError Node} {s : State}
    (h : Returns x limit .translationUnit .start r s) (hx : x.tokens = stream.terminated) :
    r = stream.parse limit := by
  obtain ⟨front, finish⟩ := List.append_inj' hx rfl
  have cursor : x.cursor .start = ⟨stream.tokens, .eof stream.finish⟩ := by
    rw [← front, ← List.singleton_inj.mp finish]
    rfl
  have parsed : Grammar.sourceFile (.levels limit limit) (x.cursor .start) =
    (fun a => (a, x.cursor s)) <$> r := h.parser
  rw [TokenStream.parse, ← cursor, parsed]
  cases r <;> rfl

/-- The run over the tokens of a source returns what is parsed from them. From the start, the parser
comes only to programs that end and to states within the limit from which every production
returns. -/
theorem parser_returns (x : Input) (limit : Nat) :
    (∃ r s', Returns x limit .translationUnit .start r s' ∧
      ∀ stream : TokenStream, x.tokens = stream.terminated → r = stream.parse limit) ∧
      ∀ {β : Type} {q : Program β} {s : State},
        Reaches x limit (call .translationUnit) .start q s →
          x.run limit q s ≠ none ∧ s.depth ≤ limit ∧ s.position ≤ x.last ∧
            ∀ {α : Type} (p : Production α), ∃ r s', Returns x limit p s r s' := by
  have whole : ∃ r s', Returns x limit .translationUnit .start r s' :=
    exists_returns x limit _ (Nat.zero_le _)
  obtain ⟨r, s', returns⟩ := whole
  refine ⟨⟨r, s', returns, fun _ => returns.eq_parse⟩, fun h => ?_⟩
  have inside := h.inside (Nat.zero_le _)
  refine ⟨h.ends ?_, h.depth_le (Nat.zero_le _), inside, fun p => exists_returns x limit p inside⟩
  rw [returns.run]
  exact Option.some_ne_none _

/-- The only declaration of `int a;` takes all of it. -/
theorem parser_returns_declaration :
    let x : Input := ⟨[⟨.kwInt, "int", ⟨1, 1⟩⟩, ⟨.ident, "a", ⟨1, 5⟩⟩, ⟨.semicolon, ";", ⟨1, 6⟩⟩],
      .eof ⟨1, 7⟩, by decide, rfl⟩
    (∃ stream s', tokenize "int a;" = .ok stream ∧ x.tokens = stream.terminated ∧
      x.run 1 (call .translationUnit) .start = some (stream.parse 1, s')) ∧
    Reaches x 1 (call .translationUnit) .start (call .externalDeclaration) .start ∧
      x.run 1 (call .externalDeclaration) .start ≠ none ∧
      ∃ r s', Returns x 1 .externalDeclaration .start r s' ∧ s' = ⟨3, 0⟩ := by
  intro x
  obtain ⟨stream, lexed, tokens⟩ := exists_ok_of_any (x := tokenize "int a;")
    (p := fun s => s.terminated == x.tokens) (by decide +kernel)
  have tokens := (eq_of_beq tokens).symm
  have reached : Reaches x 1 (call .translationUnit) .start (call .externalDeclaration) .start := by
    have many : Reaches x 1 (call .translationUnit) .start _ .start := .first (.call .self)
    have step : Reaches x 1 (call .translationUnit) .start _ .start := .first (.step many)
    have item : Reaches x 1 (call .translationUnit) .start _ .start :=
      .next step (run_check .eof _)
    exact .first item
  obtain ⟨⟨r₀, s₀, whole, parsed⟩, all⟩ := parser_returns x 1
  obtain ⟨ends, -, -, calls⟩ := all reached
  obtain ⟨r, ⟨i, depth⟩, returns⟩ := calls .externalDeclaration
  refine ⟨⟨stream, s₀, lexed, tokens, by rw [whole.run, parsed stream tokens]⟩, reached, ends, r,
    ⟨i, depth⟩, returns, ?_⟩
  obtain ⟨⟨n, c⟩, parsed, empty⟩ := exists_ok_of_any
    (x := Production.externalDeclaration.parser (.levels 1 1) (x.cursor .start))
    (p := fun found => found.2.ahead.isEmpty) (by decide +kernel)
  have same := returns.parser.symm.trans parsed
  cases r with
  | error e => cases same
  | ok a =>
    obtain ⟨-, rfl⟩ := Prod.mk.inj (Except.ok.inj same)
    have := List.drop_eq_nil_iff.mp (List.isEmpty_iff.mp empty)
    exact congrArg₂ State.mk (Nat.le_antisymm returns.inside this) returns.depth

end CPretty.Machine
