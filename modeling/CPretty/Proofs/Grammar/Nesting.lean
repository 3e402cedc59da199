import CPretty.Grammar.SourceFile
import CPretty.Proofs.Parse.Brackets

namespace CPretty

open Parse

/-- Every nesting production opens at most `n` brackets at once. -/
structure Nested.Opens (n : Nat) (deep : Nested) : Prop where
  operand : CPretty.Opens n deep.operand
  expression : CPretty.Opens n deep.expression
  conditional : CPretty.Opens n deep.conditional
  struct : ∀ ⦃m s c⦄, Room n m s → c.peek.kind.is .structOrUnion = true →
    Keeps m s s c (deep.struct c)
  initializer : CPretty.Opens n deep.initializer
  declarator : CPretty.Opens n deep.declarator
  abstractDeclarator : CPretty.Opens n deep.abstractDeclarator
  statement : CPretty.Opens n deep.statement

theorem Kind.isPlain_of_is {k : Kind} {g : Category} (h : k.is g = true) : k.isPlain = true := by
  have brackets : ∀ k ∈ [Kind.eof] ++ openers ++ closers, k.is g = false := by
    cases g <;> decide
  cases hp : k.isPlain with
  | true => rfl
  | false =>
    simp only [isPlain, Bool.not_eq_false', Bool.or_eq_true, beq_iff_eq,
      List.contains_iff_mem] at hp
    rw [brackets k (by simpa [or_assoc] using hp)] at h
    cases h

namespace Grammar

variable {deep : Nested} {n m : Nat} {s : List Bool} {c : Cursor}

theorem accepts_isPlain {l : Expected} (hl : l ∈ ladder) {k : Kind} (hk : l.accepts k = true) :
    k.isPlain = true := by
  cases l with
  | token k' =>
    obtain rfl : k = k' := eq_of_beq hk
    simp only [ladder, List.mem_cons, Expected.token.injEq, reduceCtorEq, List.not_mem_nil,
      or_false] at hl
    obtain rfl | rfl | rfl | rfl | rfl := hl <;> rfl
  | category g => exact Kind.isPlain_of_is hk
  | production _ => cases hk

theorem binary_opens {p : Parse Node} (h : Opens n p) {levels : List Expected}
    (hl : levels ⊆ ladder) : Opens n (binary p levels) := by
  induction levels with
  | nil => exact h
  | cons level tighter ih =>
    have hi := ih (List.subset_of_cons_subset hl)
    intro m s c hm
    refine .bind (hi hm) fun {first _} => Opens.iterate (fun lhs m s c hm => ?_) first hm
    refine .peekKind fun {k} hk => ?_
    split
    next ha =>
      have hp := accepts_isPlain (hl List.mem_cons_self) ha
      exact .advance hm (hk ▸ hp) (.bind (hi hm) (.pure hm))
    next => exact .pure hm

variable (h : deep.Opens n)
include h

theorem conditional_opens : Opens n (conditional deep) := by
  intro m s c hm
  refine .bind (binary_opens h.operand (List.Subset.refl ladder) hm) ?_
  intro cond d
  refine .eat rfl hm ?_ (.pure hm)
  exact .bind (h.expression hm) (.expect rfl hm (.bind (h.conditional hm) (.pure hm)))

theorem assignment_opens : Opens n (assignment deep) := by
  have loop (l : Nat) : Opens n (assignmentUpTo deep l) := by
    induction l with
    | zero => exact conditional_opens h
    | succ l ih =>
      intro m s c hm
      refine .bind (conditional_opens h hm) fun {value _} => .peekKind fun {k} hk => ?_
      split
      next ha =>
        split
        · exact .advance hm (hk ▸ Kind.isPlain_of_is ha) (.bind (ih hm) (.pure hm))
        · exact .error
      next => exact .pure hm
  exact fun _ _ _ hm => .ahead (loop _ hm)

theorem expression_opens : Opens n (expression deep) :=
  fun _ _ _ hm => .bind ((assignment_opens h).commaList hm) (.pure hm)

theorem condition_opens : Opens (n + 1) (condition deep) := by
  intro m s c hm
  refine .expectOpen (by decide) hm fun hb => .bind (expression_opens h hb) ?_
  exact .expectClose (by decide) hb (.pure hm)

theorem enumerator_opens : Opens n (enumerator deep) := by
  intro m s c hm
  refine .expect rfl hm (.eat rfl hm ?_ (.pure hm))
  exact .bind (.map (conditional_opens h hm)) (.pure hm)

theorem enumSpecifier_opens (hm : Room (n + 1) m s) (hk : c.peek.kind = .kwEnum) :
    Keeps m s s c (enumSpecifier deep c) := by
  refine .advance hm (by rw [hk]; rfl) (.bind (Opens.eat? rfl hm) fun {o _} => ?_)
  refine .eatOpen (by decide) hm (fun hb => ?_) ?_
  · refine .bind ((enumerator_opens h).bracedItems hb) ?_
    exact .expectClose (by decide) hb (.pure hm)
  · cases o with
    | none => exact .error
    | some t => exact .pure hm

omit h in
theorem specifierNode_opens (wrap : List Node → Shape Node) (specs : List Node) :
    Opens n (specifierNode wrap specs) := by
  intro m s c hm
  rw [specifierNode]
  split
  · exact .error
  · exact .pure hm

theorem typeNameOf_opens (specs : List Node) : Opens n (typeNameOf deep specs) := by
  intro m s c hm
  refine .bind (specifierNode_opens _ specs hm) (.peekKind fun {k} _ => ?_)
  split
  · exact .bind (h.abstractDeclarator hm) (.pure hm)
  · exact .pure hm

theorem specifier?_opens {typeName : Parse Node} (ht : Opens (n + 1) typeName) (seen : Bool) :
    Opens (n + 1) (specifier? deep typeName seen) := by
  intro m s c hm
  refine .peekKind fun {k} hk => .ahead ?_
  split
  next ha =>
    have hk : c.peek.kind = .kwAtomic := by simp_all
    refine .bind (.atomic hm hk (.bind (ht hm.uncounted) ?_)) (.pure hm)
    exact .expectClose (by decide) hm.uncounted (.pure hm)
  split
  next hg =>
    have hp : k.isPlain = true := by
      simp only [Bool.or_eq_true] at hg
      obtain (hg | hg) | hg := hg <;> exact Kind.isPlain_of_is hg
    exact .advance hm (hk ▸ hp) (.pure hm)
  split
  next hg => exact .advance hm (hk ▸ Kind.isPlain_of_is hg) (.pure hm)
  split
  next hg => exact .bind (h.struct hm.pred (hk ▸ hg)) (.pure hm)
  split
  next hg => exact .bind (enumSpecifier_opens h hm (hk.trans (eq_of_beq hg))) (.pure hm)
  split
  next hg =>
    refine .advance hm ?_ (.pure hm)
    simp only [Bool.and_eq_true, beq_iff_eq] at hg
    rw [hk, hg.1]
    rfl
  · exact .pure hm

theorem specifiersUpTo_opens (l : Nat) (seen : Bool) :
    Opens (n + 1) (specifiersUpTo deep l seen) := by
  induction l generalizing seen with
  | zero => exact fun _ _ _ hm => .pure hm
  | succ l ih =>
    have name : Opens (n + 1) (do typeNameOf deep (← specifiersUpTo deep l false)) :=
      fun _ _ _ hm => .bind (ih false hm) ((typeNameOf_opens h _).mono hm)
    intro m s c hm
    refine .bind (specifier?_opens h name seen hm) fun {o _} => ?_
    cases o with
    | none => exact .pure hm
    | some r => exact .bind (ih _ hm) (.pure hm)

theorem specifierList_opens : Opens (n + 1) (specifierList deep) :=
  fun _ _ _ hm => .ahead (specifiersUpTo_opens h _ _ hm)

theorem declSpecs_opens : Opens (n + 1) (declSpecs deep) :=
  fun _ _ _ hm => .bind (specifierList_opens h hm) (specifierNode_opens _ _ hm)

theorem specQuals_opens : Opens (n + 1) (specQuals deep) :=
  fun _ _ _ hm => .bind (specifierList_opens h hm) (specifierNode_opens _ _ hm)

theorem typeName_opens : Opens (n + 1) (typeName deep) :=
  fun _ _ _ hm => .bind (specifierList_opens h hm) ((typeNameOf_opens h _).mono hm)

theorem primary_opens : Opens (n + 1) (primary deep) := by
  intro m s c hm
  refine .peekKind fun {k} hk => ?_
  split
  · exact .advance hm (by rw [hk]; rfl) (.pure hm)
  · exact .advance hm (by rw [hk]; rfl) (.pure hm)
  · exact .bind (Opens.strings hm) (.pure hm)
  · refine .advanceOpen hm (by rw [hk]; decide) fun hb => .bind (expression_opens h hb) ?_
    exact .expectClose (by decide) hb (.pure hm)
  · exact .error

theorem arguments_opens : Opens n (arguments deep) := by
  intro m s c hm
  refine .check ?_
  split
  · exact .pure hm
  · refine .bind ((assignment_opens h).commaList hm) (.check ?_)
    split
    · exact .pure hm
    · exact .error

theorem access?_opens (recv : Node) : Opens (n + 1) (access? deep recv) := by
  intro m s c hm
  refine .peekKind fun {k} hk => ?_
  split
  · refine .advanceOpen hm (by rw [hk]; decide) fun hb => .bind (expression_opens h hb) ?_
    exact .expectClose (by decide) hb (.pure hm)
  · refine .advanceOpen hm (by rw [hk]; decide) fun hb => .bind (arguments_opens h hb) ?_
    exact .expectClose (by decide) hb (.pure hm)
  · exact .advance hm (by rw [hk]; rfl) (.expect rfl hm (.pure hm))
  · exact .advance hm (by rw [hk]; rfl) (.expect rfl hm (.pure hm))
  · exact .advance hm (by rw [hk]; rfl) (.pure hm)
  · exact .advance hm (by rw [hk]; rfl) (.pure hm)
  · exact .pure hm

theorem postfixed_opens : Opens (n + 1) (postfixed deep) :=
  fun _ _ _ hm => .bind (primary_opens h hm) (Opens.iterate (access?_opens h) _ hm)

theorem unaryBody_opens : Opens (n + 2) (unaryBody deep) := by
  intro m s c hm
  refine .peekKind fun {k} hk => ?_
  split
  next hg =>
    refine .advance hm (by rw [hk, eq_of_beq hg]; rfl) (.expectOpen (by decide) hm fun hb => ?_)
    exact .bind (typeName_opens h hb) (.expectClose (by decide) hb (.pure hm))
  split
  next hg =>
    refine .advance hm (hk ▸ Kind.isPlain_of_is hg) ?_
    exact .bind (h.operand hm.pred.pred) (.pure hm)
  · exact postfixed_opens h hm.pred

omit h in
theorem prefixOperator?_opens : Opens n prefixOperator? := by
  intro m s c hm
  refine .peekKind fun {k} hk => .ahead ?_
  split
  next hg =>
    refine .advance hm ?_ (.pure hm)
    simp only [Bool.or_eq_true, Bool.and_eq_true, beq_iff_eq] at hg
    rw [hk]
    obtain hg | ⟨rfl, -⟩ := hg
    · exact Kind.isPlain_of_is hg
    · rfl
  next => exact .pure hm

theorem unary_opens : Opens (n + 2) (unary deep) := by
  intro m s c hm
  exact .bind (Opens.many prefixOperator?_opens hm) (.bind (unaryBody_opens h hm) (.pure hm))

theorem castPrefix?_opens : Opens (n + 2) (castPrefix? deep) := by
  intro m s c hm
  refine .check (.ahead ?_)
  split
  next hg =>
    refine .advanceOpen hm (by simp_all [Kind.openers]) fun hb => .bind (typeName_opens h hb) ?_
    exact .expectClose (by decide) hb (.pure hm)
  next => exact .pure hm

theorem operand_opens : Opens (n + 2) (operand deep) := by
  intro m s c hm
  exact .bind (Opens.many (castPrefix?_opens h) hm) (.bind (unary_opens h hm) (.pure hm))

omit h in
theorem qualifier?_opens : Opens n qualifier? := by
  intro m s c hm
  refine .peekKind fun {k} hk => ?_
  split
  next hg => exact .advance hm (hk ▸ Kind.isPlain_of_is hg) (.pure hm)
  next => exact .pure hm

omit h in
theorem pointerLevel?_opens : Opens n pointerLevel? := by
  intro m s c hm
  exact .eat? rfl hm (.bind (Opens.many qualifier?_opens hm) (.pure hm)) (.pure hm)

omit h in
theorem parameterEnd_opens : Opens n parameterEnd := by
  intro m s c hm
  refine .check (.check ?_)
  split
  · exact .pure hm
  · exact .error

theorem parameterDeclarator_opens : Opens n (parameterDeclarator deep) := by
  have ending {p : Parse Node} (hp : Opens n p) :
      Opens n (do let decl ← p; parameterEnd; return some decl) :=
    fun _ _ _ hm => .bind (hp hm) (.bind (parameterEnd_opens hm) (.pure hm))
  refine .either (.either (ending h.declarator) (ending h.abstractDeclarator)) ?_
  exact fun _ _ _ hm => .bind (parameterEnd_opens hm) (.pure hm)

theorem parameter_opens : Opens (n + 1) (parameter deep) := fun _ _ _ hm =>
  .bind (declSpecs_opens h hm) (.bind ((parameterDeclarator_opens h).mono hm) (.pure hm))

theorem parametersUpTo_opens (l : Nat) : Opens (n + 1) (parametersUpTo deep l) := by
  induction l with
  | zero => exact fun _ _ _ hm => .pure hm
  | succ l ih =>
    intro m s c hm
    refine .bind (parameter_opens h hm) (.eat rfl hm (.eat? rfl hm (.pure hm) ?_) (.pure hm))
    exact .bind (ih hm) (.pure hm)

theorem parameterList_opens : Opens (n + 1) (parameterList deep) := by
  have name : Opens (n + 1) (Token.identNode <$> expect .ident) := by
    intro m s c hm
    rw [map_eq_pure_bind]
    exact .expect rfl hm (.pure hm)
  intro m s c hm
  refine .check ?_
  split
  · exact .pure hm
  refine .ahead ?_
  split
  · exact .bind (name.commaList hm) (.pure hm)
  · refine .ahead (.bind (parametersUpTo_opens h _ hm) (.check ?_))
    split
    · exact .pure hm
    · exact .error

theorem suffix?_opens (decl : Option Node) : Opens (n + 2) (suffix? deep decl) := by
  intro m s c hm
  refine .peekKind fun {k} hk => ?_
  split
  · refine .advanceOpen hm (by rw [hk]; decide) fun hb => .check ?_
    split
    · exact .bind (.pure hb) (.expectClose (by decide) hb (.pure hm))
    · refine .bind (.map (assignment_opens h hb.pred)) ?_
      exact .expectClose (by decide) hb (.pure hm)
  · refine .advanceOpen hm (by rw [hk]; decide) fun hb => .bind (parameterList_opens h hb) ?_
    exact .expectClose (by decide) hb (.pure hm)
  · exact .pure hm

theorem declaratorBase_opens : Opens (n + 1) (declaratorBase deep) := by
  intro m s c hm
  refine .peekKind fun {k} hk => ?_
  split
  · exact .advance hm (by rw [hk]; rfl) (.pure hm)
  · refine .advanceOpen hm (by rw [hk]; decide) fun hb => .bind (h.declarator hb) ?_
    exact .expectClose (by decide) hb (.pure hm)
  · exact .error

theorem declarator_opens : Opens (n + 2) (declarator deep) := by
  intro m s c hm
  refine .bind (Opens.many pointerLevel?_opens hm) (.bind (declaratorBase_opens h hm.pred) ?_)
  exact .bind (Opens.iterate (fun decl => suffix?_opens h (some decl)) _ hm) (.pure hm)

theorem abstractBase_opens : Opens (n + 1) (abstractBase deep) := by
  intro m s c hm
  refine .ahead ?_
  split
  next hg =>
    have hk := Lookahead.peek_of_startsNestedAbstract hg
    refine .advanceOpen hm (by rw [hk]; decide) fun hb => .bind (h.abstractDeclarator hb) ?_
    exact .expectClose (by decide) hb (.pure hm)
  next => exact .pure hm

theorem abstractDeclarator_opens : Opens (n + 2) (abstractDeclarator deep) := by
  have step (decl : Option Node) : Opens (n + 2) (do return (← suffix? deep decl).map some) :=
    fun _ _ _ hm => .bind (suffix?_opens h decl hm) (.pure hm)
  intro m s c hm
  refine .bind (Opens.many pointerLevel?_opens hm) (.bind (abstractBase_opens h hm.pred) ?_)
  intro base d
  refine .bind (Opens.iterate step base hm) ?_
  intro direct d
  dsimp only
  generalize List.foldr _ direct _ = whole
  cases whole with
  | none => exact .error
  | some decl => exact .pure hm

theorem bitfield_opens (decl : Option Node) (colon : Token) :
    Opens n (bitfield deep decl colon) :=
  fun _ _ _ hm => .bind (conditional_opens h hm) (.pure hm)

theorem memberDeclarator_opens : Opens n (memberDeclarator deep) := by
  intro m s c hm
  refine .eat? rfl hm (bitfield_opens h _ _ hm) (.bind (h.declarator hm) ?_)
  exact .eat? rfl hm (bitfield_opens h _ _ hm) (.pure hm)

theorem member_opens : Opens (n + 1) (member deep) := by
  intro m s c hm
  refine .bind (specQuals_opens h hm) (.check ?_)
  split
  · exact .bind (.pure hm) (.expect rfl hm (.pure hm))
  · exact .bind ((memberDeclarator_opens h).commaList hm.pred) (.expect rfl hm (.pure hm))

theorem structSpecifier_opens (hm : Room (n + 2) m s)
    (hk : c.peek.kind.is .structOrUnion = true) : Keeps m s s c (structSpecifier deep c) := by
  refine .advance hm (Kind.isPlain_of_is hk) (.bind (Opens.eat? rfl hm) fun {o _} => ?_)
  refine .eatOpen (by decide) hm (fun hb => ?_) ?_
  · refine .bind ((member_opens h).manyUntil _ hb) ?_
    exact .expectClose (by decide) hb (.pure hm)
  · cases o with
    | none => exact .error
    | some t => exact .pure hm

theorem initializer_opens : Opens (n + 1) (initializer deep) := by
  intro m s c hm
  refine .eat?Open (by decide) hm (fun hb => ?_) (assignment_opens h hm.pred)
  exact .bind (h.initializer.bracedItems hb) (.expectClose (by decide) hb (.pure hm))

theorem initDeclarator_opens : Opens n (initDeclarator deep) := by
  intro m s c hm
  refine .bind (h.declarator hm) (.eat rfl hm ?_ (.pure hm))
  exact .bind (.map (h.initializer hm)) (.pure hm)

theorem declaration_opens : Opens (n + 1) (declaration deep) := by
  intro m s c hm
  refine .check ?_
  split
  next hk =>
    refine .advance hm (by rw [eq_of_beq hk]; rfl) (.expectOpen (by decide) hm fun hb => ?_)
    refine .bind (conditional_opens h hb) (.expect rfl hb (.bind (Opens.strings hb) ?_))
    exact .expectClose (by decide) hb (.expect rfl hm (.pure hm))
  next =>
    refine .bind (declSpecs_opens h hm) (.check ?_)
    split
    · exact .bind (.pure hm) (.eat? rfl hm (.pure hm) .error)
    · exact .bind ((initDeclarator_opens h).commaList hm.pred) (.eat? rfl hm (.pure hm) .error)

theorem expressionStatement_opens : Opens n (expressionStatement deep) := by
  intro m s c hm
  refine .check ?_
  split
  · exact .bind (.pure hm) (.expect rfl hm (.pure hm))
  · exact .bind (.map (expression_opens h hm)) (.expect rfl hm (.pure hm))

theorem declarationOr_opens {p : Parse Node} (hp : Opens (n + 1) p) :
    Opens (n + 1) (declarationOr deep p) := by
  intro m s c hm
  refine .ahead ?_
  split
  · exact Opens.either (declaration_opens h) hp hm
  · exact hp hm

theorem compound_opens : Opens (n + 2) (compound deep) := by
  intro m s c hm
  refine .expectOpen (by decide) hm fun hb => ?_
  refine .bind ((declarationOr_opens h h.statement.mono).manyUntil _ hb) ?_
  exact .expectClose (by decide) hb (.pure hm)

theorem ifStatementUpTo_opens (l : Nat) (hm : Room (n + 2) m s) (hk : c.peek.kind = .kwIf) :
    Keeps m s s c (ifStatementUpTo deep l c) := by
  induction l generalizing c with
  | zero => exact h.statement hm.pred.pred
  | succ l ih =>
    refine .advance hm (by rw [hk]; rfl) (.bind (condition_opens h hm.pred) ?_)
    refine .bind (h.statement hm.pred.pred) (.eat rfl hm (.check ?_) (.pure hm))
    split
    next hi => exact .bind (.map (ih (eq_of_beq hi))) (.pure hm)
    next => exact .bind (.map (h.statement hm.pred.pred)) (.pure hm)

theorem forStatement_opens (hm : Room (n + 2) m s) (hk : c.peek.kind = .kwFor) :
    Keeps m s s c (forStatement deep c) := by
  refine .advance hm (by rw [hk]; rfl) (.expectOpen (by decide) hm fun {b _ _} hb => ?_)
  refine .bind (declarationOr_opens h (expressionStatement_opens h).mono hb) ?_
  refine .bind (expressionStatement_opens h hb.pred) (.check ?_)
  have ending {o : Option Node} {init cond : Node} {t : Token} {d : Cursor} :
      Keeps m (b :: s) s d ((do
        let _ ← expect .rParen
        let body ← deep.statement
        return Node.between t.span body.span (.forStmt init cond o body)) d) :=
    .expectClose (by decide) hb (.bind (h.statement hm.pred.pred) (.pure hm))
  split
  · exact .bind (.pure hb) ending
  · exact .bind (.map (expression_opens h hb.pred)) ending

theorem statement_opens : Opens (n + 2) (statement deep) := by
  intro m s c hm
  have body {d : Cursor} : Keeps m s s d (deep.statement d) := h.statement hm.pred.pred
  have head {d : Cursor} : Keeps m s s d (condition deep d) := condition_opens h hm.pred
  have plainly {d : Cursor} : Keeps m s s d (expressionStatement deep d) :=
    expressionStatement_opens h hm.pred.pred
  refine .peekKind fun {k} hk => ?_
  split
  · refine .ahead ?_
    split
    · exact .advance hm (by rw [hk]; rfl) (.expect rfl hm (.bind body (.pure hm)))
    · exact plainly
  · refine .advance hm (by rw [hk]; rfl) (.bind (conditional_opens h hm.pred.pred) ?_)
    exact .expect rfl hm (.bind body (.pure hm))
  · exact .advance hm (by rw [hk]; rfl) (.expect rfl hm (.bind body (.pure hm)))
  · exact compound_opens h hm
  · exact .ahead (ifStatementUpTo_opens h _ hm hk)
  · exact .advance hm (by rw [hk]; rfl) (.bind head (.bind body (.pure hm)))
  · exact .advance hm (by rw [hk]; rfl) (.bind head (.bind body (.pure hm)))
  · refine .advance hm (by rw [hk]; rfl) (.bind body (.expect rfl hm ?_))
    exact .bind head (.expect rfl hm (.pure hm))
  · exact forStatement_opens h hm hk
  · exact .advance hm (by rw [hk]; rfl) (.expect rfl hm (.expect rfl hm (.pure hm)))
  · exact .advance hm (by rw [hk]; rfl) (.expect rfl hm (.pure hm))
  · exact .advance hm (by rw [hk]; rfl) (.expect rfl hm (.pure hm))
  · refine .advance hm (by rw [hk]; rfl) (.check ?_)
    split
    · exact .bind (.pure hm) (.expect rfl hm (.pure hm))
    · exact .bind (.map (expression_opens h hm.pred.pred)) (.expect rfl hm (.pure hm))
  · exact plainly

theorem functionDefinition_opens (specs : Option Node) :
    Opens (n + 2) (functionDefinition deep specs) := by
  have step : Opens (n + 2)
      (do if ← check .lBrace then return none else return some (← declaration deep)) := by
    intro m s c hm
    refine .check ?_
    split
    · exact .pure hm
    · exact .bind (declaration_opens h hm.pred) (.pure hm)
  intro m s c hm
  refine .bind (h.declarator hm.pred.pred) ?_
  intro decl d
  split
  · exact .bind (step.many hm) (.bind (compound_opens h hm) (.pure hm))
  · exact .error

theorem externalDeclaration_opens : Opens (n + 2) (externalDeclaration deep) := by
  refine .either (.either ?_ (declaration_opens h).mono) (functionDefinition_opens h none)
  exact fun _ _ _ hm => .bind (declSpecs_opens h hm.pred) (functionDefinition_opens h _ hm)

theorem sourceFile_opens : Opens (n + 2) (sourceFile deep) := by
  have step : Opens (n + 2)
      (do if ← atEnd then return none else return some (← externalDeclaration deep)) := by
    intro m s c hm
    refine .atEnd ?_
    split
    · exact .pure hm
    · exact .bind (externalDeclaration_opens h hm) (.pure hm)
  intro m s c hm
  refine .bind (step.many hm) ?_
  intro decls d
  exact .pure hm

end Grammar

namespace Nested.Opens

theorem around {n : Nat} {deep : Nested} (h : deep.Opens n) : deep.around.Opens (n + 2) where
  operand := Grammar.operand_opens h
  expression := (Grammar.expression_opens h).mono.mono
  conditional := (Grammar.conditional_opens h).mono.mono
  struct _ _ _ hm hk := Grammar.structSpecifier_opens h hm hk
  initializer := (Grammar.initializer_opens h).mono
  declarator := Grammar.declarator_opens h
  abstractDeclarator := Grammar.abstractDeclarator_opens h
  statement := Grammar.statement_opens h

theorem levels (limit n : Nat) : (Nested.levels limit n).Opens (2 * n) := by
  induction n with
  | zero =>
    have refuse : CPretty.Opens 0 (do throw ((← get).excess limit) : Parse Node) :=
      fun _ _ _ _ => .error
    exact ⟨refuse, refuse, refuse, fun _ _ _ hm _ => refuse hm, refuse, refuse, refuse, refuse⟩
  | succ n ih => exact ih.around

end Nested.Opens

end CPretty
